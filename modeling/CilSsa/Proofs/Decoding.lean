import Mathlib.Algebra.Order.Ring.Int
import Mathlib.Data.Nat.Log
import CilSsa.Number.Binary
import CilSsa.Bytecode.Decode
import CilSsa.Proofs.Assembly

/-! Widening and narrowing meet in the dyadic number that a pattern stands for, which has a place of its own in
either format. -/

namespace CilSsa.Number

theorem divNearest_mul (q : Nat) {y : Nat} (hy : 0 < y) : divNearest (q * y) y = q := by
  unfold divNearest
  simp [Nat.mul_div_cancel q hy, hy]

theorem log2_mul_pow {m : Nat} (hm : 0 < m) (u : Nat) : (m * 2 ^ u).log2 = m.log2 + u := by
  obtain ⟨hle, hlt⟩ := (Nat.log2_eq_iff (Nat.ne_of_gt hm)).mp rfl
  apply (Nat.log2_eq_iff (Nat.ne_of_gt (Nat.mul_pos hm (Nat.two_pow_pos u)))).mpr
  constructor
  · rw [Nat.pow_add]
    exact Nat.mul_le_mul_right _ hle
  · rw [Nat.add_right_comm, Nat.pow_add]
    exact Nat.mul_lt_mul_of_pos_right hlt (Nat.two_pow_pos u)

section

variable {m u v : Nat} (hm : 0 < m)

include hm

theorem floorLog2_dyadic : floorLog2 (m * 2 ^ u) (2 ^ v) = (m.log2 : Int) + u - v := by
  have hle := Nat.log2_self_le (Nat.ne_of_gt hm)
  have hlog : (2 ^ v).log2 = v := Nat.log2_two_pow
  unfold floorLog2 scaleRatio
  rw [log2_mul_pow hm, hlog]
  dsimp only
  by_cases hk : (0 : Int) ≤ (m.log2 + u : Nat) - v
  · rw [if_pos hk]
    have hexp : v + ((m.log2 + u : Nat) - v : Int).toNat = m.log2 + u := by omega
    have hfit : 2 ^ v * Nat.pow 2 ((m.log2 + u : Nat) - v : Int).toNat ≤ m * 2 ^ u := by
      change 2 ^ v * 2 ^ ((m.log2 + u : Nat) - v : Int).toNat ≤ _
      rw [← Nat.pow_add, hexp, Nat.pow_add]
      exact Nat.mul_le_mul_right _ hle
    rw [if_pos hfit]
    omega
  · rw [if_neg hk]
    have hexp : m.log2 + (u + (-((m.log2 + u : Nat) - v : Int)).toNat) = v := by omega
    have hfit : 2 ^ v ≤ m * 2 ^ u * Nat.pow 2 (-((m.log2 + u : Nat) - v : Int)).toNat := by
      change _ ≤ m * 2 ^ u * 2 ^ (-((m.log2 + u : Nat) - v : Int)).toNat
      rw [Nat.mul_assoc, ← Nat.pow_add]
      calc 2 ^ v = 2 ^ m.log2 * 2 ^ (u + (-((m.log2 + u : Nat) - v : Int)).toNat) := by rw [← Nat.pow_add, hexp]
        _ ≤ _ := Nat.mul_le_mul_right _ hle
    rw [if_pos hfit]
    omega

theorem roundRatio_exact (f : BinaryFormat) {q : Nat} {e : Int}
    (he : e = max ((m.log2 : Int) + u - v - f.fractionBits) f.minExponent)
    (hq : m * 2 ^ u * 2 ^ (-e).toNat = q * (2 ^ v * 2 ^ e.toNat)) :
    roundRatio f (m * 2 ^ u) (2 ^ v) =
      min (if q < 2 ^ f.fractionBits then q
        else ((e - f.minExponent).toNat + 1) * 2 ^ f.fractionBits + (q - 2 ^ f.fractionBits)) f.infinityBits := by
  have hpos : m * 2 ^ u ≠ 0 := Nat.ne_of_gt (Nat.mul_pos hm (Nat.two_pow_pos u))
  have hround : ∀ x y, scaleRatio (m * 2 ^ u) (2 ^ v) e = (x, y) → divNearest x y = q := by
    intro x y hxy
    unfold scaleRatio at hxy
    split at hxy
    · rename_i h0
      obtain ⟨rfl, rfl⟩ := Prod.mk.inj hxy
      have hz : (-e).toNat = 0 := by omega
      rw [hz, Nat.pow_zero, Nat.mul_one] at hq
      rw [hq]
      exact divNearest_mul q (Nat.mul_pos (Nat.two_pow_pos v) (Nat.two_pow_pos _))
    · rename_i h0
      obtain ⟨rfl, rfl⟩ := Prod.mk.inj hxy
      have hz : e.toNat = 0 := by omega
      rw [hz, Nat.pow_zero, Nat.mul_one] at hq
      change divNearest (m * 2 ^ u * 2 ^ (-e).toNat) (2 ^ v) = q
      rw [hq]
      exact divNearest_mul q (Nat.two_pow_pos v)
  unfold roundRatio
  rw [if_neg hpos, floorLog2_dyadic hm, ← he]
  dsimp only
  rw [hround (scaleRatio (m * 2 ^ u) (2 ^ v) e).1 (scaleRatio (m * 2 ^ u) (2 ^ v) e).2 rfl]
  rfl

end

theorem encodeDatum_finite (f : BinaryFormat) (n : Bool) (m : Nat) (e : Int) :
    encodeDatum f (.finite n m e) = withSign f n (roundRatio f (m * 2 ^ e.toNat) (2 ^ (-e).toNat)) := by
  rw [encodeDatum]
  by_cases h : 0 ≤ e
  · have hz : (-e).toNat = 0 := by omega
    rw [if_pos h, hz]
    rfl
  · have hz : e.toNat = 0 := by omega
    rw [if_neg h, hz, Nat.pow_zero, Nat.mul_one]
    rfl

/-- What a pattern other than a NaN stands for, and how the pattern is made of it. -/
inductive Reading (f : BinaryFormat) : Nat → Datum → Prop
  | infinite (n : Bool) : Reading f (withSign f n f.infinityBits) (.infinite n)
  | small (n : Bool) {m : Nat} : m < 2 ^ f.fractionBits → Reading f (withSign f n m) (.finite n m f.minExponent)
  | large (n : Bool) {m k : Nat} : 2 ^ f.fractionBits ≤ m → m < 2 ^ (f.fractionBits + 1) → k + 2 < 2 ^ f.exponentBits →
      Reading f (withSign f n ((k + 1) * 2 ^ f.fractionBits + (m - 2 ^ f.fractionBits)))
        (.finite n m (f.minExponent + k))

theorem reading_single {bits : Nat} (h : bits < 2 ^ 32) (hn : (decodeBits .single bits).isNaN = false) :
    Reading .single bits (decodeBits .single bits) := by
  have hsign : bits = withSign .single (decide (bits / 2 ^ 31 % 2 = 1)) (bits % 2 ^ 31) := by
    change bits = if decide (bits / 2 ^ 31 % 2 = 1) then 2 ^ 31 + bits % 2 ^ 31 else bits % 2 ^ 31
    split <;> rename_i hs <;> simp only [decide_eq_true_eq] at hs <;> omega
  generalize hneg : decide (bits / 2 ^ 31 % 2 = 1) = n at hsign
  have hd : decodeBits .single bits =
      if bits / 2 ^ 23 % 2 ^ 8 = 255 then if bits % 2 ^ 23 = 0 then .infinite n else .nan n (bits % 2 ^ 23)
      else if bits / 2 ^ 23 % 2 ^ 8 = 0 then .finite n (bits % 2 ^ 23) (-149)
      else .finite n (2 ^ 23 + bits % 2 ^ 23) (-149 + ((bits / 2 ^ 23 % 2 ^ 8 : Nat) : Int) - 1) := by
    rw [← hneg]
    rfl
  rw [hd] at hn ⊢
  by_cases htop : bits / 2 ^ 23 % 2 ^ 8 = 255
  · rw [if_pos htop] at hn ⊢
    by_cases hfrac : bits % 2 ^ 23 = 0
    · rw [if_pos hfrac]
      have hmag : bits % 2 ^ 31 = BinaryFormat.single.infinityBits := by
        change _ = 255 * 2 ^ 23
        omega
      rw [hsign, hmag]
      exact .infinite n
    · rw [if_neg hfrac] at hn
      cases hn
  · rw [if_neg htop]
    by_cases hzero : bits / 2 ^ 23 % 2 ^ 8 = 0
    · rw [if_pos hzero]
      have hmag : bits % 2 ^ 31 = bits % 2 ^ 23 := by omega
      have hm : bits % 2 ^ 23 < 2 ^ 23 := by omega
      rw [hmag] at hsign
      generalize bits % 2 ^ 23 = m at *
      rw [hsign]
      exact .small (f := .single) n hm
    · rw [if_neg hzero]
      obtain ⟨k, hk⟩ : ∃ k, bits / 2 ^ 23 % 2 ^ 8 = k + 1 := ⟨_, (Nat.succ_pred hzero).symm⟩
      have hmag : bits % 2 ^ 31 = (k + 1) * 2 ^ 23 + (2 ^ 23 + bits % 2 ^ 23 - 2 ^ 23) := by omega
      have hm : bits % 2 ^ 23 < 2 ^ 23 := by omega
      have hk' : k + 2 < 2 ^ 8 := by omega
      have he : -149 + ((k + 1 : Nat) : Int) - 1 = BinaryFormat.single.minExponent + k := by
        change -149 + ((k + 1 : Nat) : Int) - 1 = -149 + k
        omega
      rw [hmag] at hsign
      rw [hk, he]
      generalize bits % 2 ^ 23 = m at *
      rw [hsign]
      exact .large (f := .single) n (Nat.le_add_right _ _) (by change 2 ^ 23 + m < 2 ^ 24; omega) hk'

theorem decode_double {bits : Nat} {d : Datum} (h : Reading .double bits d) :
    bits < 2 ^ 64 ∧ decodeBits .double bits = d := by
  have hd : ∀ n mag, mag < 2 ^ 63 → withSign .double n mag < 2 ^ 64 ∧ decodeBits .double (withSign .double n mag) =
      if mag / 2 ^ 52 = 2047 then if mag % 2 ^ 52 = 0 then .infinite n else .nan n (mag % 2 ^ 52)
      else if mag / 2 ^ 52 = 0 then .finite n (mag % 2 ^ 52) (-1074)
      else .finite n (2 ^ 52 + mag % 2 ^ 52) (-1074 + ((mag / 2 ^ 52 : Nat) : Int) - 1) := by
    intro n mag hmag
    have hw : withSign .double n mag = if n then 2 ^ 63 + mag else mag := rfl
    have hdec : ∀ b, decodeBits .double b =
        if b / 2 ^ 52 % 2 ^ 11 = 2047 then
          if b % 2 ^ 52 = 0 then .infinite (decide (b / 2 ^ 63 % 2 = 1)) else .nan
            (decide (b / 2 ^ 63 % 2 = 1)) (b % 2 ^ 52)
        else if b / 2 ^ 52 % 2 ^ 11 = 0 then .finite (decide (b / 2 ^ 63 % 2 = 1)) (b % 2 ^ 52) (-1074)
        else .finite (decide (b / 2 ^ 63 % 2 = 1)) (2 ^ 52 + b % 2 ^ 52)
          (-1074 + ((b / 2 ^ 52 % 2 ^ 11 : Nat) : Int) - 1) :=
      fun _ ↦ rfl
    have hs : (if n then 2 ^ 63 + mag else mag) / 2 ^ 63 % 2 = if n then 1 else 0 := by split <;> omega
    have he : (if n then 2 ^ 63 + mag else mag) / 2 ^ 52 % 2 ^ 11 = mag / 2 ^ 52 := by split <;> omega
    have hf : (if n then 2 ^ 63 + mag else mag) % 2 ^ 52 = mag % 2 ^ 52 := by split <;> omega
    have hn : decide ((if n then 1 else 0) = 1) = n := by cases n <;> rfl
    refine ⟨by rw [hw]; split <;> omega, ?_⟩
    rw [hw, hdec, hs, he, hf, hn]
  cases h with
  | infinite n =>
    have hmag : BinaryFormat.double.infinityBits = 2047 * 2 ^ 52 := rfl
    obtain ⟨hlt, h⟩ := hd n (2047 * 2 ^ 52) (by omega)
    rw [hmag]
    refine ⟨hlt, ?_⟩
    rw [h, if_pos (by omega), if_pos (by omega)]
  | small n hm =>
    rename_i m
    change m < 2 ^ 52 at hm
    obtain ⟨hlt, h⟩ := hd n m (by omega)
    refine ⟨hlt, ?_⟩
    rw [h, if_neg (by omega), if_pos (by omega), Nat.mod_eq_of_lt hm]
    rfl
  | large n hle hm hk =>
    rename_i m k
    change 2 ^ 52 ≤ m at hle
    change m < 2 ^ 53 at hm
    change k + 2 < 2048 at hk
    have hq : ((k + 1) * 2 ^ 52 + (m - 2 ^ 52)) / 2 ^ 52 = k + 1 := by omega
    have hr : ((k + 1) * 2 ^ 52 + (m - 2 ^ 52)) % 2 ^ 52 = m - 2 ^ 52 := by omega
    obtain ⟨hlt, h⟩ := hd n ((k + 1) * 2 ^ 52 + (m - 2 ^ 52)) (by omega)
    refine ⟨hlt, ?_⟩
    change decodeBits .double (withSign .double n ((k + 1) * 2 ^ 52 + (m - 2 ^ 52))) = _
    rw [h, hq, hr, if_neg (by omega), if_neg (by omega), Nat.add_sub_cancel' hle]
    have he : -1074 + ((k + 1 : Nat) : Int) - 1 = BinaryFormat.double.minExponent + k := by
      change -1074 + ((k + 1 : Nat) : Int) - 1 = -1074 + k
      omega
    rw [he]

theorem encode_double (n : Bool) {m k : Nat} (hm : 0 < m) (hlt : m < 2 ^ 24) (hk : k ≤ 253) :
    Reading .double (encodeDatum .double (.finite n m (BinaryFormat.single.minExponent + k)))
      (.finite n (m * 2 ^ (52 - m.log2)) (m.log2 + k - 201)) := by
  obtain ⟨hlo, hhi⟩ := (Nat.log2_eq_iff (Nat.ne_of_gt hm)).mp rfl
  have hlog : m.log2 < 24 := (Nat.log2_lt (Nat.ne_of_gt hm)).mpr hlt
  have hlo' : 2 ^ 52 ≤ m * 2 ^ (52 - m.log2) := by
    have := Nat.mul_le_mul_right (2 ^ (52 - m.log2)) hlo
    rwa [← Nat.pow_add, Nat.add_sub_cancel' (by omega)] at this
  have hhi' : m * 2 ^ (52 - m.log2) < 2 ^ 53 := by
    have := Nat.mul_lt_mul_of_pos_right hhi (Nat.two_pow_pos (52 - m.log2))
    rwa [← Nat.pow_add, show m.log2 + 1 + (52 - m.log2) = 53 by omega] at this
  have he : (m.log2 : Int) + k - 201 = BinaryFormat.double.minExponent + (m.log2 + k + 873 : Nat) := by
    change (m.log2 : Int) + k - 201 = -1074 + (m.log2 + k + 873 : Nat)
    omega
  have hround := roundRatio_exact hm .double (u := (-149 + k : Int).toNat) (v := (-(-149 + k : Int)).toNat)
    (q := m * 2 ^ (52 - m.log2)) (e := m.log2 + k - 201)
    (by change _ = max (_ - (52 : Int)) (-1074); omega)
    (by
      rw [Nat.mul_assoc, Nat.mul_assoc, ← Nat.pow_add, ← Nat.pow_add, ← Nat.pow_add]
      congr 2
      omega)
  have hplace : ((m.log2 + k - 201 : Int) - BinaryFormat.double.minExponent).toNat = m.log2 + k + 873 := by
    change ((m.log2 + k - 201 : Int) - (-1074)).toNat = _
    omega
  have hinf : BinaryFormat.double.infinityBits = 2047 * 2 ^ 52 := rfl
  rw [hplace, if_neg (by change ¬ _ < 2 ^ 52; omega), hinf,
    Nat.min_eq_left (by change _ * 2 ^ 52 + (_ - 2 ^ 52) ≤ _; omega)] at hround
  have henc := encodeDatum_finite .double n m (BinaryFormat.single.minExponent + k)
  change _ = withSign .double n
    (roundRatio .double (m * 2 ^ (-149 + k : Int).toNat) (2 ^ (-(-149 + k : Int)).toNat)) at henc
  rw [henc, hround, he]
  exact .large (f := .double) n hlo' hhi' (by change _ + 2 < 2048; omega)

theorem encode_single (n : Bool) {m k : Nat} (hm : 0 < m) (hlt : m < 2 ^ 24) (hk : k ≤ 253)
    (hplace : 2 ^ 23 ≤ m ∨ k = 0) :
    encodeDatum .single (.finite n (m * 2 ^ (52 - m.log2)) (m.log2 + k - 201)) =
      withSign .single n (if m < 2 ^ 23 then m else (k + 1) * 2 ^ 23 + (m - 2 ^ 23)) := by
  have hlog : m.log2 < 24 := (Nat.log2_lt (Nat.ne_of_gt hm)).mpr hlt
  have hfull : 2 ^ 23 ≤ m → 23 ≤ m.log2 := fun h ↦ (Nat.le_log2 (Nat.ne_of_gt hm)).mpr h
  have hwide : (m * 2 ^ (52 - m.log2)).log2 = 52 := by
    rw [log2_mul_pow hm]
    omega
  have hround := roundRatio_exact (Nat.mul_pos hm (Nat.two_pow_pos (52 - m.log2))) .single
    (u := (m.log2 + k - 201 : Int).toNat) (v := (-(m.log2 + k - 201 : Int)).toNat) (q := m) (e := -149 + k)
    (by
      rw [hwide]
      change _ = max (_ - (23 : Int)) (-149)
      omega)
    (by
      rw [Nat.mul_assoc, Nat.mul_assoc, ← Nat.pow_add, ← Nat.pow_add, ← Nat.pow_add]
      congr 2
      omega)
  have hk' : ((-149 + k : Int) - BinaryFormat.single.minExponent).toNat = k := by
    change ((-149 + k : Int) - (-149)).toNat = k
    omega
  have hinf : BinaryFormat.single.infinityBits = 255 * 2 ^ 23 := rfl
  rw [hk', hinf, Nat.min_eq_left (by
    change (if m < 2 ^ 23 then m else (k + 1) * 2 ^ 23 + (m - 2 ^ 23)) ≤ _
    split <;> omega)] at hround
  rw [encodeDatum_finite, hround]
  rfl

/-- A single-precision pattern that is not a NaN comes back from its double. -/
theorem narrow_widen {bits : UInt32} (h : (decodeBits .single bits.toNat).isNaN = false) :
    narrow (widen bits) = bits := by
  have hread := reading_single bits.toNat_lt h
  -- what the double stands for, and what of it single precision keeps
  have key : ∀ {d d'}, convertBits .single .double bits.toNat = encodeDatum .double d →
      Reading .double (encodeDatum .double d) d' → d'.isNaN = false → encodeDatum .single d' = bits.toNat →
      narrow (widen bits) = bits := by
    intro d d' hc hr hn he
    obtain ⟨hlt, hd⟩ := decode_double hr
    have hwide : (widen bits).toNat = encodeDatum .double d := by
      unfold widen
      rw [hc, UInt64.toNat_ofNat', Nat.mod_eq_of_lt hlt]
    have hback : convertBits .double .single (widen bits).toNat = bits.toNat := by
      unfold convertBits
      rw [hwide, hd]
      cases d' with
      | nan n p => cases hn
      | infinite n => exact he
      | finite n m e => exact he
    unfold narrow
    rw [hback, UInt32.ofNat_toNat]
  generalize hd : decodeBits .single bits.toNat = d at hread h
  have hc : convertBits .single .double bits.toNat = encodeDatum .double d := by
    unfold convertBits
    rw [hd]
    cases d with
    | nan n p => cases h
    | infinite n => rfl
    | finite n m e => rfl
  generalize hb : bits.toNat = b at hread
  cases hread with
  | infinite n => exact key hc (.infinite n) rfl hb.symm
  | small n hm =>
    rename_i m
    change m < 2 ^ 23 at hm
    rcases Nat.eq_zero_or_pos m with rfl | hpos
    · have hz : encodeDatum .double (.finite n 0 BinaryFormat.single.minExponent) = withSign .double n 0 := by
        rw [encodeDatum_finite]
        rfl
      have hzero : Reading .double (encodeDatum .double (.finite n 0 BinaryFormat.single.minExponent))
          (.finite n 0 BinaryFormat.double.minExponent) := by
        rw [hz]
        exact .small n (Nat.two_pow_pos _)
      refine key hc hzero rfl ?_
      rw [hb, encodeDatum_finite]
      rfl
    · have hread := encode_double n hpos (by omega) (Nat.zero_le 253)
      rw [Int.natCast_zero, Int.add_zero] at hread
      refine key hc hread rfl ?_
      have := encode_single n hpos (by omega) (Nat.zero_le 253) (.inr rfl)
      rw [if_pos hm] at this
      rw [hb]
      exact this
  | large n hle hm hk =>
    rename_i m k
    change 2 ^ 23 ≤ m at hle
    change m < 2 ^ 24 at hm
    change k + 2 < 256 at hk
    refine key hc (encode_double n (by omega) hm (by omega)) rfl ?_
    have := encode_single n (k := k) (by omega) hm (by omega) (.inl hle)
    rw [if_neg (by omega)] at this
    rw [hb]
    exact this

end CilSsa.Number

/-!
Assembling and then decoding. The decoder reads the chunk of every call as one instruction, with the operand that the
call was given.
-/

namespace CilSsa.Bytecode

open CilSsa.Metadata CilSsa.Number CilSsa.Text

/-- The calls that emit something, each with the length of the code before it. -/
def emissions (a : Assembler) : List Call → List (Nat × Call)
  | [] => []
  | c :: cs => if c.code?.isSome then (a.size, c) :: emissions (c.run a) cs else emissions (c.run a) cs

/-- An operand is what a call was given for it. A byte is read as the kind of operand says, and of a single-precision
number only a NaN may change. -/
def Call.Gives (calls : List Call) (kind : OperandKind) (operand : Operand) : Call → Prop
  | .plain _ => operand = .none
  | .int8 _ v => operand = .int (if kind = .int8 then v.toInt else v.toUInt8.toNat)
  | .uint8 _ v => operand = .int (if kind = .int8 then v.toInt8.toInt else v.toNat)
  | .uint16 _ v => operand = .int v.toNat
  | .int32 _ v => operand = .int v.toInt
  | .int64 _ v => operand = .int v.toInt
  | .float32 _ bits => operand = .float (widen bits) ∧
      ((decodeBits .single bits.toNat).isNaN = false → narrow (widen bits) = bits)
  | .float64 _ bits => operand = .float bits
  | .token _ t => operand = .token t
  | .branch _ l => ∃ t : Nat, MarkedAt calls l t ∧ operand = .targets [(t : Int)]
  | .switch ls => ∃ ts : List Nat, List.Forall₂ (MarkedAt calls) ls ts ∧ operand = .targets (ts.map Int.ofNat)
  | .mark _ => False

/-- An instruction is what a call emitted at an offset. -/
structure Instruction.Renders (calls : List Call) (emission : Nat × Call) (i : Instruction) : Prop where
  offset : i.offset = emission.1
  code : emission.2.code? = some i.op.code
  operand : emission.2.Gives calls i.op.operandKind i.operand

section decoding

theorem code_of_ofCode {code : UInt16} {op : Opcode} (h : Opcode.ofCode? code = some op) : op.code = code := by
  simpa using List.find?_some h

theorem code_range (op : Opcode) : op.code < 0xFE ∨ 0xFE00 ≤ op.code ∧ op.code ≤ 0xFEFF := by
  cases op <;> decide

theorem decodeCode_codeBytes (op : Opcode) (bs : Bytes) : ∃ b tail, codeBytes op.code = b :: tail ∧
    decodeCode b (tail ++ bs) = .ok (op.code, (codeBytes op.code).length) := by
  rcases code_range op with h | ⟨h, h'⟩
  · rw [UInt16.lt_iff_toNat_lt] at h
    change op.code.toNat < 254 at h
    have hone : isTwoByte op.code = false := by
      simp only [isTwoByte, decide_eq_false_iff_not, UInt16.not_lt, UInt16.le_iff_toNat_le]
      exact Nat.le_of_lt (Nat.lt_trans h (by decide))
    have hbyte : op.code.toNat.toUInt8.toNat = op.code.toNat := by
      simp only [Nat.toUInt8, UInt8.toNat_ofNat', Nat.reducePow]
      omega
    have hlead : op.code.toNat.toUInt8 ≠ leadByte := by
      intro heq
      rw [heq] at hbyte
      exact absurd hbyte.symm (Nat.ne_of_lt h)
    refine ⟨op.code.toNat.toUInt8, [], by simp [codeBytes, hone], ?_⟩
    unfold decodeCode
    rw [if_neg hlead, hbyte]
    simp [codeBytes, hone, Nat.toUInt16]
  · rw [UInt16.le_iff_toNat_le] at h h'
    change 65024 ≤ op.code.toNat at h
    change op.code.toNat ≤ 65279 at h'
    have htwo : isTwoByte op.code = true := by
      simp only [isTwoByte, decide_eq_true_eq, UInt16.lt_iff_toNat_lt]
      exact Nat.lt_of_lt_of_le (by decide) h
    have hcode : (0xFE00 + op.code.toNat.toUInt8.toNat).toUInt16 = op.code := by
      apply UInt16.toNat_inj.mp
      simp only [Nat.toUInt8, UInt8.toNat_ofNat', Nat.reducePow, Nat.toUInt16, UInt16.toNat_ofNat']
      omega
    refine ⟨leadByte, [op.code.toNat.toUInt8], by simp [codeBytes, htwo], ?_⟩
    change Except.ok ((0xFE00 + op.code.toNat.toUInt8.toNat).toUInt16, 2) = _
    rw [hcode]
    simp [codeBytes, htwo]

theorem decodeFrom_code {code : UInt16} {op : Opcode} (hop : Opcode.ofCode? code = some op) {o n : Nat} {bs : Bytes}
    {operand : Operand} (hd : decodeOperand op.operandKind (o + (codeBytes code).length) bs = .ok (operand, n)) :
    decodeFrom o (codeBytes code ++ bs) = (⟨o, op, (codeBytes code).length + n, operand⟩ ::
      (decodeFrom (o + (codeBytes code).length + n) (bs.drop n)).1,
        (decodeFrom (o + (codeBytes code).length + n) (bs.drop n)).2) := by
  obtain rfl := code_of_ofCode hop
  obtain ⟨b, tail, hbytes, hcode⟩ := decodeCode_codeBytes op bs
  have hlen : (codeBytes op.code).length = tail.length + 1 := by rw [hbytes, List.length_cons]
  have hdrop : ∀ k, (tail ++ bs).drop (tail.length + 1 + k - 1) = bs.drop k := fun k ↦ by
    rw [Nat.add_right_comm, Nat.add_sub_cancel, List.drop_length_add_append]
  have hone : decodeOne o b (tail ++ bs) = .ok ⟨o, op, (codeBytes op.code).length + n, operand⟩ := by
    unfold decodeOne
    have hrest : (tail ++ bs).drop ((codeBytes op.code).length - 1) = bs := by simp [hlen]
    simp [hcode, hop, hrest, hd, bind, Except.bind, pure, Except.pure, Except.mapError]
  rw [hlen] at hone ⊢
  rw [hbytes, List.cons_append, decodeFrom, hone]
  simp only [hdrop]
  rw [Nat.add_assoc o]

variable {calls : List Call}

theorem takeBytes_append {n : Nat} {bs : Bytes} (h : bs.length = n) (rest : Bytes) :
    takeBytes n (bs ++ rest) = .ok bs := by
  subst h
  simp [takeBytes]

theorem signedOf_toNat {w : Nat} (hw : 0 < w) (x : BitVec w) : signedOf w x.toNat = x.toInt := by
  obtain ⟨w, rfl⟩ := Nat.exists_eq_succ_of_ne_zero hw.ne'
  rw [BitVec.toInt_eq_toNat_cond, signedOf]
  simp only [Nat.pow_eq, Nat.succ_eq_add_one, Nat.add_sub_cancel, Nat.pow_succ, Nat.cast_mul,
    Nat.cast_pow, Nat.cast_ofNat]
  split <;> split <;> omega

def OperandKind.reading (pos n : Nat) : OperandKind → Operand
  | .none | .table => .none
  | .int8 => .int (signedOf 8 n)
  | .uint8 | .uint16 => .int n
  | .int32 => .int (signedOf 32 n)
  | .int64 => .int (signedOf 64 n)
  | .float32 => .float (widen n.toUInt32)
  | .float64 => .float n.toUInt64
  | .token => .token ⟨n.toUInt32⟩
  | .branch8 => .targets [(pos + 1 : Nat) + signedOf 8 n]
  | .branch32 => .targets [(pos + 4 : Nat) + signedOf 32 n]

theorem decodeOperand_mod (kind : OperandKind) (hk : kind ≠ .table) (n pos : Nat) (rest : Bytes) :
    decodeOperand kind pos (littleEndian kind.size n ++ rest) =
      .ok (kind.reading pos (n % 256 ^ kind.size), kind.size) := by
  unfold decodeOperand
  rw [takeBytes_append (littleEndian_length _ _)]
  simp only [bind, Except.bind, ofLittleEndian_littleEndian]
  cases kind <;> first | rfl | exact absurd rfl hk

theorem decodeOperand_fixed (kind : OperandKind) (hk : kind ≠ .table) {n : Nat} (hn : n < 256 ^ kind.size) (pos : Nat)
    (rest : Bytes) :
    decodeOperand kind pos (littleEndian kind.size n ++ rest) = .ok (kind.reading pos n, kind.size) := by
  rw [decodeOperand_mod kind hk, Nat.mod_eq_of_lt hn]

theorem decode_immediate (calls : List Call) {c : Call} (himm : c.isImmediate = true) {kind : OperandKind}
    (hk : kind ∈ c.kinds) (pos : Nat) (rest : Bytes) : ∃ operand, decodeOperand kind pos (c.immediate ++ rest) =
    .ok (operand, c.immediate.length) ∧
      c.Gives calls kind operand := by
  cases c with
  | plain code =>
    obtain rfl := List.mem_singleton.mp hk
    exact ⟨.none, decodeOperand_fixed .none (by decide) (n := 0) (by decide) pos rest, rfl⟩
  | int8 code v =>
    rcases List.mem_pair.mp hk with rfl | rfl
    · refine ⟨_, decodeOperand_fixed .int8 (by decide) v.toUInt8.toNat_lt pos rest, ?_⟩
      exact congrArg Operand.int (signedOf_toNat (by decide) v.toBitVec)
    · exact ⟨_, decodeOperand_fixed .uint8 (by decide) v.toUInt8.toNat_lt pos rest, rfl⟩
  | uint8 code v =>
    rcases List.mem_pair.mp hk with rfl | rfl
    · refine ⟨_, decodeOperand_fixed .int8 (by decide) v.toNat_lt pos rest, ?_⟩
      exact congrArg Operand.int (signedOf_toNat (by decide) v.toBitVec)
    · exact ⟨_, decodeOperand_fixed .uint8 (by decide) v.toNat_lt pos rest, rfl⟩
  | uint16 code v =>
    obtain rfl := List.mem_singleton.mp hk
    exact ⟨_, decodeOperand_fixed .uint16 (by decide) v.toNat_lt pos rest, rfl⟩
  | int32 code v =>
    obtain rfl := List.mem_singleton.mp hk
    refine ⟨_, decodeOperand_fixed .int32 (by decide) v.toUInt32.toNat_lt pos rest, ?_⟩
    exact congrArg Operand.int (signedOf_toNat (by decide) v.toBitVec)
  | int64 code v =>
    obtain rfl := List.mem_singleton.mp hk
    refine ⟨_, decodeOperand_fixed .int64 (by decide) v.toUInt64.toNat_lt pos rest, ?_⟩
    exact congrArg Operand.int (signedOf_toNat (by decide) v.toBitVec)
  | float32 code bits =>
    obtain rfl := List.mem_singleton.mp hk
    refine ⟨_, decodeOperand_fixed .float32 (by decide) bits.toNat_lt pos rest, ?_, narrow_widen⟩
    exact congrArg (fun bits ↦ Operand.float (widen bits)) UInt32.ofNat_toNat
  | float64 code bits =>
    obtain rfl := List.mem_singleton.mp hk
    refine ⟨_, decodeOperand_fixed .float64 (by decide) bits.toNat_lt pos rest, ?_⟩
    exact congrArg Operand.float UInt64.ofNat_toNat
  | token code t =>
    obtain rfl := List.mem_singleton.mp hk
    refine ⟨_, decodeOperand_fixed .token (by decide) t.raw.toNat_lt pos rest, ?_⟩
    exact congrArg (fun raw ↦ Operand.token ⟨raw⟩) UInt32.ofNat_toNat
  | branch => cases himm
  | switch => cases himm
  | mark => cases himm

theorem signedOf_distance {d : Int} : (-128 ≤ d ∧ d ≤ 127 → signedOf 8 ((wordOfInt d).toNat % 256 ^ 1) = d) ∧
    (-2147483648 ≤ d ∧ d ≤ 2147483647 → signedOf 32 ((wordOfInt d).toNat % 256 ^ 4) = d) := by
  have hword : (wordOfInt d).toNat = (d % 18446744073709551616).toNat := by
    rw [wordOfInt, UInt64.toNat_ofNat']
    omega
  rw [hword]
  constructor <;> rintro ⟨hlo, hhi⟩ <;> unfold signedOf <;> split <;> simp only [Nat.pow_eq] at * <;> omega

theorem decode_branch {labels : List (String × Nat)} {kind : OperandKind}
    (hk : kind ∈ [OperandKind.branch8, .branch32]) {pos : Nat} {l : String} {bs : Bytes}
    (hw : Writes labels kind (pos + kind.size) l bs) (rest : Bytes) :
    ∃ t : Nat, labels.lookup l = some t ∧
      decodeOperand kind pos (bs ++ rest) = .ok (.targets [(t : Int)], bs.length) := by
  obtain ⟨t, hl, hs, rfl⟩ := hw
  refine ⟨t, hl, ?_⟩
  rcases List.mem_pair.mp hk with rfl | rfl
  · rw [decodeOperand_mod _ (by decide), littleEndian_length]
    exact congrArg (fun target ↦ Except.ok (Operand.targets [target], 1))
      ((congrArg _ (signedOf_distance.1 hs)).trans (add_sub_cancel ..))
  · rw [decodeOperand_mod _ (by decide), littleEndian_length]
    exact congrArg (fun target ↦ Except.ok (Operand.targets [target], 4))
      ((congrArg _ (signedOf_distance.2 hs)).trans (add_sub_cancel ..))

theorem tableTargets_entries {labels : List (String × Nat)} {next : Nat} {ls : List String} {entries : List Bytes}
    (h : List.Forall₂ (Writes labels .table next) ls entries) (rest : Bytes) :
    ∃ ts : List Nat, List.Forall₂ (fun l t ↦ labels.lookup l = some t) ls ts ∧
      tableTargets next ls.length (entries.flatten ++ rest) = ts.map Int.ofNat := by
  induction h with
  | nil => exact ⟨[], .nil, rfl⟩
  | cons hw _ ih =>
    obtain ⟨t, hl, hs, rfl⟩ := hw
    obtain ⟨ts, hts, heq⟩ := ih
    refine ⟨t :: ts, .cons hl hts, ?_⟩
    have hlen := littleEndian_length 4 (wordOfInt ((t : Int) - next)).toNat
    rw [List.flatten_cons, List.append_assoc, List.length_cons, tableTargets, OperandKind.size, List.take_left' hlen,
      List.drop_left' hlen, heq, ofLittleEndian_littleEndian,
      signedOf_distance.2 (by simpa [OperandKind.Spans] using hs)]
    simp

theorem decode_switch {labels : List (String × Nat)} (pos : Nat) {ls : List String} {entries : List Bytes}
    (hlen : ls.length < 2 ^ 32) (h : List.Forall₂ (Writes labels .table (pos + 4 + 4 * ls.length)) ls entries)
    (rest : Bytes) : ∃ ts : List Nat, List.Forall₂ (fun l t ↦ labels.lookup l = some t) ls ts ∧
      decodeOperand .table pos (littleEndian 4 ls.length ++ entries.flatten ++ rest) =
        .ok (.targets (ts.map Int.ofNat), (littleEndian 4 ls.length ++ entries.flatten).length) := by
  obtain ⟨ts, hts, heq⟩ := tableTargets_entries h rest
  refine ⟨ts, hts, ?_⟩
  have hcount : ofLittleEndian (littleEndian 4 ls.length) = ls.length := by
    rw [ofLittleEndian_littleEndian]
    exact Nat.mod_eq_of_lt hlen
  have hfour := littleEndian_length 4 ls.length
  have hfits : ¬ (littleEndian 4 ls.length ++ (entries.flatten ++ rest)).length - 4 < ls.length * 4 := by
    rw [List.length_append, List.length_append, hfour, length_entries h]
    omega
  rw [List.append_assoc]
  unfold decodeOperand
  rw [OperandKind.size, takeBytes_append hfour]
  simp only [bind, Except.bind, hcount, if_neg hfits, pure, Except.pure, List.drop_left' hfour]
  rw [Nat.mul_comm, heq, List.length_append, hfour, length_entries h]

theorem decode_chunk {labels : List (String × Nat)} (hlabels : ∀ l t, labels.lookup l = some t → MarkedAt calls l t)
    {o : Nat} {c : Call} {b : Bytes} {code : UInt16} (hb : Chunk labels o c b) (hcode : c.code? = some code)
    (hswitch : ∀ ls, c = .switch ls → ls.length < 2 ^ 32) (rest : Bytes) :
    ∃ i, decodeFrom o (b ++ rest) =
        (i :: (decodeFrom (o + b.length) rest).1, (decodeFrom (o + b.length) rest).2) ∧ i.Renders calls (o, c) := by
  have hread : ∀ {code op bs operand}, Opcode.ofCode? code = some op →
      decodeOperand op.operandKind (o + (codeBytes code).length) (bs ++ rest) = .ok (operand, bs.length) →
      decodeFrom o (codeBytes code ++ bs ++ rest) =
        (⟨o, op, (codeBytes code).length + bs.length, operand⟩ ::
        (decodeFrom (o + (codeBytes code ++ bs).length) rest).1,
          (decodeFrom (o + (codeBytes code ++ bs).length) rest).2) := by
    intro code op bs operand hop hd
    rw [List.append_assoc, decodeFrom_code hop hd, List.drop_left, List.length_append, Nat.add_assoc]
  cases hb with
  | immediate himm hcode' hop hk =>
    obtain ⟨operand, hd, hgives⟩ := decode_immediate calls himm hk _ rest
    refine ⟨_, hread hop hd, rfl, ?_, hgives⟩
    rw [code_of_ofCode hop, hcode']
  | branch hop hk hw =>
    obtain ⟨t, hl, hd⟩ := decode_branch hk hw rest
    refine ⟨_, hread hop hd, rfl, ?_, t, hlabels _ t hl, rfl⟩
    rw [code_of_ofCode hop, Call.code?]
  | switch hws =>
    rename_i ls entries
    obtain ⟨ts, hts, hd⟩ := decode_switch (o + (codeBytes Opcode.switch.code).length) (hswitch ls rfl)
      (by rw [codeBytes_switch_length]; exact hws) rest
    refine ⟨_, by rw [List.append_assoc _ _ entries.flatten]; exact hread ofCode_switch hd, rfl, rfl, ts, ?_, rfl⟩
    exact hts.imp fun l t ↦ hlabels l t
  | mark l => cases hcode

theorem decode_chunks {labels : List (String × Nat)} (hlabels : ∀ l t, labels.lookup l = some t → MarkedAt calls l t)
    {o : Nat} {cs : List Call} {bs : Bytes} (h : Chunks labels o cs bs)
    (hswitch : ∀ ls, .switch ls ∈ cs → ls.length < 2 ^ 32) {a : Assembler} (ha : Inside a) (ho : a.size = o) :
    ∃ is, decodeFrom o bs = (is, none) ∧ List.Forall₂ (Instruction.Renders calls) (emissions a cs) is := by
  induction h generalizing a with
  | nil => exact ⟨[], by rw [decodeFrom], .nil⟩
  | cons hb _ ih =>
    rename_i o c cs b bs hbs
    subst ho
    obtain ⟨hin, hsize, -⟩ := fills labels ha hb.matches_
    obtain ⟨is, hd, hr⟩ := ih (fun ls hls ↦ hswitch ls (List.mem_cons_of_mem _ hls)) hin (hsize hb)
    cases hcode : c.code? with
    | none =>
      have hb' : b = [] := by
        cases hb with
        | immediate _ hc => rw [hc] at hcode; cases hcode
        | mark l => rfl
        | branch => cases hcode
        | switch => cases hcode
      subst hb'
      exact ⟨is, hd, by simpa [emissions, hcode] using hr⟩
    | some code =>
      obtain ⟨i, hi, hir⟩ := decode_chunk hlabels hb hcode
        (fun ls hls ↦ hswitch ls (by rw [hls]; exact List.mem_cons_self)) bs
      exact ⟨i :: is, by rw [hi, hd], by simpa [emissions, hcode] using ⟨hir, hr⟩⟩

end decoding

/-- Assembling gives bytes exactly when the calls fit together, and decoding the bytes gives back one instruction for
every call that emits, in order. The count of a jump table is a 32-bit word. -/
theorem decodeAll_assembled (calls : List Call) : ((∃ bs, (assembled calls).bytes = .ok bs) ↔ Fits calls) ∧
    ∀ bs, (assembled calls).bytes = .ok bs → (∀ ls, .switch ls ∈ calls → ls.length < 2 ^ 32) →
      ∃ is, decodeAll bs = (is, none) ∧ List.Forall₂ (Instruction.Renders calls) (emissions {} calls) is := by
  refine ⟨exists_bytes_iff calls, fun bs hbs hswitch ↦ ?_⟩
  obtain ⟨⟨-, hnd⟩, hchunks⟩ := (bytes_eq_iff calls bs).mp hbs
  exact decode_chunks (fun l t h ↦ (lookup_iff hnd).mp h) hchunks hswitch (a := {}) nofun rfl

/-- A loop with branches both ways, a jump table and operands of several kinds. -/
def sampleCalls : List Call :=
  [.mark "top", .int8 Opcode.ldcI4S.code (-3), .branch Opcode.brtrueS.code "end", .switch ["top", "end", "top"],
    .float32 Opcode.ldcR4.code 0x3FC00000, .plain Opcode.ceq.code, .branch Opcode.br.code "top", .mark "end",
    .plain Opcode.ret.code]

def sampleBytes : Bytes :=
  [0x1F, 0xFD, 0x2D, 0x1D, 0x45, 3, 0, 0, 0, 0xEB, 0xFF, 0xFF, 0xFF, 0x0C, 0, 0, 0, 0xEB, 0xFF, 0xFF, 0xFF, 0x22, 0, 0,
    0xC0, 0x3F, 0xFE, 0x01, 0x38, 0xDF, 0xFF, 0xFF, 0xFF, 0x2A]

theorem decodeAll_sampleCalls : (assembled sampleCalls).bytes = .ok sampleBytes ∧
    ∃ is, decodeAll sampleBytes = (is, none) ∧
      List.Forall₂ (Instruction.Renders sampleCalls) (emissions {} sampleCalls) is := by
  have hbytes : (assembled sampleCalls).bytes = .ok sampleBytes := rfl
  exact ⟨hbytes, (decodeAll_assembled sampleCalls).2 sampleBytes hbytes (by simp [sampleCalls])⟩

/-- A jump table in which every entry is the label at its end. -/
def jumpsOn (n : Nat) : List Call := [.switch (List.replicate n "l"), .mark "l"]

theorem jumpsOn_fits (n : Nat) : Fits (jumpsOn n) := by
  have hmarks : marks (jumpsOn n) = ["l"] := rfl
  have hrefs : ∀ c ∈ jumpsOn n, ∀ l ∈ c.refs, c = .switch (List.replicate n "l") ∧ l = "l" := by
    intro c hc l hl
    obtain rfl | rfl := List.mem_pair.mp hc
    · exact ⟨rfl, List.eq_of_mem_replicate hl⟩
    · cases hl
  refine ⟨fun c hc ↦ ?_, by simp [hmarks], fun c hc l hl ↦ ?_, fun before c after code op l t heq _ _ hl ht ↦ ?_⟩
  · obtain rfl | rfl := List.mem_pair.mp hc
    · exact (Call.matches_iff rfl).mpr ⟨.switch, by decide, List.mem_singleton.mpr rfl⟩
    · exact Call.matches_mark "l"
  · rw [(hrefs c hc l hl).2, hmarks]
    exact List.mem_singleton.mpr rfl
  · obtain ⟨rfl, rfl⟩ := hrefs c (heq ▸ by simp) l hl
    -- the label stands at the end of the table
    obtain ⟨before', after', heq', rfl⟩ := ht
    have hpair : before = [] ∧ before' = [.switch (List.replicate n "l")] := by
      constructor
      · rcases before with _ | ⟨b, _ | ⟨b', bs⟩⟩
        · rfl
        · simp [jumpsOn] at heq
        · simp [jumpsOn] at heq
      · rcases before' with _ | ⟨b, _ | ⟨b', bs⟩⟩
        · simp [jumpsOn] at heq'
        · simp only [jumpsOn, List.cons_append, List.nil_append, List.cons.injEq] at heq'
          rw [← heq'.1]
        · simp [jumpsOn] at heq'
    rw [hpair.1, hpair.2, List.nil_append, Int.sub_self]
    unfold OperandKind.Spans
    split <;> omega

theorem wide_table_undecoded : ∃ bs, (assembled (jumpsOn (2 ^ 32))).bytes = .ok bs ∧ ¬ ∃ is, decodeAll bs = (is, none) ∧
    List.Forall₂ (Instruction.Renders (jumpsOn (2 ^ 32))) (emissions {} (jumpsOn (2 ^ 32))) is := by
  suffices h : ∀ n, n ≠ 0 → n % 256 ^ 4 = 0 → ∃ bs, (assembled (jumpsOn n)).bytes = .ok bs ∧ ¬ ∃ is,
    decodeAll bs = (is, none) ∧
      List.Forall₂ (Instruction.Renders (jumpsOn n)) (emissions {} (jumpsOn n)) is from h _ (by decide) (by decide)
  intro n hn hcut
  obtain ⟨bs, hbs⟩ := (exists_bytes_iff _).mpr (jumpsOn_fits n)
  refine ⟨bs, hbs, ?_⟩
  rintro ⟨is, hd, hr⟩
  obtain ⟨-, hchunks⟩ := (bytes_eq_iff _ bs).mp hbs
  cases hchunks with
  | cons hswitch hrest =>
    cases hswitch with
    | immediate h => cases h
    | switch hws =>
      rename_i bs entries
      have hzero : littleEndian 4 (List.replicate n "l").length = littleEndian 4 0 := by
        rw [List.length_replicate, ← littleEndian_mod, hcut]
      have hnone : ∀ next, List.Forall₂ (Writes [] .table next) [] [] := fun _ ↦ .nil
      obtain ⟨ts, hts, hread⟩ := decode_switch (0 + (codeBytes Opcode.switch.code).length) (by decide) (hnone _)
        (entries.flatten ++ bs)
      cases hts
      rw [List.length_nil, ← hzero, List.flatten_nil, List.append_nil] at hread
      have hfirst := decodeFrom_code (o := 0) ofCode_switch hread
      rw [← List.append_assoc, ← List.append_assoc] at hfirst
      cases (congrArg Prod.fst (hfirst.symm.trans hd))
      cases hr with
      | cons hi _ =>
        obtain ⟨ts, hts, htargets⟩ := hi.operand
        obtain rfl : ts = [] := by simpa using htargets
        exact hn (by simpa using congrArg List.length (List.forall₂_nil_right_iff.mp hts))

end CilSsa.Bytecode

