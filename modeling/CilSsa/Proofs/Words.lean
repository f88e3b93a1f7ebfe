import Mathlib.Algebra.Order.Ring.Int
import CilSsa.Ssa.Eval

namespace CilSsa.Number

open CilSsa.Ssa

theorem toBitVec_signExtend (v : UInt64) : (signExtend v 32).toBitVec = (v.toBitVec.setWidth 32).signExtend 64 := by
  have h : (signExtend v 32).toBitVec = (v.toBitVec <<< 32).sshiftRight 32 := by simp [signExtend]
  rw [h]
  ext i hi
  simp only [BitVec.getElem_sshiftRight, BitVec.getElem_shiftLeft, BitVec.getElem_signExtend, BitVec.getElem_setWidth]
  by_cases h32 : i < 32
  · have : 32 + i < 64 := by omega
    have h' : ¬ 32 + i < 32 := by omega
    simp [h32, this, h', BitVec.getLsbD_eq_getElem hi]
  · have : ¬ 32 + i < 64 := by omega
    simp [h32, this, BitVec.msb_eq_getLsbD_last]

theorem toBitVec_zeroExtend (v : UInt64) : (zeroExtend v 32).toBitVec = (v.toBitVec.setWidth 32).setWidth 64 := by
  have h : (zeroExtend v 32).toBitVec = v.toBitVec &&& 0xffffffff#64 := by simp [zeroExtend]
  rw [h]
  apply BitVec.eq_of_toNat_eq
  have hand := Nat.and_two_pow_sub_one_eq_mod v.toNat 32
  have hlt : v.toNat % 2 ^ 32 < 2 ^ 64 := by omega
  rw [BitVec.toNat_and, BitVec.toNat_setWidth, BitVec.toNat_setWidth, UInt64.toNat_toBitVec, Nat.mod_eq_of_lt hlt]
  exact hand

def pattern (x : Int32) : UInt64 := x.toInt64.toUInt64

theorem toBitVec_pattern (x : Int32) : (pattern x).toBitVec = x.toBitVec.signExtend 64 := by
  simp [pattern]

@[simp] theorem setWidth_pattern (x : Int32) : (pattern x).toBitVec.setWidth 32 = x.toBitVec := by
  rw [toBitVec_pattern]
  apply BitVec.eq_of_getLsbD_eq
  intro i hi
  have h64 : i < 64 := by omega
  simp only [BitVec.getLsbD_setWidth, BitVec.getLsbD_signExtend, hi, h64, decide_true, Bool.true_and, if_true]

theorem signExtend_eq_pattern {v : UInt64} {x : Int32} (h : v.toBitVec.setWidth 32 = x.toBitVec) :
    signExtend v 32 = pattern x := by
  rw [← UInt64.toBitVec_inj, toBitVec_signExtend, toBitVec_pattern, h]

@[simp] theorem signExtend_pattern (x : Int32) : signExtend (pattern x) 32 = pattern x :=
  signExtend_eq_pattern (setWidth_pattern x)

theorem signExtend_add (x y : Int32) : signExtend (pattern x + pattern y) 32 = pattern (x + y) := by
  apply signExtend_eq_pattern
  simp [BitVec.setWidth_add]

theorem signExtend_sub (x y : Int32) : signExtend (pattern x - pattern y) 32 = pattern (x - y) := by
  apply signExtend_eq_pattern
  simp [BitVec.sub_eq_add_neg, BitVec.setWidth_add, BitVec.setWidth_neg_of_le]

theorem signExtend_mul (x y : Int32) : signExtend (pattern x * pattern y) 32 = pattern (x * y) := by
  apply signExtend_eq_pattern
  simp [BitVec.setWidth_mul]

theorem signExtend_wordOfInt (n : Int) : signExtend (wordOfInt n) 32 = pattern (Int32.ofInt n) := by
  apply signExtend_eq_pattern
  apply BitVec.eq_of_toInt_eq
  simp only [wordOfInt, UInt64.toBitVec_ofNat', BitVec.toInt_setWidth, BitVec.toNat_ofNat, Int32.toBitVec_ofInt,
    BitVec.toInt_ofInt, Int.bmod_def]
  omega

theorem isTrueBits_boolBits (b : Bool) : isTrueBits (boolBits b) = b := by
  cases b <;> decide

theorem intOfWord_of_lt {v : UInt64} (h : v.toNat < 2 ^ 63) : intOfWord v = v.toNat := by
  change v.toBitVec.toInt = _
  rw [BitVec.toInt_eq_toNat_of_lt]
  · rfl
  · rw [UInt64.toNat_toBitVec]
    omega

theorem intOfWord_pattern (x : Int32) : intOfWord (pattern x) = x.toInt := by
  simp [intOfWord, pattern]

theorem zeroExtend_pattern (x : Int32) : zeroExtend (pattern x) 32 = x.toUInt32.toUInt64 := by
  rw [← UInt64.toBitVec_inj, toBitVec_zeroExtend, setWidth_pattern]
  simp


def holds (p : Pred) (x y : Int32) : Bool :=
  match p with
  | .eq => x == y
  | .ne => x != y
  | .slt => x < y
  | .sle => x ≤ y
  | .sgt => y < x
  | .sge => y ≤ x
  | .ult => x.toUInt32 < y.toUInt32
  | .ule => x.toUInt32 ≤ y.toUInt32
  | .ugt => y.toUInt32 < x.toUInt32
  | .uge => y.toUInt32 ≤ x.toUInt32
  | _ => false

theorem toUInt64_inj {x y : Int32} : x.toUInt32.toUInt64 = y.toUInt32.toUInt64 ↔ x = y := by
  rw [UInt32.toUInt64_inj, ← UInt32.toBitVec_inj, ← Int32.toBitVec_inj]
  rfl

theorem intHolds_pattern (p : Pred) (x y : Int32) : intHolds p 32 (pattern x) (pattern y) = holds p x y := by
  simp only [intHolds, signExtend_pattern, intOfWord_pattern, zeroExtend_pattern]
  rw [Bool.eq_iff_iff]
  cases p <;> simp [holds, Int32.lt_iff_toInt_lt, Int32.le_iff_toInt_le, toUInt64_inj]

theorem littleEndian_length (k n : Nat) : (littleEndian k n).length = k := by
  induction k generalizing n with
  | zero => rfl
  | succ k ih => simp [littleEndian, ih]

theorem ofLittleEndian_littleEndian (k n : Nat) : ofLittleEndian (littleEndian k n) = n % 256 ^ k := by
  induction k generalizing n with
  | zero => simp [littleEndian, ofLittleEndian, Nat.mod_one]
  | succ k ih =>
    rw [littleEndian, ofLittleEndian, ih, Nat.pow_succ', Nat.mod_mul]
    rfl

theorem ofLittleEndian_word (v : UInt64) : (ofLittleEndian (littleEndian 8 v.toNat)).toUInt64 = v := by
  rw [ofLittleEndian_littleEndian, Nat.mod_eq_of_lt (by have := v.toNat_lt; omega)]
  exact UInt64.ofNat_toNat

theorem signExtend_ofLittleEndian (v : UInt64) :
    signExtend (ofLittleEndian (littleEndian 4 v.toNat)).toUInt64 32 = signExtend v 32 := by
  rw [← UInt64.toBitVec_inj, toBitVec_signExtend, toBitVec_signExtend, ofLittleEndian_littleEndian]
  congr 1
  apply BitVec.eq_of_toNat_eq
  simp

theorem littleEndian_mod (k n : Nat) : littleEndian k (n % 256 ^ k) = littleEndian k n := by
  induction k generalizing n with
  | zero => rfl
  | succ k ih =>
    have hbyte : (n % 256 ^ (k + 1)).toUInt8 = n.toUInt8 := by
      apply UInt8.toNat_inj.mp
      rw [Nat.pow_succ', Nat.mod_mul]
      simp [Nat.toUInt8]
    have hrest : n % 256 ^ (k + 1) / 256 = n / 256 % 256 ^ k := by
      rw [Nat.pow_succ', Nat.mod_mul]
      omega
    rw [littleEndian, littleEndian, hbyte, hrest, ih]

theorem ofLittleEndian_lt (bs : List UInt8) : ofLittleEndian bs < 256 ^ bs.length := by
  induction bs with
  | nil => exact Nat.one_pos
  | cons b bs ih =>
    have hb := b.toNat_lt
    rw [ofLittleEndian, List.length_cons, Nat.pow_succ]
    omega

theorem littleEndian_ofLittleEndian (bs : List UInt8) : littleEndian bs.length (ofLittleEndian bs) = bs := by
  induction bs with
  | nil => rfl
  | cons b bs ih =>
    have hb := b.toNat_lt
    have hbyte : (b.toNat + 256 * ofLittleEndian bs).toUInt8 = b := by
      apply UInt8.toNat_inj.mp
      simp only [Nat.toUInt8, UInt8.toNat_ofNat']
      omega
    have hrest : (b.toNat + 256 * ofLittleEndian bs) / 256 = ofLittleEndian bs := by omega
    rw [List.length_cons, littleEndian, ofLittleEndian, hbyte, hrest, ih]

theorem littleEndian_zeroExtend (v : UInt64) : littleEndian 4 (zeroExtend v 32).toNat = littleEndian 4 v.toNat := by
  have h : (zeroExtend v 32).toNat = v.toNat % 2 ^ 32 := by
    have hbits := congrArg BitVec.toNat (toBitVec_zeroExtend v)
    simp only [BitVec.toNat_setWidth, UInt64.toNat_toBitVec] at hbits
    omega
  rw [h]
  exact littleEndian_mod 4 v.toNat

end CilSsa.Number

/-!
Patterns of integers of any width: what cutting, extending, comparing and storing them does.
-/

namespace CilSsa.Number

open CilSsa.Ssa

section widths

variable {n : Nat}

theorem toBitVec_signExtend_of_lt (v : UInt64) (h0 : 0 < n) (h : n < 64) :
    (signExtend v n).toBitVec = (v.toBitVec.setWidth n).signExtend 64 := by
  have hs : (64 - n) % 2 ^ 64 = 64 - n := Nat.mod_eq_of_lt (by omega)
  have hs' : (64 - n) % 64 = 64 - n := Nat.mod_eq_of_lt (by omega)
  have hbits : (64 - n).toUInt64.toBitVec = BitVec.ofNat 64 (64 - n) := rfl
  have hleft : ((64 - n).toUInt64.toBitVec % 64).toNat = 64 - n := by
    rw [hbits, BitVec.toNat_umod, BitVec.toNat_ofNat, hs]
    exact hs'
  have hright : ((64 - n).toUInt64.toBitVec.smod 64).toNat = 64 - n := by
    have hmsb : (BitVec.ofNat 64 (64 - n)).msb = false := by
      rw [BitVec.msb_eq_false_iff_two_mul_lt, BitVec.toNat_ofNat]
      omega
    rw [hbits, BitVec.smod_eq, hmsb, show (64 : BitVec 64).msb = false by decide]
    exact hleft
  have hshift : (signExtend v n).toBitVec = (v.toBitVec <<< (64 - n)).sshiftRight (64 - n) := by
    rw [signExtend, if_neg (by omega)]
    simp only [UInt64.toBitVec_toInt64, Int64.toBitVec_toUInt64, Int64.toBitVec_shiftRight, UInt64.toBitVec_shiftLeft]
    rw [BitVec.sshiftRight', hright, BitVec.shiftLeft_eq', hleft]
  rw [hshift]
  ext i hi
  simp only [BitVec.getElem_sshiftRight, BitVec.getElem_shiftLeft, BitVec.getElem_signExtend, BitVec.getElem_setWidth]
  by_cases hn : i < n
  · have : 64 - n + i < 64 := by omega
    simp [hn, this, BitVec.getLsbD_eq_getElem hi]
  · have : ¬ 64 - n + i < 64 := by omega
    have h63 : 63 - (64 - n) = n - 1 := by omega
    have hlt : n - 1 < n := by omega
    have hlt' : ¬ 63 < 64 - n := by omega
    simp [hn, this, BitVec.msb_eq_getLsbD_last, hlt, hlt', h63, BitVec.getLsbD_eq_getElem (show n - 1 < 64 by omega)]

theorem toBitVec_zeroExtend_of_lt (v : UInt64) (h0 : 0 < n) (h : n < 64) :
    (zeroExtend v n).toBitVec = (v.toBitVec.setWidth n).setWidth 64 := by
  rw [zeroExtend, if_neg (by omega)]
  apply BitVec.eq_of_toNat_eq
  have hone : ((1 : UInt64) <<< n.toUInt64 - 1).toNat = 2 ^ n - 1 := by
    have hpow : 2 ^ n < 2 ^ 64 := Nat.pow_lt_pow_right (by omega) h
    have hn : n.toUInt64.toNat % 64 = n := by
      rw [UInt64.toNat_ofNat']
      omega
    have hsh : ((1 : UInt64) <<< n.toUInt64).toNat = 2 ^ n := by
      rw [UInt64.toNat_shiftLeft, hn, Nat.shiftLeft_eq]
      have : (1 : UInt64).toNat = 1 := rfl
      rw [this, Nat.one_mul, Nat.mod_eq_of_lt hpow]
    rw [UInt64.toNat_sub_of_le _ _ ?_, hsh]
    · rfl
    · rw [UInt64.le_iff_toNat_le, hsh]
      exact Nat.one_le_two_pow
  rw [UInt64.toNat_toBitVec, UInt64.toNat_and, hone, Nat.and_two_pow_sub_one_eq_mod, BitVec.toNat_setWidth,
    BitVec.toNat_setWidth, UInt64.toNat_toBitVec]
  have : v.toNat % 2 ^ n < 2 ^ 64 := Nat.lt_of_lt_of_le (Nat.mod_lt _ (Nat.two_pow_pos n))
    (Nat.pow_le_pow_right (by omega) (by omega))
  rw [Nat.mod_eq_of_lt this]

theorem signExtend_congr {v w : UInt64} (h : 0 < n → n < 64 → v.toBitVec.setWidth n = w.toBitVec.setWidth n)
    (h' : n = 0 ∨ 64 ≤ n → v = w) : signExtend v n = signExtend w n := by
  by_cases hn : n = 0 ∨ 64 ≤ n
  · rw [h' hn]
  · rw [← UInt64.toBitVec_inj, toBitVec_signExtend_of_lt v (by omega) (by omega),
      toBitVec_signExtend_of_lt w (by omega) (by omega), h (by omega) (by omega)]

theorem signExtend_of_outside (v : UInt64) (h : n = 0 ∨ 64 ≤ n) : signExtend v n = v := by
  rw [signExtend, if_pos h]

@[simp] theorem signExtend_signExtend (v : UInt64) (n : Nat) : signExtend (signExtend v n) n = signExtend v n := by
  refine signExtend_congr (fun h0 h ↦ ?_) (signExtend_of_outside v)
  rw [toBitVec_signExtend_of_lt v h0 h]
  ext i hi
  simp only [BitVec.getElem_setWidth, BitVec.getLsbD_signExtend, show i < 64 by omega, hi, decide_true, Bool.true_and,
    if_true, BitVec.getLsbD_setWidth]

@[simp] theorem signExtend_zeroExtend (v : UInt64) (n : Nat) : signExtend (zeroExtend v n) n = signExtend v n := by
  refine signExtend_congr (fun h0 h ↦ ?_) fun hn ↦ by rw [zeroExtend, if_pos hn]
  rw [toBitVec_zeroExtend_of_lt v h0 h, BitVec.setWidth_setWidth_of_le _ (by omega), BitVec.setWidth_eq]

@[simp] theorem signExtend_zero (n : Nat) : signExtend 0 n = 0 := by
  by_cases hn : n = 0 ∨ 64 ≤ n
  · exact signExtend_of_outside 0 hn
  · rw [← UInt64.toBitVec_inj, toBitVec_signExtend_of_lt 0 (by omega) (by omega)]
    ext i hi
    simp [BitVec.getElem_signExtend, BitVec.msb_zero]

theorem isTrueBits_eq {v : UInt64} (h : signExtend v 1 = v) : isTrueBits v = (v != 0) := by
  have hbits : v.toBitVec = (v.toBitVec.setWidth 1).signExtend 64 := by
    rw [← toBitVec_signExtend_of_lt v (by omega) (by omega), h]
  obtain hv | hv : v.toBitVec.setWidth 1 = 0#1 ∨ v.toBitVec.setWidth 1 = 1#1 := by
    generalize v.toBitVec.setWidth 1 = b
    revert b
    decide
  · have : v = 0 := by rw [← UInt64.toBitVec_inj, hbits, hv]; rfl
    rw [this]
    rfl
  · have : v = -1 := by rw [← UInt64.toBitVec_inj, hbits, hv]; rfl
    rw [this]
    rfl

theorem signExtend_boolBits (b : Bool) : signExtend (boolBits b) 1 = boolBits b := by
  cases b <;> decide

theorem intHolds_swapped (p : Pred) (n : Nat) (a b : UInt64) : intHolds p.swapped n b a = intHolds p n a b := by
  cases p <;> simp [intHolds, Pred.swapped, eq_comm, bne]

/-- A pattern of `n` bits that is written to `w` bytes, as many as take it, reads back. -/
theorem signExtend_bytes (v : UInt64) {w : Nat} (h0 : 0 < n) (h : n ≤ 8 * w) :
    signExtend (ofLittleEndian (littleEndian w (zeroExtend v n).toNat)).toUInt64 n = signExtend v n := by
  have hpow : (256 : Nat) ^ w = 2 ^ (8 * w) := by rw [Nat.pow_mul]
  have hlt : (zeroExtend v n).toNat < 256 ^ w := by
    have hle : (2 : Nat) ^ n ≤ 2 ^ (8 * w) := Nat.pow_le_pow_right (by omega) h
    by_cases hn : 64 ≤ n
    · have := (zeroExtend v n).toNat_lt
      have : (2 : Nat) ^ 64 ≤ 2 ^ n := Nat.pow_le_pow_right (by omega) hn
      omega
    · have hz := congrArg BitVec.toNat (toBitVec_zeroExtend_of_lt v h0 (by omega))
      simp only [BitVec.toNat_setWidth, UInt64.toNat_toBitVec] at hz
      have h1 : v.toNat % 2 ^ n < 2 ^ n := Nat.mod_lt _ (Nat.two_pow_pos n)
      have h2 : v.toNat % 2 ^ n % 2 ^ 64 ≤ v.toNat % 2 ^ n := Nat.mod_le _ _
      omega
  rw [ofLittleEndian_littleEndian, Nat.mod_eq_of_lt hlt, Nat.toUInt64, UInt64.ofNat_toNat, signExtend_zeroExtend]

end widths

/-- The pattern of an integer of `n` bits: its lowest bits with their sign. -/
def patternOf (n : Nat) (x : Int) : UInt64 := signExtend (wordOfInt x) n

section patternOf

variable {m n : Nat} {x y : Int}

theorem toBitVec_wordOfInt (x : Int) : (wordOfInt x).toBitVec = BitVec.ofInt 64 x := by
  apply BitVec.eq_of_toInt_eq
  simp only [wordOfInt, UInt64.toBitVec_ofNat', BitVec.toInt_ofNat', BitVec.toInt_ofInt, Int.bmod_def]
  omega

theorem setWidth_ofInt (h : m ≤ n) (x : Int) : (BitVec.ofInt n x).setWidth m = BitVec.ofInt m x := by
  apply BitVec.eq_of_toInt_eq
  rw [BitVec.toInt_setWidth, BitVec.toInt_ofInt, BitVec.toNat_ofInt]
  have hdvd : ((2 ^ m : Nat) : Int) ∣ (2 ^ n : Nat) := by exact_mod_cast Nat.pow_dvd_pow 2 h
  have hpos : (0 : Int) ≤ x % (2 ^ n : Nat) := Int.emod_nonneg _ (by exact_mod_cast (Nat.two_pow_pos n).ne')
  rw [Int.toNat_of_nonneg hpos, Int.bmod_def, Int.bmod_def, Int.emod_emod_of_dvd _ hdvd]

theorem toBitVec_patternOf (h0 : 0 < n) (h : n ≤ 64) (x : Int) :
    (patternOf n x).toBitVec = (BitVec.ofInt n x).signExtend 64 := by
  rcases Nat.lt_or_eq_of_le h with hlt | rfl
  · rw [patternOf, toBitVec_signExtend_of_lt _ h0 hlt, toBitVec_wordOfInt, setWidth_ofInt h]
  · rw [patternOf, signExtend_of_outside _ (by omega), toBitVec_wordOfInt, BitVec.signExtend_eq]

theorem patternOf_congr (h0 : 0 < n) (h : n ≤ 64) (hxy : x.bmod (2 ^ n) = y.bmod (2 ^ n)) : patternOf n x =
    patternOf n y := by
  have : BitVec.ofInt n x = BitVec.ofInt n y := by
    apply BitVec.eq_of_toInt_eq
    rw [BitVec.toInt_ofInt, BitVec.toInt_ofInt, hxy]
  rw [← UInt64.toBitVec_inj, toBitVec_patternOf h0 h, toBitVec_patternOf h0 h, this]

theorem setWidth_patternOf (h0 : 0 < n) (h : n ≤ 64) (hm : m ≤ n) (x : Int) :
    (patternOf n x).toBitVec.setWidth m = BitVec.ofInt m x := by
  rw [toBitVec_patternOf h0 h, ← setWidth_ofInt hm]
  ext i hi
  simp only [BitVec.getElem_setWidth, BitVec.getLsbD_signExtend, show i < 64 by omega, show i < n by omega, decide_true,
    Bool.true_and, if_true]

theorem signExtend_patternOf (h0 : 0 < m) (hm : m ≤ n) (h : n ≤ 64) (x : Int) :
    signExtend (patternOf n x) m = patternOf m x := by
  rcases Nat.lt_or_eq_of_le (hm.trans h) with hlt | rfl
  · rw [← UInt64.toBitVec_inj, toBitVec_signExtend_of_lt _ h0 hlt, setWidth_patternOf (by omega) h hm,
      toBitVec_patternOf h0 hlt.le]
  · rw [signExtend_of_outside _ (by omega), show n = 64 by omega]

theorem patternOf_wider (h0 : 0 < n) (hm : n ≤ m) (h : m ≤ 64) (hlo : -2 ^ (n - 1) ≤ x) (hhi : x < 2 ^ (n - 1)) :
    patternOf n x = patternOf m x := by
  have hpow : (2 : Int) ^ n = 2 ^ (n - 1) * 2 := by rw [← pow_succ, Nat.sub_add_cancel h0]
  have hle : (2 : Int) ^ n ≤ 2 ^ m := pow_le_pow_right₀ (by decide) hm
  have hbmod : ∀ k : Nat, n ≤ k → x.bmod (2 ^ k) = x := by
    intro k hk
    have hle : (2 : Int) ^ n ≤ 2 ^ k := pow_le_pow_right₀ (by decide) hk
    refine Int.bmod_eq_of_le ?_ ?_ <;> push_cast <;> omega
  rw [← UInt64.toBitVec_inj, toBitVec_patternOf h0 (hm.trans h), toBitVec_patternOf (h0.trans_le hm) h]
  apply BitVec.eq_of_toInt_eq
  rw [BitVec.toInt_signExtend_of_le (hm.trans h), BitVec.toInt_signExtend_of_le h, BitVec.toInt_ofInt,
    BitVec.toInt_ofInt, hbmod n le_rfl, hbmod m hm]

theorem zeroExtend_patternOf (h0 : 0 < n) (h : n ≤ 64) (x : Int) :
    zeroExtend (patternOf n x) n = wordOfInt (x % 2 ^ n) := by
  have hpow : ((2 ^ n : Nat) : Int) = 2 ^ n := by push_cast; rfl
  have hpos : (0 : Int) ≤ x % 2 ^ n := Int.emod_nonneg _ (pow_ne_zero n (by decide))
  rcases Nat.lt_or_eq_of_le h with hlt | rfl
  · have hle : (2 : Int) ^ n ≤ 2 ^ 64 := pow_le_pow_right₀ (by decide) h
    have hmod : x % 2 ^ n < 2 ^ n := Int.emod_lt_of_pos _ (pow_pos (by decide) n)
    rw [← UInt64.toBitVec_inj, toBitVec_zeroExtend_of_lt _ h0 hlt, setWidth_patternOf h0 h le_rfl, toBitVec_wordOfInt]
    apply BitVec.eq_of_toNat_eq
    rw [BitVec.toNat_setWidth_of_le h, BitVec.toNat_ofInt, BitVec.toNat_ofInt, hpow, Int.emod_eq_of_lt hpos]
    exact hmod.trans_le hle
  · rw [patternOf, signExtend_of_outside _ (by omega), zeroExtend, if_pos (by omega), ← UInt64.toBitVec_inj,
      toBitVec_wordOfInt, toBitVec_wordOfInt]
    apply BitVec.eq_of_toInt_eq
    rw [BitVec.toInt_ofInt, BitVec.toInt_ofInt, ← hpow, Int.emod_bmod]

end patternOf
end CilSsa.Number

