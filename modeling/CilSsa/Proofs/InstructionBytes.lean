import CilSsa.Proofs.Listing

/-! Two strings with the same instructions are equal unless a single-precision NaN hides what was written. -/

namespace CilSsa.Bytecode

open CilSsa.Metadata CilSsa.Number CilSsa.Text

/-- The written form of an instruction at an offset: its code, then its operand. The entries of a jump table count from
the end of the table. -/
inductive Encodes (o : Nat) : Instruction → Bytes → Prop
  | fixed {op : Opcode} {n : Nat} : Opcode.ofCode? op.code = some op → op.operandKind ≠ .table →
      n < 256 ^ op.operandKind.size →
      Encodes o (.reading o op n) (codeBytes op.code ++ littleEndian op.operandKind.size n)
  | table {ds : List Nat} : ds.length < 256 ^ 4 → (∀ d ∈ ds, d < 256 ^ 4) →
      Encodes o ⟨o, .switch, 1 + (4 + ds.length * 4),
          .targets (ds.map fun d ↦ (o + 1 + 4 + ds.length * 4 : Nat) + signedOf 32 d)⟩
        (codeBytes Opcode.switch.code ++ (littleEndian 4 ds.length ++ ds.flatMap (littleEndian 4)))

/-- The written forms of instructions side by side. -/
inductive EncodesAll : Nat → List Instruction → Bytes → Prop
  | nil {o : Nat} : EncodesAll o [] []
  | cons {o : Nat} {i : Instruction} {is : List Instruction} {bs more : Bytes} : Encodes o i bs →
      EncodesAll i.next is more → EncodesAll o (i :: is) (bs ++ more)

def Instruction.within (i : Instruction) (code : Bytes) : Bytes := (code.drop i.offset).take i.size

/-- Loads a single-precision NaN, which the widening to a double changes. -/
def Instruction.isSingleNaN (i : Instruction) : Bool := i.op = .ldcR4 && isNaNDouble i.floatOperand

variable {o : Nat} {i : Instruction} {is : List Instruction} {bs more code : Bytes}

section table

theorem eq_switch_of_table {op : Opcode} (h : op.operandKind = .table) : op = .switch := by
  cases op <;> first | rfl | cases h

theorem length_entries_flatMap (ds : List Nat) : (ds.flatMap (littleEndian 4)).length = ds.length * 4 := by
  induction ds with
  | nil => rfl
  | cons d ds ih =>
    rw [List.flatMap_cons, List.length_append, littleEndian_length, ih, List.length_cons]
    omega

theorem tableTargets_flatMap (base : Nat) {ds : List Nat} (h : ∀ d ∈ ds, d < 256 ^ 4) (more : Bytes) :
    tableTargets base ds.length (ds.flatMap (littleEndian 4) ++ more) = ds.map fun d ↦
    (base : Int) + signedOf 32 d := by
  induction ds with
  | nil => rfl
  | cons d ds ih =>
    obtain ⟨hd, hds⟩ := List.forall_mem_cons.mp h
    have hlen := littleEndian_length 4 d
    rw [List.flatMap_cons, List.append_assoc, List.length_cons, tableTargets, List.take_left' hlen,
      List.drop_left' hlen, ih hds, ofLittleEndian_littleEndian, Nat.mod_eq_of_lt hd, List.map_cons]

theorem exists_entries (n : Nat) (bs : Bytes) (h : n * 4 ≤ bs.length) : ∃ ds : List Nat, ds.length = n ∧
    (∀ d ∈ ds, d < 256 ^ 4) ∧ bs = ds.flatMap (littleEndian 4) ++ bs.drop (n * 4) := by
  induction n generalizing bs with
  | zero => exact ⟨[], rfl, List.forall_mem_nil _, by simp⟩
  | succ n ih =>
    have hfour : (bs.take 4).length = 4 := List.length_take_of_le (by omega)
    have hd := ofLittleEndian_lt (bs.take 4)
    have hbytes := littleEndian_ofLittleEndian (bs.take 4)
    rw [hfour] at hd hbytes
    obtain ⟨ds, hlen, hds, heq⟩ := ih (bs.drop 4) (by rw [List.length_drop]; omega)
    refine ⟨ofLittleEndian (bs.take 4) :: ds, by rw [List.length_cons, hlen],
      List.forall_mem_cons.mpr ⟨hd, hds⟩, ?_⟩
    have hdrop : bs.drop ((n + 1) * 4) = (bs.drop 4).drop (n * 4) := by
      rw [List.drop_drop]
      congr 1
      omega
    rw [List.flatMap_cons, hbytes, List.append_assoc, hdrop, ← heq, List.take_append_drop]

theorem decodeOperand_table {pos k : Nat} {operand : Operand} (h : decodeOperand .table pos bs = .ok (operand, k)) :
    ∃ ds : List Nat, ds.length < 256 ^ 4 ∧ (∀ d ∈ ds, d < 256 ^ 4) ∧ k = 4 + ds.length * 4 ∧
      operand = .targets (ds.map fun d ↦ (pos + 4 + ds.length * 4 : Nat) + signedOf 32 d) ∧
      bs = littleEndian 4 ds.length ++ ds.flatMap (littleEndian 4) ++ bs.drop k := by
  unfold decodeOperand takeBytes at h
  split at h
  swap
  · cases h
  rename_i hfour
  have htake : (bs.take 4).length = 4 := List.length_take_of_le hfour
  have hn := ofLittleEndian_lt (bs.take 4)
  have hbytes := littleEndian_ofLittleEndian (bs.take 4)
  rw [htake] at hn hbytes
  change (if bs.length - 4 < ofLittleEndian (bs.take 4) * 4 then Except.error _ else Except.ok
    (Operand.targets (tableTargets (pos + 4 + ofLittleEndian (bs.take 4) * 4) (ofLittleEndian (bs.take 4)) (bs.drop 4)),
      4 + ofLittleEndian (bs.take 4) * 4)) = _ at h
  generalize ofLittleEndian (bs.take 4) = count at *
  split at h
  · cases h
  cases h
  obtain ⟨ds, rfl, hds, heq⟩ := exists_entries count (bs.drop 4) (by rw [List.length_drop]; omega)
  refine ⟨ds, hn, hds, rfl, ?_, ?_⟩
  · rw [heq, tableTargets_flatMap _ hds]
  · rw [hbytes, List.append_assoc, ← List.drop_drop, ← heq, List.take_append_drop]

end table

namespace Encodes

theorem offset (h : Encodes o i bs) : i.offset = o := by
  cases h <;> rfl

theorem length (h : Encodes o i bs) : bs.length = i.size := by
  cases h with
  | fixed => rw [List.length_append, littleEndian_length]; rfl
  | table =>
    rw [List.length_append, List.length_append, codeBytes_switch_length, littleEndian_length, length_entries_flatMap]

theorem next (h : Encodes o i bs) : i.next = o + bs.length := by
  rw [Instruction.next, h.offset, h.length]

theorem size_pos (h : Encodes o i bs) : 0 < i.size := by
  rw [← h.length]
  have hcode : ∀ code : UInt16, 0 < (codeBytes code).length := fun code ↦ by
    unfold codeBytes
    split <;> exact Nat.zero_lt_succ _
  cases h with
  | fixed => rw [List.length_append]; exact Nat.add_pos_left (hcode _) _
  | table => rw [List.length_append]; exact Nat.add_pos_left (hcode _) _

theorem decodes (h : Encodes o i bs) (more : Bytes) : decodeFrom o (bs ++ more) =
    (i :: (decodeFrom i.next more).1, (decodeFrom i.next more).2) := by
  rw [h.next]
  cases h with
  | @fixed op n hop hk hn =>
    have hd := decodeOperand_fixed op.operandKind hk hn (o + (codeBytes op.code).length) more
    rw [List.append_assoc, decodeFrom_code hop hd, List.drop_left' (littleEndian_length _ _), List.length_append,
      littleEndian_length, Nat.add_assoc]
    rfl
  | @table ds hlen hds =>
    have hfour := littleEndian_length 4 ds.length
    have hd : decodeOperand .table (o + (codeBytes Opcode.switch.code).length)
        (littleEndian 4 ds.length ++ ds.flatMap (littleEndian 4) ++ more) =
          .ok (.targets (ds.map fun d ↦ (o + 1 + 4 + ds.length * 4 : Nat) + signedOf 32 d), 4 + ds.length * 4) := by
      unfold decodeOperand
      have hroom : ¬ (littleEndian 4 ds.length ++ (ds.flatMap (littleEndian 4) ++ more)).length - 4 <
          ds.length * 4 := by
        rw [List.length_append, List.length_append, hfour, length_entries_flatMap]
        omega
      rw [List.append_assoc, OperandKind.size, takeBytes_append hfour]
      simp only [bind, Except.bind, ofLittleEndian_littleEndian, Nat.mod_eq_of_lt hlen, if_neg hroom, pure, Except.pure,
        List.drop_left' hfour, tableTargets_flatMap _ hds, codeBytes_switch_length]
    have hwhole : (littleEndian 4 ds.length ++ ds.flatMap (littleEndian 4)).length = 4 + ds.length * 4 := by
      rw [List.length_append, hfour, length_entries_flatMap]
    rw [List.append_assoc, decodeFrom_code ofCode_switch hd, List.drop_left' hwhole, List.length_append, hwhole,
      codeBytes_switch_length, Nat.add_assoc o 1 (4 + ds.length * 4)]

end Encodes

theorem encodes_of_decodeOne {b : UInt8} {rest : Bytes} (h : decodeOne o b rest = .ok i) :
    ∃ bs, Encodes o i bs ∧ b :: rest = bs ++ rest.drop (i.size - 1) := by
  by_cases hk : i.op.operandKind = .table
  · obtain ⟨code, len, op, operand, k, hcode, hop, hoperand, rfl⟩ := decodeOne_parts h
    obtain rfl := eq_switch_of_table hk
    obtain rfl := code_of_ofCode hop
    obtain ⟨rfl, hbytes⟩ := decodeCode_inv hcode
    obtain ⟨ds, hlen, hds, rfl, rfl, heq⟩ := decodeOperand_table hoperand
    rw [codeBytes_switch_length] at hbytes heq ⊢
    refine ⟨_, .table hlen hds, ?_⟩
    have hsize : 1 - 1 + (4 + ds.length * 4) = 1 + (4 + ds.length * 4) - 1 := by omega
    rw [List.drop_drop, hsize] at heq
    rw [hbytes, heq, List.append_assoc, List.append_assoc, List.append_assoc]
  · obtain ⟨hop, n, hn, heq, hbytes⟩ := decodeOne_reading h hk
    exact ⟨_, heq ▸ .fixed hop hk hn, hbytes⟩

theorem decodeOne_error {b : UInt8} {rest : Bytes} {e : DecodeError} (h : decodeOne o b rest = .error e) :
    e.offset = o := by
  unfold decodeOne Except.mapError at h
  dsimp only at h
  split at h
  · cases h
    rfl
  · cases h

/-- The written forms of the instructions stand side by side, and where the decoder stops nothing is left or no written
form comes next. -/
theorem decodeFrom_encodesAll (o : Nat) (code : Bytes) : ∃ bs more, code = bs ++ more ∧
    EncodesAll o (decodeFrom o code).1 bs ∧ ((decodeFrom o code).2 = none → more = []) ∧
    ∀ e, (decodeFrom o code).2 = some e → e.offset = o + bs.length ∧ more ≠ [] ∧
      ∀ i form, Encodes (o + bs.length) i form → ¬ form <+: more := by
  fun_induction decodeFrom o code with
  | case1 =>
    refine ⟨[], [], rfl, .nil, fun _ ↦ rfl, ?_⟩
    rintro e ⟨⟩
  | case2 o b rest e hone =>
    refine ⟨[], b :: rest, rfl, .nil, by rintro ⟨⟩, ?_⟩
    rintro e' ⟨⟩
    refine ⟨decodeOne_error hone, List.cons_ne_nil _ _, ?_⟩
    -- the decoder would read the form and not fail
    rintro i form h ⟨more, hmore⟩
    have hd := h.decodes more
    rw [hmore, List.length_nil, Nat.add_zero, decodeFrom, hone] at hd
    cases hd
  | case3 o b rest i hone more fault hrest ih =>
    obtain ⟨form, h, hbytes⟩ := encodes_of_decodeOne hone
    have hnext : o + i.size = i.next := by rw [Instruction.next, h.offset]
    rw [hrest, hnext] at ih
    obtain ⟨bs, back, hsplit, hall, hnone, hsome⟩ := ih
    have hlength : o + (form ++ bs).length = i.next + bs.length := by
      rw [List.length_append, h.next, Nat.add_assoc]
    exact ⟨form ++ bs, back, by rw [hbytes, hsplit, List.append_assoc], .cons h hall, hnone, hlength ▸ hsome⟩

theorem signedOf_inj {w n n' : Nat} (hn : n < 2 ^ w) (hn' : n' < 2 ^ w) (h : signedOf w n = signedOf w n') :
    n = n' := by
  have hd := signedOf_dvd w n
  have hd' := signedOf_dvd w n'
  rw [h] at hd
  have hdiff : (2 ^ w : Int) ∣ n - n' := by
    have := Int.dvd_sub hd' hd
    rwa [sub_sub_sub_cancel_left] at this
  have hcast : ((2 ^ w : Nat) : Int) = 2 ^ w := by norm_cast
  rw [← hcast] at hdiff
  have := Int.eq_zero_of_abs_lt_dvd hdiff (by rw [abs_lt]; omega)
  omega

theorem isNaN_quiet (n : Bool) (p : Nat) : ∃ bits < 2 ^ 64, encodeDatum .double
    (.nan n (p % BinaryFormat.double.quietBit + BinaryFormat.double.quietBit)) = bits ∧
      (decodeBits .double bits).isNaN = true := by
  have hquiet : BinaryFormat.double.quietBit = 2 ^ 51 := rfl
  have hinf : BinaryFormat.double.infinityBits = 2047 * 2 ^ 52 := rfl
  have hsign : BinaryFormat.double.signBit = 2 ^ 63 := rfl
  have key : ∀ bits, bits / 2 ^ 52 % 2 ^ 11 = 2047 → bits % 2 ^ 52 ≠ 0 → (decodeBits .double bits).isNaN = true := by
    intro bits he hf
    have hd : decodeBits .double bits =
        if bits / 2 ^ 52 % 2 ^ 11 = 2047 then
          if bits % 2 ^ 52 = 0 then .infinite (bits / 2 ^ 63 % 2 = 1) else .nan (bits / 2 ^ 63 % 2 = 1) (bits % 2 ^ 52)
        else if bits / 2 ^ 52 % 2 ^ 11 = 0 then .finite (bits / 2 ^ 63 % 2 = 1) (bits % 2 ^ 52) (-1074)
        else .finite (bits / 2 ^ 63 % 2 = 1) (2 ^ 52 + bits % 2 ^ 52)
          (-1074 + ((bits / 2 ^ 52 % 2 ^ 11 : Nat) : Int) - 1) := rfl
    rw [hd, if_pos he, if_neg hf]
    rfl
  rw [encodeDatum, withSign, hquiet, hinf, hsign]
  refine ⟨_, ?_, rfl, key _ ?_ ?_⟩ <;> split <;> omega

theorem isNaNDouble_widen {bits : UInt32} (h : (decodeBits .single bits.toNat).isNaN = true) :
    isNaNDouble (widen bits) = true := by
  unfold isNaNDouble widen convertBits
  cases hd : decodeBits .single bits.toNat with
  | nan n p =>
    obtain ⟨wide, hlt, heq, hnan⟩ := isNaN_quiet n
      (if BinaryFormat.single.fractionBits ≤ BinaryFormat.double.fractionBits
        then p * Nat.pow 2 (BinaryFormat.double.fractionBits - BinaryFormat.single.fractionBits)
        else p / Nat.pow 2 (BinaryFormat.single.fractionBits - BinaryFormat.double.fractionBits))
    simp only [heq, UInt64.toNat_ofNat', Nat.mod_eq_of_lt hlt, hnan]
  | infinite n => rw [hd] at h; cases h
  | finite n m e => rw [hd] at h; cases h

theorem widen_inj {a b : UInt32} (hnan : isNaNDouble (widen a) = false) (h : widen a = widen b) : a = b := by
  have hsingle : ∀ c : UInt32, isNaNDouble (widen c) = false → (decodeBits .single c.toNat).isNaN = false := by
    intro c hc
    rw [Bool.eq_false_iff]
    intro hn
    rw [isNaNDouble_widen hn] at hc
    cases hc
  rw [← narrow_widen (hsingle a hnan), h, narrow_widen (hsingle b (h ▸ hnan))]

theorem toUInt32_inj {n n' : Nat} (hn : n < 2 ^ 32) (hn' : n' < 2 ^ 32) (h : n.toUInt32 = n'.toUInt32) : n = n' := by
  have hword : (UInt32.ofNat n).toNat = (UInt32.ofNat n').toNat := congrArg UInt32.toNat h
  rwa [UInt32.toNat_ofNat', UInt32.toNat_ofNat', Nat.mod_eq_of_lt hn, Nat.mod_eq_of_lt hn'] at hword

/-- A number in an operand of fixed size is known from what it reads as, except for a single-precision NaN. -/
theorem reading_inj {op : Opcode} {n n' : Nat} (hn : n < 256 ^ op.operandKind.size)
    (hn' : n' < 256 ^ op.operandKind.size) (hk : op.operandKind ≠ .table)
    (hnan : (Instruction.reading o op n).isSingleNaN = false)
    (h : Instruction.reading o op n = .reading o op n') : n = n' := by
  have hoperand : op.operandKind.reading (o + (codeBytes op.code).length) n =
      op.operandKind.reading (o + (codeBytes op.code).length) n' := congrArg Instruction.operand h
  cases hkind : op.operandKind <;> rw [hkind] at hn hn' hoperand
  case table => exact absurd hkind hk
  case none => exact (Nat.lt_one_iff.mp hn).trans (Nat.lt_one_iff.mp hn').symm
  case uint8 | uint16 => exact Int.ofNat_inj.mp (Operand.int.inj hoperand)
  case int8 | int32 | int64 => exact signedOf_inj hn hn' (Operand.int.inj hoperand)
  case float32 =>
    obtain rfl : op = .ldcR4 := by cases op <;> first | rfl | cases hkind
    exact toUInt32_inj hn hn' (widen_inj hnan (Operand.float.inj hoperand))
  case float64 =>
    change n < 2 ^ 64 at hn
    change n' < 2 ^ 64 at hn'
    have hbits : (UInt64.ofNat n).toNat = (UInt64.ofNat n').toNat :=
      congrArg UInt64.toNat (Operand.float.inj hoperand)
    rwa [UInt64.toNat_ofNat', UInt64.toNat_ofNat', Nat.mod_eq_of_lt hn, Nat.mod_eq_of_lt hn'] at hbits
  case token => exact toUInt32_inj hn hn' (congrArg Token.raw (Operand.token.inj hoperand))
  case branch8 | branch32 =>
    simp only [OperandKind.reading, Operand.targets.injEq, List.cons.injEq, and_true, add_right_inj] at hoperand
    exact signedOf_inj hn hn' hoperand

theorem targets_inj {base : Int} {ds ds' : List Nat} (hds : ∀ d ∈ ds, d < 256 ^ 4) (hds' : ∀ d ∈ ds', d < 256 ^ 4)
    (h : ds.map (fun d ↦ base + signedOf 32 d) = ds'.map fun d ↦ base + signedOf 32 d) : ds = ds' := by
  induction ds generalizing ds' with
  | nil => exact (List.map_eq_nil_iff.mp h.symm).symm
  | cons d ds ih =>
    obtain ⟨d', rest, rfl, hd', hrest⟩ := List.map_eq_cons_iff.mp h.symm
    obtain ⟨hd, hds⟩ := List.forall_mem_cons.mp hds
    obtain ⟨hd'', hds'⟩ := List.forall_mem_cons.mp hds'
    rw [signedOf_inj hd'' hd (add_left_cancel hd'), ih hds hds' hrest.symm]

theorem Encodes.unique {form form' : Bytes} (h : Encodes o i form) (h' : Encodes o i form')
    (hnan : i.isSingleNaN = false) : form = form' := by
  cases h with
  | @fixed op n hop hk hn =>
    generalize hi : Instruction.reading o op n = i at h'
    cases h' with
    | @fixed op' n' _ _ hn' =>
      obtain rfl : op = op' := congrArg Instruction.op hi
      rw [reading_inj hn hn' hk hnan hi]
    | table => exact absurd (congrArg (fun j ↦ j.op.operandKind) hi) hk
  | @table ds hlen hds =>
    generalize hi : Instruction.mk _ _ _ _ = i at h'
    cases h' with
    | @fixed op' n' _ hk' _ => exact absurd (congrArg (fun j ↦ j.op.operandKind) hi).symm hk'
    | @table ds' _ hds' =>
      have hsize : 1 + (4 + ds.length * 4) = 1 + (4 + ds'.length * 4) := congrArg Instruction.size hi
      have hlength : ds.length = ds'.length := by omega
      have htargets := Operand.targets.inj (congrArg Instruction.operand hi)
      rw [hlength] at htargets
      rw [targets_inj hds hds' htargets]

namespace EncodesAll

theorem chain (h : EncodesAll o is bs) : Chain o is (o + bs.length) := by
  induction h with
  | nil => exact .nil
  | cons h _ ih =>
    rw [List.length_append, ← Nat.add_assoc, ← h.next]
    exact .cons h.offset h.size_pos ih

theorem mem (h : EncodesAll o is bs) (hi : i ∈ is) (before after : Bytes) (hbefore : before.length = o) :
    Encodes i.offset i (i.within (before ++ (bs ++ after))) := by
  induction h generalizing before with
  | nil => cases hi
  | @cons o j js form more hj _ ih =>
    rw [List.append_assoc]
    rcases List.mem_cons.mp hi with rfl | hi
    · have hwithin : i.within (before ++ (form ++ (more ++ after))) = form := by
        rw [Instruction.within, hj.offset, List.drop_left' hbefore, List.take_left' hj.length]
      rw [hwithin, hj.offset]
      exact hj
    · rw [← List.append_assoc before]
      exact ih hi (before ++ form) (by rw [List.length_append, hbefore, hj.next])

theorem unique {bs' : Bytes} (h : EncodesAll o is bs) (h' : EncodesAll o is bs')
    (hnan : ∀ i ∈ is, i.isSingleNaN = false) : bs = bs' := by
  induction h generalizing bs' with
  | nil =>
    cases h'
    rfl
  | cons h _ ih =>
    cases h' with
    | cons h' hmore' =>
      obtain ⟨hi, his⟩ := List.forall_mem_cons.mp hnan
      rw [h.unique h' hi, ih hmore' his]

theorem length (h : EncodesAll o is bs) : bs.length = (is.map Instruction.size).sum := by
  induction h with
  | nil => rfl
  | cons h _ ih => rw [List.length_append, h.length, ih, List.map_cons, List.sum_cons]

end EncodesAll

theorem encodesAll_of_decodeAll (h : decodeAll code = (is, none)) : EncodesAll 0 is code := by
  obtain ⟨bs, more, hcode, hall, hnone, -⟩ := decodeFrom_encodesAll 0 code
  change EncodesAll 0 (decodeAll code).1 bs at hall
  change (decodeAll code).2 = none → more = [] at hnone
  rw [h] at hall hnone
  rw [hcode, hnone rfl, List.append_nil]
  exact hall

/-- Decoding reads a string from its start, instruction by instruction and each from its own bytes, up to its end or to
the first place where no instruction is written; and it forgets nothing but which single-precision NaN was loaded. -/
theorem decodeAll_lossless (code : Bytes) :
    (∃ stop ≤ code.length, Chain 0 (decodeAll code).1 stop ∧
      (∀ i ∈ (decodeAll code).1, Encodes i.offset i (i.within code)) ∧
      ((decodeAll code).2 = none → stop = code.length) ∧
      ∀ e, (decodeAll code).2 = some e → e.offset = stop ∧ stop < code.length ∧
        ∀ i form, Encodes stop i form → ¬ form <+: code.drop stop) ∧
    ∀ code' is, decodeAll code = (is, none) → decodeAll code' = (is, none) →
      code.length = code'.length ∧ (∀ i ∈ is, i.isSingleNaN = false → i.within code = i.within code') ∧
        ((∀ i ∈ is, i.isSingleNaN = false) → code = code') := by
  constructor
  · obtain ⟨bs, more, hcode, hall, hnone, hsome⟩ := decodeFrom_encodesAll 0 code
    rw [Nat.zero_add] at hsome
    have hchain := hall.chain
    rw [Nat.zero_add] at hchain
    have hlength : code.length = bs.length + more.length := by rw [hcode, List.length_append]
    refine ⟨bs.length, by omega, hchain, fun i hi ↦ ?_, fun h ↦ ?_, fun e he ↦ ?_⟩
    · have hmem := hall.mem hi [] more rfl
      rwa [List.nil_append, ← hcode] at hmem
    · rw [hlength, hnone h]
      rfl
    · obtain ⟨hoffset, hne, hform⟩ := hsome e he
      have hpos := List.length_pos_of_ne_nil hne
      refine ⟨hoffset, by omega, fun i form h ↦ ?_⟩
      rw [hcode, List.drop_left]
      exact hform i form h
  · intro code' is h h'
    have hall := encodesAll_of_decodeAll h
    have hall' := encodesAll_of_decodeAll h'
    refine ⟨by rw [hall.length, hall'.length], fun i hi hnan ↦ ?_, hall.unique hall'⟩
    have hmem := hall.mem hi [] [] rfl
    have hmem' := hall'.mem hi [] [] rfl
    rw [List.nil_append, List.append_nil] at hmem hmem'
    exact hmem.unique hmem' hnan

def signallingSample : Bytes :=
  [0x45, 2, 0, 0, 0, 0xFA, 0xFF, 0xFF, 0xFF, 5, 0, 0, 0, 0x22, 1, 0, 0x80, 0x7F, 0x2A]

def quietSample : Bytes :=
  [0x45, 2, 0, 0, 0, 0xFA, 0xFF, 0xFF, 0xFF, 5, 0, 0, 0, 0x22, 1, 0, 0xC0, 0x7F, 0x2A]

def sampleTable : Instruction := ⟨0, .switch, 13, .targets [7, 18]⟩

def nanDecoded : List Instruction :=
  [sampleTable, ⟨13, .ldcR4, 5, .float 0x7FF8000020000000⟩, ⟨18, .ret, 1, .none⟩]

theorem decodeAll_lossless_nan : decodeAll signallingSample = (nanDecoded, none) ∧
    decodeAll quietSample = (nanDecoded, none) ∧ sampleTable.within signallingSample = sampleTable.within quietSample ∧
      decodeAll (signallingSample.take 13) = ([sampleTable], none) ∧
        signallingSample.take 13 = quietSample.take 13 := by
  have hsignalling : decodeAll signallingSample = (nanDecoded, none) := by decide +kernel
  have hquiet : decodeAll quietSample = (nanDecoded, none) := by decide +kernel
  have htable : decodeAll (signallingSample.take 13) = ([sampleTable], none) := by decide +kernel
  have htable' : decodeAll (quietSample.take 13) = ([sampleTable], none) := by decide +kernel
  have hsame := (decodeAll_lossless signallingSample).2 quietSample nanDecoded hsignalling hquiet
  have hequal := (decodeAll_lossless (signallingSample.take 13)).2 (quietSample.take 13) [sampleTable] htable htable'
  exact ⟨hsignalling, hquiet, hsame.2.1 sampleTable List.mem_cons_self rfl, htable, hequal.2.2 (by simp; rfl)⟩

end CilSsa.Bytecode

