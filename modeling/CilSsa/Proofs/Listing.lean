import CilSsa.Proofs.ListingText

namespace CilSsa.Bytecode

open CilSsa.Metadata CilSsa.Number CilSsa.Text

variable {op : Opcode}

def Instruction.call (i : Instruction) : Call :=
  match i.op.operandKind with
  | .none => .plain i.op.code
  | .int8 => .int8 i.op.code (wordOfInt i.intOperand).toUInt8.toInt8
  | .uint8 => .uint8 i.op.code (wordOfInt i.intOperand).toUInt8
  | .uint16 => .uint16 i.op.code (wordOfInt i.intOperand).toUInt16
  | .int32 => .int32 i.op.code (wordOfInt i.intOperand).toUInt32.toInt32
  | .int64 => .int64 i.op.code (wordOfInt i.intOperand).toInt64
  | .float32 => .float32 i.op.code (narrow i.floatOperand)
  | .float64 => .float64 i.op.code i.floatOperand
  | .token => .token i.op.code i.tokenOperand
  | .branch8 | .branch32 => .branch i.op.code (offsetLabel i.target)
  | .table => .switch []

def Instruction.reading (o : Nat) (op : Opcode) (n : Nat) : Instruction :=
  ⟨o, op, (codeBytes op.code).length + op.operandKind.size,
    op.operandKind.reading (o + (codeBytes op.code).length) n⟩

@[simp] theorem Instruction.reading_op (o : Nat) (op : Opcode) (n : Nat) : (Instruction.reading o op n).op = op := rfl

def OperandKind.isListed : OperandKind → Bool
  | .float32 | .float64 | .table => false
  | _ => true

theorem isListed_of (hs : op ≠ .switch) (h4 : op ≠ .ldcR4) (h8 : op ≠ .ldcR8) :
    op.operandKind.isListed = true := by
  cases op <;> first | rfl | contradiction

theorem littleEndian_wordOfInt {k : Nat} (hk : k = 1 ∨ k = 2 ∨ k = 4 ∨ k = 8) {v : Int} {n : Nat}
    (h : (256 ^ k : Int) ∣ v - n) : littleEndian k (wordOfInt v).toNat = littleEndian k n := by
  rw [← littleEndian_mod, ← littleEndian_mod k n]
  congr 1
  have hword : (wordOfInt v).toNat = (v % 18446744073709551616).toNat := by
    rw [wordOfInt, UInt64.toNat_ofNat']
    omega
  rw [hword]
  rcases hk with rfl | rfl | rfl | rfl <;> simp only [Nat.reducePow, Int.reducePow] at * <;> omega

theorem signedOf_dvd (w n : Nat) : (2 ^ w : Int) ∣ signedOf w n - n := by
  unfold signedOf
  split
  · simp
  · simp

theorem signedOf_range {w n : Nat} (hw : 0 < w) (hn : n < 2 ^ w) :
    -2 ^ (w - 1) ≤ signedOf w n ∧ signedOf w n < 2 ^ (w - 1) := by
  obtain ⟨w, rfl⟩ := Nat.exists_eq_succ_of_ne_zero hw.ne'
  have hcast : ((2 ^ w : Nat) : Int) = 2 ^ w := by norm_cast
  unfold signedOf
  simp only [Nat.pow_eq, Nat.succ_eq_add_one, Nat.add_sub_cancel, Nat.pow_succ, Nat.cast_mul, Nat.cast_ofNat] at *
  split <;> omega

variable {o n : Nat} {a : Assembler}

theorem littleEndian_low {k m : Nat} (hk : k = 1 ∨ k = 2 ∨ k = 4 ∨ k = 8) {v : Int} (h : (256 ^ k : Int) ∣ v - n)
    (hm : m % 256 ^ k = (wordOfInt v).toNat % 256 ^ k) : littleEndian k m = littleEndian k n := by
  rw [← littleEndian_mod, hm, littleEndian_mod, littleEndian_wordOfInt hk h]

theorem immediate_call (hl : op.operandKind.isListed = true) (hb : op.operandKind ∉ [OperandKind.branch8, .branch32])
    (hn : n < 256 ^ op.operandKind.size) :
    (Instruction.reading o op n).call.isImmediate = true ∧ (Instruction.reading o op n).call.code? = some op.code ∧
      op.operandKind ∈ (Instruction.reading o op n).call.kinds ∧
      (Instruction.reading o op n).call.immediate = littleEndian op.operandKind.size n := by
  unfold Instruction.call Instruction.reading
  dsimp only
  cases hk : op.operandKind with
  | none => exact ⟨rfl, rfl, List.mem_singleton.mpr rfl, rfl⟩
  | int8 =>
    refine ⟨rfl, rfl, List.mem_cons_self, littleEndian_low (.inl rfl) (signedOf_dvd 8 n) ?_⟩
    simp [Instruction.intOperand, OperandKind.reading]
  | uint8 =>
    refine ⟨rfl, rfl, List.mem_cons_of_mem _ List.mem_cons_self, littleEndian_low (v := n) (.inl rfl) (by simp) ?_⟩
    simp [Instruction.intOperand, OperandKind.reading]
  | uint16 =>
    refine ⟨rfl, rfl, List.mem_singleton.mpr rfl, littleEndian_low (v := n) (.inr (.inl rfl)) (by simp) ?_⟩
    simp [Instruction.intOperand, OperandKind.reading]
  | int32 =>
    refine ⟨rfl, rfl, List.mem_singleton.mpr rfl, littleEndian_low (.inr (.inr (.inl rfl))) (signedOf_dvd 32 n) ?_⟩
    simp [Instruction.intOperand, OperandKind.reading]
  | int64 =>
    refine ⟨rfl, rfl, List.mem_singleton.mpr rfl, littleEndian_low (.inr (.inr (.inr rfl))) (signedOf_dvd 64 n) ?_⟩
    simp [Instruction.intOperand, OperandKind.reading]
  | token =>
    refine ⟨rfl, rfl, List.mem_singleton.mpr rfl, ?_⟩
    rw [hk] at hn
    have hraw : n.toUInt32.toNat = n := Nat.mod_eq_of_lt hn
    exact congrArg (littleEndian 4) hraw
  | branch8 => simp [hk] at hb
  | branch32 => simp [hk] at hb
  | float32 => simp [hk, OperandKind.isListed] at hl
  | float64 => simp [hk, OperandKind.isListed] at hl
  | table => simp [hk, OperandKind.isListed] at hl

section emission

variable {σ ε : Type} {r : TokenResolver σ ε} {s : σ} {w : List Char}

theorem emitLine_mnemonic (hop : op ∈ Opcode.all) (hk : op.operandKind = .none) :
    emitLine (some r) a s op.mnemonic.toList = .ok (a.emit op.code, s) := by
  rw [emitLine, cutChars_none ((word_mnemonic hop).notMem (by decide))]
  dsimp only [Option.getD_none]
  rw [String.ofList_toList, toLower_mnemonic hop, ofMnemonic_mnemonic hop]
  have hempty : Text.trim (String.ofList []) = "" := rfl
  simp [hk, hempty, emitOperand, emitPlain, Except.map]

theorem emitLine_operand (hop : op ∈ Opcode.all) (hk : op.operandKind ≠ .none) (hw : Word w) :
    emitLine (some r) a s (op.mnemonic.toList ++ ' ' :: w) = emitOperand (some r) a s op (String.ofList w) := by
  rw [emitLine, cutChars_some ((word_mnemonic hop).notMem (by decide))]
  dsimp only [Option.getD_some]
  rw [String.ofList_toList, toLower_mnemonic hop, ofMnemonic_mnemonic hop, hw.trim_ofList]
  have hne : String.ofList w ≠ "" := by
    intro h
    exact hw.1 (by simpa using congrArg String.toList h)
  simp [hk, hne]

def Instruction.operandText (i : Instruction) : String :=
  match i.op.operandKind with
  | .token => i.tokenOperand.text
  | .branch8 | .branch32 => offsetLabel i.target
  | _ => toString i.intOperand

theorem text_operand {i : Instruction} (hl : i.op.operandKind.isListed = true) (hk : i.op.operandKind ≠ .none) :
    i.text.toList = i.op.mnemonic.toList ++ ' ' :: i.operandText.toList := by
  unfold Instruction.text Instruction.operandText
  cases h : i.op.operandKind <;> simp_all [OperandKind.isListed]

theorem text_none {i : Instruction} (hk : i.op.operandKind = .none) : i.text = i.op.mnemonic := by
  simp [Instruction.text, hk]

theorem word_operandText {i : Instruction}
    (ht : i.op.operandKind ∈ [OperandKind.branch8, .branch32] → ∃ t : Nat, i.target = t) :
    Word i.operandText.toList := by
  unfold Instruction.operandText
  split
  · exact word_tokenText _
  · rename_i hk
    obtain ⟨t, ht⟩ := ht (by simp [hk])
    rw [ht]
    exact word_offsetLabel t
  · rename_i hk
    obtain ⟨t, ht⟩ := ht (by simp [hk])
    rw [ht]
    exact word_offsetLabel t
  · exact word_toString _

theorem length_toString {v : Int} (h : v.natAbs < 2 ^ 64) : (toString v).toList.length ≤ 21 := by
  have hlen := (Nat.length_toDigits_le_iff (b := 10) (n := v.natAbs) (k := 20) (by decide) (by decide)).mpr (by omega)
  rw [toList_toString_int]
  split
  · rw [List.length_cons]
    omega
  · omega

theorem length_operandText (hn : n < 256 ^ op.operandKind.size)
    (ht : op.operandKind ∈ [OperandKind.branch8, .branch32] → ∃ t : Nat, (Instruction.reading o op n).target =
    t ∧ t < 2 ^ 64) : (Instruction.reading o op n).operandText.toList.length ≤ 21 := by
  unfold Instruction.operandText
  split
  · exact (length_tokenText _).trans (by decide)
  · rename_i hk
    obtain ⟨t, ht, hlt⟩ := ht (by simp [show op.operandKind = _ from hk])
    rw [ht]
    exact (length_offsetLabel hlt).trans (by decide)
  · rename_i hk
    obtain ⟨t, ht, hlt⟩ := ht (by simp [show op.operandKind = _ from hk])
    rw [ht]
    exact (length_offsetLabel hlt).trans (by decide)
  · apply length_toString
    have h8 := signedOf_range (w := 8) (n := n) (by decide)
    have h32 := signedOf_range (w := 32) (n := n) (by decide)
    have h64 := signedOf_range (w := 64) (n := n) (by decide)
    unfold Instruction.intOperand Instruction.reading
    dsimp only
    cases hk : op.operandKind <;> rw [hk] at hn <;>
      simp only [OperandKind.reading, OperandKind.size, Nat.reducePow, Nat.reduceSub, Int.reducePow] at * <;> omega

theorem emitPlain_number (hl : op.operandKind.isListed = true) (hb : op.operandKind ∉ [OperandKind.branch8, .branch32])
    (hk : op.operandKind ≠ .none) (ht : op.operandKind ≠ .token) (hn : n < 256 ^ op.operandKind.size) (a : Assembler) :
    emitPlain (ε := ε) a op (toString (Instruction.reading o op n).intOperand) =
      .ok ((Instruction.reading o op n).call.run a) := by
  have hsigned : ∀ w, 0 < w → n < 2 ^ w → parseSigned w (toString (signedOf w n)) = .ok (signedOf w n) := by
    intro w hw hlt
    exact parseSigned_toString hw (signedOf_range hw hlt).1 (signedOf_range hw hlt).2
  have hunsigned : ∀ w, n < 2 ^ w → parseUnsigned w (toString (n : Int)) = .ok n := fun w ↦ parseUnsigned_toString
  have hlow : ∀ k m m', m % 256 ^ k = m' % 256 ^ k → littleEndian k m = littleEndian k m' := by
    intro k m m' h
    rw [← littleEndian_mod, h, littleEndian_mod]
  unfold emitPlain Instruction.call Instruction.intOperand Instruction.reading
  dsimp only
  cases h : op.operandKind <;> rw [h] at hl hb hk ht hn <;>
    simp only [OperandKind.isListed, OperandKind.size, Bool.false_eq_true, ne_eq, not_true_eq_false, List.mem_cons,
      reduceCtorEq, List.not_mem_nil, or_false, or_true, not_false_eq_true] at hl hb hk ht hn
  case int8 =>
    dsimp only [OperandKind.reading]
    rw [hsigned 8 (by decide) hn]
    refine congrArg Except.ok ?_
    simp only [Call.run, Assembler.emitByte]
    rw [hlow 1]
    simp
  case uint8 =>
    dsimp only [OperandKind.reading]
    rw [hunsigned 8 hn]
    refine congrArg Except.ok ?_
    simp only [Call.run, Assembler.emitByte]
    rw [littleEndian_low (m := ((wordOfInt n).toUInt8).toNat) (v := n) (n := n) (.inl rfl) (by simp) (by simp)]
  case uint16 =>
    dsimp only [OperandKind.reading]
    rw [hunsigned 16 hn]
    refine congrArg Except.ok ?_
    simp only [Call.run, Assembler.emitIndex]
    rw [littleEndian_low (m := ((wordOfInt n).toUInt16).toNat) (v := n) (n := n) (.inr (.inl rfl)) (by simp) (by simp)]
  case int32 =>
    dsimp only [OperandKind.reading]
    rw [hsigned 32 (by decide) hn]
    refine congrArg Except.ok ?_
    simp only [Call.run, Assembler.emitInt32]
    rw [hlow 4]
    simp
  case int64 =>
    dsimp only [OperandKind.reading]
    rw [hsigned 64 (by decide) hn]
    refine congrArg Except.ok ?_
    simp only [Call.run, Assembler.emitInt64]
    rw [hlow 8]
    simp

theorem emitLine_text (hr : ∀ op t s, ∃ s', r op t.text s = .ok (t, s')) (hop : op ∈ Opcode.all)
    (hl : op.operandKind.isListed = true) (hn : n < 256 ^ op.operandKind.size)
    (ht : op.operandKind ∈ [OperandKind.branch8, .branch32] → ∃ t : Nat, (Instruction.reading o op n).target = t)
    (a : Assembler) (s : σ) :
    ∃ s', emitLine (some r) a s (Instruction.reading o op n).text.toList =
      .ok ((Instruction.reading o op n).call.run a, s') := by
  by_cases hk : op.operandKind = .none
  · refine ⟨s, ?_⟩
    rw [text_none hk, Instruction.reading_op, emitLine_mnemonic hop hk, Instruction.call, Instruction.reading_op, hk]
    rfl
  rw [text_operand (i := Instruction.reading o op n) hl hk, Instruction.reading_op,
    emitLine_operand hop hk (word_operandText ht), String.ofList_toList]
  by_cases htok : op.operandKind = .token
  · obtain ⟨s', hs'⟩ := hr op (Instruction.reading o op n).tokenOperand s
    refine ⟨s', ?_⟩
    simp only [emitOperand, htok, if_true, Instruction.operandText, Instruction.call, Instruction.reading_op, hs']
    rfl
  refine ⟨s, ?_⟩
  rw [emitOperand, if_neg htok]
  by_cases hb : op.operandKind ∈ [OperandKind.branch8, .branch32]
  · obtain ⟨t, ht⟩ := ht hb
    have htext : (Instruction.reading o op n).operandText = offsetLabel t := by
      rw [← ht, Instruction.operandText]
      rcases List.mem_pair.mp hb with h | h <;>
        rw [Instruction.reading_op, h]
    have hcall : (Instruction.reading o op n).call = .branch op.code (offsetLabel t) := by
      rw [← ht, Instruction.call]
      rcases List.mem_pair.mp hb with h | h <;>
        rw [Instruction.reading_op, h]
    rw [htext, hcall, emitPlain]
    rcases List.mem_pair.mp hb with h | h <;> rw [h] <;> simp [isLabel_offsetLabel, Except.map, Call.run]
  · have htext : (Instruction.reading o op n).operandText = toString (Instruction.reading o op n).intOperand := by
      unfold Instruction.operandText
      rw [Instruction.reading_op]
      split <;> simp_all
    rw [htext, emitPlain_number hl hb hk htok hn]
    rfl

end emission

section decoding

variable {b : UInt8} {bs rest : Bytes} {i : Instruction} {is : List Instruction} {labels : List (String × Nat)}

theorem decodeOperand_inv {kind : OperandKind} {pos k : Nat} {operand : Operand} (hk : kind ≠ .table)
    (h : decodeOperand kind pos bs = .ok (operand, k)) :
    ∃ n < 256 ^ kind.size, operand = kind.reading pos n ∧ k = kind.size ∧
    bs = littleEndian kind.size n ++ bs.drop k := by
  unfold decodeOperand takeBytes at h
  split at h
  swap
  · cases h
  rename_i hlen
  have htake : (bs.take kind.size).length = kind.size := List.length_take_of_le hlen
  have hn := ofLittleEndian_lt (bs.take kind.size)
  have hbytes := littleEndian_ofLittleEndian (bs.take kind.size)
  rw [htake] at hn hbytes
  refine ⟨_, hn, ?_⟩
  rw [hbytes]
  simp only [bind, Except.bind] at h
  cases kind <;> first | (cases h; exact ⟨rfl, rfl, (List.take_append_drop _ _).symm⟩) | exact absurd rfl hk

theorem decodeCode_inv {code : UInt16} {len : Nat} (h : decodeCode b rest = .ok (code, len)) :
    len = (codeBytes code).length ∧ b :: rest = codeBytes code ++ rest.drop (len - 1) := by
  unfold decodeCode at h
  split at h
  · rename_i hb
    cases rest with
    | nil => cases h
    | cons c rest =>
      cases h
      have hc := c.toNat_lt
      have hcode : (0xFE00 + c.toNat).toUInt16.toNat = 0xFE00 + c.toNat := Nat.mod_eq_of_lt (by omega)
      have htwo : isTwoByte (0xFE00 + c.toNat).toUInt16 = true := by
        simp only [isTwoByte, decide_eq_true_eq, UInt16.lt_iff_toNat_lt, hcode]
        exact Nat.lt_of_lt_of_le (by decide) (Nat.le_add_right _ _)
      have hlow : (0xFE00 + c.toNat).toUInt16.toNat.toUInt8 = c := by
        apply UInt8.toNat_inj.mp
        rw [hcode]
        simp only [Nat.toUInt8, UInt8.toNat_ofNat']
        omega
      rw [codeBytes, htwo, hlow, hb]
      exact ⟨rfl, rfl⟩
  · cases h
    have hb := b.toNat_lt
    have hcode : b.toNat.toUInt16.toNat = b.toNat := Nat.mod_eq_of_lt (by omega)
    have hone : isTwoByte b.toNat.toUInt16 = false := by
      simp only [isTwoByte, decide_eq_false_iff_not, UInt16.not_lt, UInt16.le_iff_toNat_le, hcode]
      exact Nat.le_of_lt_succ hb
    have hlow : b.toNat.toUInt16.toNat.toUInt8 = b := by
      rw [hcode]
      exact UInt8.ofNat_toNat
    rw [codeBytes, hone, hlow]
    exact ⟨rfl, rfl⟩

/-- A known opcode with an operand that a listing shows. -/
structure Instruction.Listed (i : Instruction) (n : Nat) : Prop where
  mem : i.op ∈ Opcode.all
  known : Opcode.ofCode? i.op.code = some i.op
  listed : i.op.operandKind.isListed = true
  small : n < 256 ^ i.op.operandKind.size
  eq : i = .reading i.offset i.op n

theorem ne_table_of_isListed {kind : OperandKind} (h : kind.isListed = true) : kind ≠ .table := by
  rintro rfl
  cases h

theorem decodeOne_reading {o : Nat} (h : decodeOne o b rest = .ok i) (hk : i.op.operandKind ≠ .table) :
    Opcode.ofCode? i.op.code = some i.op ∧ ∃ n < 256 ^ i.op.operandKind.size, i = .reading o i.op n ∧
      b :: rest = codeBytes i.op.code ++ littleEndian i.op.operandKind.size n ++ rest.drop (i.size - 1) := by
  obtain ⟨code, len, op, operand, k, hcode, hop, hoperand, rfl⟩ := decodeOne_parts h
  obtain ⟨hlen, hbytes⟩ := decodeCode_inv hcode
  change op.operandKind ≠ .table at hk
  obtain ⟨n, hn, hreading, hk, hrest⟩ := decodeOperand_inv hk hoperand
  obtain rfl := code_of_ofCode hop
  subst hlen hreading hk
  refine ⟨hop, n, hn, rfl, ?_⟩
  rw [hbytes, List.append_assoc]
  congr 1
  have hpos := (decodeCode_ok hcode).1
  rw [List.drop_drop] at hrest
  have hadd : (codeBytes op.code).length - 1 + op.operandKind.size =
      (codeBytes op.code).length + op.operandKind.size - 1 := by omega
  rw [hadd] at hrest
  exact hrest

theorem decodeOne_inv {o : Nat} (h : decodeOne o b rest = .ok i) (hl : i.op.operandKind.isListed = true) :
    ∃ n, i.Listed n ∧ b :: rest = codeBytes i.op.code ++ littleEndian i.op.operandKind.size n ++
    rest.drop (i.size - 1) := by
  obtain ⟨hknown, n, hn, heq, hbytes⟩ := decodeOne_reading h (ne_table_of_isListed hl)
  have hoffset : i.offset = o := (decodeOne_ok h).1
  exact ⟨n, ⟨List.mem_of_find?_eq_some hknown, hknown, hl, hn, by rw [hoffset]; exact heq⟩, hbytes⟩

def calls (is : List Instruction) : List Call := is.flatMap fun i ↦ [.mark (offsetLabel i.offset), i.call]

theorem chunk_call {n : Nat} (h : i.Listed n)
    (ht : i.op.operandKind ∈ [OperandKind.branch8, .branch32] →
      ∃ t : Nat, i.target = t ∧ labels.lookup (offsetLabel t) = some t) :
    Chunk labels i.offset i.call (codeBytes i.op.code ++ littleEndian i.op.operandKind.size n) := by
  by_cases hb : i.op.operandKind ∈ [OperandKind.branch8, .branch32]
  · obtain ⟨t, ht, hlookup⟩ := ht hb
    have hcall : i.call = .branch i.op.code (offsetLabel t) := by
      rw [← ht, Instruction.call]
      rcases List.mem_pair.mp hb with hk | hk <;> rw [hk]
    rw [hcall]
    refine .branch h.known hb ⟨t, hlookup, ?_⟩
    have hn := h.small
    rw [h.eq] at ht
    have hdistance : ∀ w, 0 < w → n < 2 ^ w → ∀ next : Nat, (next : Int) + signedOf w n = t →
        (t : Int) - next = signedOf w n ∧ -2 ^ (w - 1) ≤ signedOf w n ∧ signedOf w n < 2 ^ (w - 1) := by
      intro w hw hlt next hnext
      exact ⟨by omega, signedOf_range hw hlt⟩
    rcases List.mem_pair.mp hb with hk | hk
    · rw [hk] at hn ⊢
      simp only [Instruction.reading, Instruction.target, OperandKind.reading, hk] at ht
      obtain ⟨hd, hlo, hhi⟩ := hdistance 8 (by decide) hn _ ht
      refine ⟨?_, (littleEndian_wordOfInt (.inl rfl) ?_).symm⟩
      · rw [OperandKind.Spans, if_pos rfl, OperandKind.size, hd]
        omega
      · rw [OperandKind.size, hd]
        exact signedOf_dvd 8 n
    · rw [hk] at hn ⊢
      simp only [Instruction.reading, Instruction.target, OperandKind.reading, hk] at ht
      obtain ⟨hd, hlo, hhi⟩ := hdistance 32 (by decide) hn _ ht
      refine ⟨?_, (littleEndian_wordOfInt (.inr (.inr (.inl rfl))) ?_).symm⟩
      · rw [OperandKind.Spans, if_neg (by decide), OperandKind.size, hd]
        omega
      · rw [OperandKind.size, hd]
        exact signedOf_dvd 32 n
  · obtain ⟨himm, hcode, hkinds, hbytes⟩ := immediate_call (o := i.offset) h.listed hb h.small
    rw [← h.eq] at himm hcode hkinds hbytes
    rw [← hbytes]
    exact .immediate himm hcode h.known hkinds

def Operand.offsets : Operand → List Int
  | .targets ts => ts
  | _ => []

def Aims (is : List Instruction) : Prop := ∀ i ∈ is, ∀ t ∈ i.operand.offsets, ∃ j ∈ is, t = j.offset

instance (is : List Instruction) : Decidable (Aims is) :=
  inferInstanceAs (Decidable (∀ i ∈ is, ∀ t ∈ i.operand.offsets, ∃ j ∈ is, t = j.offset))

theorem Instruction.Listed.target_mem {n : Nat} (h : i.Listed n)
    (hb : i.op.operandKind ∈ [OperandKind.branch8, .branch32]) : i.target ∈ i.operand.offsets := by
  rw [h.eq]
  rcases List.mem_pair.mp hb with hk | hk <;>
    simp only [Instruction.reading, Instruction.target, OperandKind.reading, Operand.offsets, hk, List.mem_singleton]

theorem Instruction.Listed.size_eq {n : Nat} (h : i.Listed n) :
    i.size = (codeBytes i.op.code).length + i.op.operandKind.size := by
  rw [h.eq]
  rfl

theorem listed_of_decodeFrom {o : Nat} (h : decodeFrom o bs = (is, none))
    (hl : ∀ i ∈ is, i.op.operandKind.isListed = true) : ∀ i ∈ is, ∃ n, i.Listed n := by
  fun_induction decodeFrom o bs generalizing is with
  | case1 =>
    cases h
    exact List.forall_mem_nil _
  | case2 => cases h
  | case3 o b rest i hone more fault hrest ih =>
    cases h
    obtain ⟨hi, hl⟩ := List.forall_mem_cons.mp hl
    obtain ⟨n, hlisted, -⟩ := decodeOne_inv hone hi
    exact List.forall_mem_cons.mpr ⟨⟨n, hlisted⟩, ih hrest hl⟩

theorem chunks_calls {o : Nat} (h : decodeFrom o bs = (is, none)) (hl : ∀ i ∈ is, i.op.operandKind.isListed = true)
    (ht : ∀ i ∈ is, i.op.operandKind ∈ [OperandKind.branch8, .branch32] →
      ∃ t : Nat, i.target = t ∧ labels.lookup (offsetLabel t) = some t) : Chunks labels o (calls is) bs := by
  fun_induction decodeFrom o bs generalizing is with
  | case1 =>
    cases h
    exact .nil
  | case2 => cases h
  | case3 o b rest i hone more fault hrest ih =>
    cases h
    obtain ⟨hi, hl⟩ := List.forall_mem_cons.mp hl
    obtain ⟨hti, ht⟩ := List.forall_mem_cons.mp ht
    obtain ⟨ho, -, -⟩ := decodeOne_ok hone
    obtain ⟨n, hlisted, hbytes⟩ := decodeOne_inv hone hi
    have hlength : (codeBytes i.op.code ++ littleEndian i.op.operandKind.size n).length = i.size := by
      rw [List.length_append, littleEndian_length, hlisted.size_eq]
    rw [hbytes, ← List.nil_append (_ ++ _)]
    refine .cons (.mark _) (.cons (ho ▸ chunk_call hlisted hti) ?_)
    rw [hlength]
    exact ih hrest hl ht

theorem Chunks.matches_ {o : Nat} {cs : List Call} (h : Chunks labels o cs bs) : ∀ c ∈ cs, c.Matches := by
  induction h with
  | nil => nofun
  | cons hb _ ih => exact List.forall_mem_cons.mpr ⟨hb.matches_, ih⟩

theorem size_run_immediate {c : Call} {code : UInt16} (himm : c.isImmediate = true) (hcode : c.code? = some code)
    (hop : Opcode.ofCode? code = some op) (hk : op.operandKind ∈ c.kinds) (a : Assembler) :
    (c.run a).size = a.size + ((codeBytes code).length + c.immediate.length) := by
  cases c.shape with
  | immediate _ hcode' _ hrun =>
    rw [hcode] at hcode'
    cases hcode'
    rw [hrun, emitCode_known _ _ _ hop hk]
    simp [Assembler.size, Assembler.append]
  | branch => cases himm
  | switch => cases himm
  | mark => cases himm

theorem size_run_call {n : Nat} (h : i.Listed n) (a : Assembler) : (i.call.run a).size = a.size + i.size := by
  rw [h.size_eq]
  by_cases hb : i.op.operandKind ∈ [OperandKind.branch8, .branch32]
  · have hcall : i.call = .branch i.op.code (offsetLabel i.target) := by
      rw [Instruction.call]
      rcases List.mem_pair.mp hb with hk | hk <;> rw [hk]
    rw [hcall, run_branch h.known hb]
    simp [Assembler.size, Assembler.append]
  · obtain ⟨himm, hcode, hkinds, hbytes⟩ := immediate_call (o := i.offset) h.listed hb h.small
    rw [← h.eq] at himm hcode hkinds hbytes
    rw [size_run_immediate himm hcode h.known hkinds, hbytes, littleEndian_length]

theorem size_run_calls {stop : Nat} {a : Assembler} (hc : Chain a.size is stop) (hall : ∀ i ∈ is, ∃ n, i.Listed n) :
    ((calls is).foldl Call.run a).size = stop := by
  induction is generalizing a with
  | nil =>
    cases hc
    rfl
  | cons i is ih =>
    obtain ⟨⟨n, hi⟩, hall⟩ := List.forall_mem_cons.mp hall
    cases hc with
    | cons ho _ hrest =>
      have hmark : ((Call.mark (offsetLabel i.offset)).run a).size = a.size := by
        simp only [Call.run, Assembler.mark, Assembler.size]
        split <;> simp
      have hsize : (i.call.run ((Call.mark (offsetLabel i.offset)).run a)).size = i.next := by
        rw [size_run_call hi, hmark, ← ho, Instruction.next]
      exact ih (hsize ▸ hrest) hall

theorem marks_calls (is : List Instruction) : marks (calls is) = is.map fun i ↦ offsetLabel i.offset := by
  induction is with
  | nil => rfl
  | cons i is ih =>
    have hcode : marks [i.call] = [] := by
      unfold Instruction.call
      split <;> rfl
    calc marks (calls (i :: is)) = marks ([.mark (offsetLabel i.offset)] ++ [i.call] ++ calls is) := rfl
      _ = offsetLabel i.offset :: (marks [i.call] ++ marks (calls is)) := by
          simp only [marks, List.filterMap_append]
          rfl
      _ = _ := by rw [hcode, ih]; rfl

theorem Chain.nodup_offsets {o stop : Nat} (h : Chain o is stop) : (is.map Instruction.offset).Nodup := by
  induction h with
  | nil => exact List.nodup_nil
  | cons ho hpos hrest ih =>
    rename_i o i is stop
    refine List.nodup_cons.mpr ⟨fun hmem ↦ ?_, ih⟩
    obtain ⟨j, hj, heq⟩ := List.mem_map.mp hmem
    have hlt : i.offset < i.next := Nat.lt_add_of_pos_right hpos
    have hle := (hrest.mem hj).1
    omega

theorem markedAt_calls {stop : Nat} (hc : Chain 0 is stop) (hall : ∀ i ∈ is, ∃ n, i.Listed n) (hi : i ∈ is) :
    MarkedAt (calls is) (offsetLabel i.offset) i.offset := by
  obtain ⟨pre, post, rfl⟩ := List.append_of_mem hi
  obtain ⟨mid, hpre, hpost⟩ := hc.split
  refine ⟨calls pre, i.call :: calls post, by simp [calls], ?_⟩
  rw [assembled, size_run_calls (a := {}) hpre fun j hj ↦ hall j (List.mem_append_left _ hj)]
  cases hpost with
  | cons ho _ _ => exact ho.symm

theorem nodup_marks_calls {o stop : Nat} (hc : Chain o is stop) : (marks (calls is)).Nodup := by
  rw [marks_calls]
  have hnodup := hc.nodup_offsets.map (f := fun o : Nat ↦ offsetLabel o) fun _ _ ↦ offsetLabel_inj
  rwa [List.map_map] at hnodup

theorem bytes_calls {code : Bytes} (h : decodeAll code = (is, none)) (hl : ∀ i ∈ is, i.op.operandKind.isListed = true)
    (haims : Aims is) : (assembled (calls is)).bytes = .ok code := by
  have hchain : Chain 0 is code.length := Nat.zero_add code.length ▸ decodeFrom_chain h
  have hall := listed_of_decodeFrom h hl
  have hnodup := nodup_marks_calls hchain
  have hchunks : Chunks (assembled (calls is)).labels 0 (calls is) code := by
    refine chunks_calls h hl fun i hi hb ↦ ?_
    obtain ⟨n, hn⟩ := hall i hi
    obtain ⟨j, hj, ht⟩ := haims i hi _ (hn.target_mem hb)
    exact ⟨j.offset, ht, (lookup_iff hnodup).mpr (markedAt_calls hchain hall hj)⟩
  exact (bytes_eq_iff (calls is) code).mpr ⟨⟨hchunks.matches_, hnodup⟩, hchunks⟩

end decoding

section reading

variable {σ ε : Type} {r : TokenResolver σ ε} {s : σ} {n : Nat} {i : Instruction} {is : List Instruction}

theorem toList_listed (i : Instruction) :
    i.listed.toList = (offsetLabel i.offset).toList ++ ':' :: ' ' :: i.text.toList := by
  simp [Instruction.listed]

theorem Instruction.Listed.phrase {n : Nat} (h : i.Listed n)
    (ht : i.op.operandKind ∈ [OperandKind.branch8, .branch32] → ∃ t : Nat, i.target = t) : Phrase i.text.toList := by
  by_cases hk : i.op.operandKind = .none
  · rw [text_none hk]
    exact .one (word_mnemonic h.mem)
  · rw [text_operand h.listed hk]
    exact .two (word_mnemonic h.mem) (word_operandText ht)

theorem Instruction.Listed.one_line {n : Nat} (h : i.Listed n)
    (ht : i.op.operandKind ∈ [OperandKind.branch8, .branch32] → ∃ t : Nat, i.target = t) : '\n' ∉ i.listed.toList := by
  rw [toList_listed, List.mem_append, List.mem_cons, List.mem_cons]
  rintro (hmem | hmem | hmem | hmem)
  · exact (word_offsetLabel i.offset).notMem (by decide) hmem
  · exact absurd hmem (by decide)
  · exact absurd hmem (by decide)
  · exact absurd ((h.phrase ht).mem hmem) (by decide)

theorem byteLength_le (cs : List Char) : byteLength cs ≤ 4 * cs.length := by
  induction cs with
  | nil => exact Nat.le_refl _
  | cons c cs ih =>
    have hc := c.utf8Size_le_four
    rw [byteLength, List.foldr_cons, List.length_cons]
    change c.utf8Size + byteLength cs ≤ _
    omega

theorem Instruction.Listed.byteLength_lt {n : Nat} (h : i.Listed n) (ho : i.offset < 2 ^ 64)
    (ht : i.op.operandKind ∈ [OperandKind.branch8, .branch32] → ∃ t : Nat, i.target = t ∧ t < 2 ^ 64) :
    byteLength i.listed.toList < lineLimit := by
  have hlabel := length_offsetLabel ho
  have hname := (mnemonic_word i.op h.mem).2.1
  have htext : i.text.toList.length ≤ 42 := by
    by_cases hk : i.op.operandKind = .none
    · rw [text_none hk]
      omega
    · have hoperand : i.operandText.toList.length ≤ 21 := by
        rw [h.eq] at ht ⊢
        exact length_operandText h.small ht
      rw [text_operand h.listed hk, List.length_append, List.length_cons]
      omega
  have hle := byteLength_le i.listed.toList
  rw [toList_listed, List.length_append, List.length_cons, List.length_cons] at hle
  rw [toList_listed, lineLimit]
  omega

theorem assembleLines_listed (hr : ∀ op t s, ∃ s', r op t.text s = .ok (t, s')) (hall : ∀ i ∈ is, ∃ n, i.Listed n)
    (ho : ∀ i ∈ is, i.offset < 2 ^ 64)
    (ht : ∀ i ∈ is, i.op.operandKind ∈ [OperandKind.branch8, .branch32] → ∃ t : Nat, i.target = t ∧ t < 2 ^ 64)
    (number : Nat) (a : Assembler) (s : σ) :
    ∃ s', assembleLines (some r) number a s (is.map fun i ↦ i.listed.toList) =
    .ok ((calls is).foldl Call.run a, s') := by
  induction is generalizing number a s with
  | nil => exact ⟨s, rfl⟩
  | cons i is ih =>
    obtain ⟨⟨n, hi⟩, hall⟩ := List.forall_mem_cons.mp hall
    obtain ⟨hoi, ho⟩ := List.forall_mem_cons.mp ho
    obtain ⟨hti, ht⟩ := List.forall_mem_cons.mp ht
    have htarget : i.op.operandKind ∈ [OperandKind.branch8, .branch32] → ∃ t : Nat, i.target = t :=
      fun hb ↦ (hti hb).imp fun _ ↦ And.left
    have hphrase := hi.phrase htarget
    have hlabel : isLabel (String.ofList (offsetLabel i.offset).toList) = true := by
      rw [String.ofList_toList]
      exact isLabel_offsetLabel _
    have hsplit : splitLabels (stripComment (chomp i.listed.toList)) = ([offsetLabel i.offset], i.text.toList) := by
      rw [toList_listed, splitLabels_line (word_offsetLabel _) hlabel hphrase, String.ofList_toList]
    obtain ⟨s₁, hline⟩ := emitLine_text (o := i.offset) hr hi.mem hi.listed hi.small (by rwa [← hi.eq])
      (a.mark (offsetLabel i.offset)) s
    rw [← hi.eq] at hline
    obtain ⟨s₂, hrest⟩ := ih hall ho ht (number + 1) (i.call.run (a.mark (offsetLabel i.offset))) s₁
    refine ⟨s₂, ?_⟩
    rw [List.map_cons, assembleLines, if_neg (Nat.not_le.mpr (hi.byteLength_lt hoi hti)), hsplit]
    dsimp only [List.foldl_cons, List.foldl_nil]
    rw [if_neg hphrase.ne_nil, hline]
    exact hrest

theorem rawLines_listing (h : ∀ i ∈ is, '\n' ∉ i.listed.toList) :
    rawLines (listing is) = is.map fun i ↦ i.listed.toList := by
  have hjoin : listing is = String.ofList ((is.map fun i ↦ i.listed.toList).flatMap (· ++ ['\n'])) := by
    apply String.toList_inj.mp
    rw [listing, String.toList_join, String.toList_ofList, List.flatMap_map, List.flatMap_map]
    simp
  rw [hjoin, rawLines_join]
  intro line hline
  obtain ⟨i, hi, rfl⟩ := List.mem_map.mp hline
  exact h i hi

end reading

/-- Reading a listing gives the code that was listed, for code without jump tables and floating-point constants whose
branches go to instructions. The resolver reads tokens in the form in which they are listed. -/
theorem assemble_disassemble {σ ε : Type} (r : TokenResolver σ ε) (hr : ∀ op t s, ∃ s', r op t.text s = .ok (t, s'))
    (s : σ) (code : Bytes) (is : List Instruction) (hcode : code.length < 2 ^ 63) (h : decodeAll code = (is, none))
    (hops : ∀ i ∈ is, i.op ∉ [Opcode.switch, .ldcR4, .ldcR8]) (haims : Aims is) :
    ∃ s', assemble (some r) s (disassemble code) = .ok (code, s') := by
  have hl : ∀ i ∈ is, i.op.operandKind.isListed = true := by
    intro i hi
    have hop := hops i hi
    simp only [List.mem_cons, List.not_mem_nil, or_false, not_or] at hop
    exact isListed_of hop.1 hop.2.1 hop.2.2
  have hchain : Chain 0 is code.length := Nat.zero_add code.length ▸ decodeFrom_chain h
  have hall := listed_of_decodeFrom h hl
  have ho : ∀ i ∈ is, i.offset < 2 ^ 64 := by
    intro i hi
    have hmem := hchain.mem hi
    omega
  have ht : ∀ i ∈ is, i.op.operandKind ∈ [OperandKind.branch8, .branch32] → ∃ t : Nat, i.target = t ∧ t < 2 ^ 64 := by
    intro i hi hb
    obtain ⟨n, hn⟩ := hall i hi
    obtain ⟨j, hj, ht⟩ := haims i hi _ (hn.target_mem hb)
    exact ⟨j.offset, ht, ho j hj⟩
  have hline : ∀ i ∈ is, '\n' ∉ i.listed.toList := by
    intro i hi
    obtain ⟨n, hn⟩ := hall i hi
    exact hn.one_line fun hb ↦ (ht i hi hb).imp fun _ ↦ And.left
  obtain ⟨s', hlines⟩ := assembleLines_listed hr hall ho ht 1 {} s
  refine ⟨s', ?_⟩
  have hbytes : ((calls is).foldl Call.run {}).bytes = .ok code := bytes_calls h hl haims
  rw [assemble, disassemble, h, rawLines_listing hline, hlines]
  dsimp only
  rw [hbytes]

def numericTokens : TokenResolver Unit LiteralError := fun _ text _ ↦
  (parseUnsigned 32 text).map fun n ↦ (⟨n.toUInt32⟩, ())

def listedSample : Bytes :=
  [0x1F, 0xFD, 0x20, 0x39, 0x30, 0, 0, 0x28, 0x01, 0, 0, 0x06, 0xFE, 0x09, 0x02, 0, 0x2D, 0xEE, 0x2A]

theorem assemble_listedSample : disassemble listedSample =
      "IL_0000: ldc.i4.s -3\nIL_0002: ldc.i4 12345\nIL_0007: call 0x06000001\nIL_000c: ldarg 2\n" ++
        "IL_0010: brtrue.s IL_0000\nIL_0012: ret\n" ∧
    assemble (some numericTokens) () (disassemble listedSample) = .ok (listedSample, ()) := by
  refine ⟨by decide +kernel, ?_⟩
  have hr : ∀ op t s, ∃ s', numericTokens op (Token.text t) s = .ok (t, s') := by
    rintro - t -
    refine ⟨(), ?_⟩
    rw [numericTokens, parseUnsigned_tokenText]
    simp [Except.map]
  obtain ⟨⟨⟩, h⟩ := assemble_disassemble numericTokens hr () listedSample (decodeAll listedSample).1 (by decide)
    (by decide +kernel) (by decide +kernel) (by decide +kernel)
  exact h

end CilSsa.Bytecode

