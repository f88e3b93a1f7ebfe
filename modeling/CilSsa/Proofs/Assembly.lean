import Mathlib.Data.List.Induction
import Mathlib.Data.List.Nodup
import CilSsa.Bytecode.Assembler
import CilSsa.Proofs.Traversals
import CilSsa.Proofs.Words

namespace CilSsa.Bytecode

open CilSsa.Metadata CilSsa.Number CilSsa.Text

/-- A call of the assembler. -/
inductive Call
  | plain (code : UInt16)
  | int8 (code : UInt16) (v : Int8)
  | uint8 (code : UInt16) (v : UInt8)
  | uint16 (code : UInt16) (v : UInt16)
  | int32 (code : UInt16) (v : Int32)
  | int64 (code : UInt16) (v : Int64)
  | float32 (code : UInt16) (bits : UInt32)
  | float64 (code : UInt16) (bits : UInt64)
  | token (code : UInt16) (t : Token)
  | branch (code : UInt16) (label : String)
  | switch (labels : List String)
  | mark (label : String)
deriving DecidableEq

namespace Call

def run (a : Assembler) : Call → Assembler
  | .plain code => a.emit code
  | .int8 code v => a.emitByte code v.toUInt8.toNat
  | .uint8 code v => a.emitByte code v.toNat
  | .uint16 code v => a.emitIndex code v.toNat
  | .int32 code v => a.emitInt32 code v.toUInt32.toNat
  | .int64 code v => a.emitInt64 code v.toUInt64.toNat
  | .float32 code bits => a.emitFloat32 code bits
  | .float64 code bits => a.emitFloat64 code bits
  | .token code t => a.emitToken code t
  | .branch code label => a.emitBranch code label
  | .switch labels => a.emitSwitch labels
  | .mark label => a.mark label

def code? : Call → Option UInt16
  | .plain c | .int8 c _ | .uint8 c _ | .uint16 c _ | .int32 c _ | .int64 c _ | .float32 c _ | .float64 c _
  | .token c _ | .branch c _ => some c
  | .switch _ => some Opcode.switch.code
  | .mark _ => none

def kinds : Call → List OperandKind
  | .plain _ => [.none]
  | .int8 .. | .uint8 .. => [.int8, .uint8]
  | .uint16 .. => [.uint16]
  | .int32 .. => [.int32]
  | .int64 .. => [.int64]
  | .float32 .. => [.float32]
  | .float64 .. => [.float64]
  | .token .. => [.token]
  | .branch .. => [.branch8, .branch32]
  | .switch _ => [.table]
  | .mark _ => []

def refs : Call → List String
  | .branch _ l => [l]
  | .switch ls => ls
  | _ => []

def Matches (c : Call) : Prop := ∀ code, c.code? = some code → ∃ op, Opcode.ofCode? code = some op ∧
    op.operandKind ∈ c.kinds

end Call

def assembled (calls : List Call) : Assembler := calls.foldl Call.run {}

def MarkedAt (calls : List Call) (label : String) (t : Nat) : Prop :=
  ∃ before after, calls = before ++ .mark label :: after ∧ (assembled before).size = t

def marks (calls : List Call) : List String :=
  calls.filterMap fun
    | .mark l => some l
    | _ => none

/-- A distance can be written in the operand of an instruction of some kind. -/
def OperandKind.Spans (kind : OperandKind) (distance : Int) : Prop :=
  if kind = .branch8 then -128 ≤ distance ∧ distance ≤ 127 else -2147483648 ≤ distance ∧ distance ≤ 2147483647

/-- The calls fit together. Distances count from the end of the instruction. -/
structure Fits (calls : List Call) : Prop where
  matches_ : ∀ c ∈ calls, c.Matches
  once : (marks calls).Nodup
  marked : ∀ c ∈ calls, ∀ l ∈ c.refs, l ∈ marks calls
  near : ∀ before c after code op l t, calls = before ++ c :: after → c.code? = some code →
    Opcode.ofCode? code = some op → l ∈ c.refs → MarkedAt calls l t →
    op.operandKind.Spans ((t : Int) - (assembled (before ++ [c])).size)

section assembler

variable (a : Assembler)

@[simp] theorem fail_code (e : AssemblyError) : (a.fail e).code = a.code := by
  unfold Assembler.fail
  split <;> rfl

@[simp] theorem fail_labels (e : AssemblyError) : (a.fail e).labels = a.labels := by
  unfold Assembler.fail
  split <;> rfl

@[simp] theorem fail_fixups (e : AssemblyError) : (a.fail e).fixups = a.fixups := by
  unfold Assembler.fail
  split <;> rfl

theorem fail_fault (e : AssemblyError) : (a.fail e).fault ≠ none := by
  unfold Assembler.fail
  split
  · nofun
  · simp [*]

@[simp] theorem append_labels (bs : Bytes) : (a.append bs).labels = a.labels := rfl

@[simp] theorem append_fixups (bs : Bytes) : (a.append bs).fixups = a.fixups := rfl

@[simp] theorem append_fault (bs : Bytes) : (a.append bs).fault = a.fault := rfl

theorem append_nil : a.append [] = a := by
  simp [Assembler.append]

variable (code : UInt16) (kinds : List OperandKind)

@[simp] theorem emitCode_labels : (a.emitCode code kinds).labels = a.labels := by
  unfold Assembler.emitCode
  split
  · simp
  · dsimp only
    split <;> simp

@[simp] theorem emitCode_fixups : (a.emitCode code kinds).fixups = a.fixups := by
  unfold Assembler.emitCode
  split
  · simp
  · dsimp only
    split <;> simp

theorem emitCode_known {op : Opcode} (hop : Opcode.ofCode? code = some op) (hk : op.operandKind ∈ kinds) :
    a.emitCode code kinds = a.append (codeBytes code) := by
  simp [Assembler.emitCode, hop, hk]

theorem emitCode_fault : (a.emitCode code kinds).fault = none ↔
    a.fault = none ∧ ∃ op, Opcode.ofCode? code = some op ∧ op.operandKind ∈ kinds := by
  cases hop : Opcode.ofCode? code with
  | none =>
    simp only [Assembler.emitCode, hop, reduceCtorEq, false_and, exists_false, and_false, iff_false]
    exact fail_fault a _
  | some op =>
    by_cases hk : op.operandKind ∈ kinds
    · rw [emitCode_known a code kinds hop hk]
      exact ⟨fun h ↦ ⟨h, op, rfl, hk⟩, fun h ↦ h.1⟩
    · simp only [Assembler.emitCode, hop, List.contains_eq_mem, hk, decide_false, append_fault]
      refine ⟨fun h ↦ absurd h (fail_fault a _), ?_⟩
      rintro ⟨-, op', heq, hk'⟩
      cases heq
      exact absurd hk' hk

end assembler

namespace Call

def immediate : Call → Bytes
  | .int8 _ v => littleEndian 1 v.toUInt8.toNat
  | .uint8 _ v => littleEndian 1 v.toNat
  | .uint16 _ v => littleEndian 2 v.toNat
  | .int32 _ v => littleEndian 4 v.toUInt32.toNat
  | .int64 _ v => littleEndian 8 v.toUInt64.toNat
  | .float32 _ bits => littleEndian 4 bits.toNat
  | .float64 _ bits => littleEndian 8 bits.toNat
  | .token _ t => littleEndian 4 t.raw.toNat
  | _ => []

def isImmediate : Call → Bool
  | .branch .. | .switch _ | .mark _ => false
  | _ => true

/-- Calls that emit a code with an operand, branches and tables, and marks. -/
inductive Shape : Call → Prop
  | immediate {c : Call} {code : UInt16} : c.isImmediate = true → c.code? = some code → c.refs = [] →
      (∀ a, c.run a = (a.emitCode code c.kinds).append c.immediate) → Shape c
  | branch (code : UInt16) (l : String) : Shape (.branch code l)
  | switch (ls : List String) : Shape (.switch ls)
  | mark (l : String) : Shape (.mark l)

theorem shape (c : Call) : Shape c := by
  cases c with
  | plain code => exact .immediate rfl rfl rfl fun a ↦ (append_nil _).symm
  | int8 code v => exact .immediate rfl rfl rfl fun _ ↦ rfl
  | uint8 code v => exact .immediate rfl rfl rfl fun _ ↦ rfl
  | uint16 code v => exact .immediate rfl rfl rfl fun _ ↦ rfl
  | int32 code v => exact .immediate rfl rfl rfl fun _ ↦ rfl
  | int64 code v => exact .immediate rfl rfl rfl fun _ ↦ rfl
  | float32 code bits => exact .immediate rfl rfl rfl fun _ ↦ rfl
  | float64 code bits => exact .immediate rfl rfl rfl fun _ ↦ rfl
  | token code t => exact .immediate rfl rfl rfl fun _ ↦ rfl
  | branch code l => exact .branch code l
  | switch ls => exact .switch ls
  | mark l => exact .mark l

theorem matches_iff {c : Call} {code : UInt16} (h : c.code? = some code) :
    c.Matches ↔ ∃ op, Opcode.ofCode? code = some op ∧ op.operandKind ∈ c.kinds := by
  unfold Matches
  rw [h]
  exact ⟨fun hm ↦ hm code rfl, fun hm code' heq ↦ by cases heq; exact hm⟩

theorem matches_mark (l : String) : (Call.mark l).Matches := nofun

/-- No fault is noted exactly when the call matches and marks no label again. -/
theorem run_fault (a : Assembler) (c : Call) : (c.run a).fault = none ↔
    a.fault = none ∧ c.Matches ∧ ∀ l, c = .mark l → a.labels.lookup l = none := by
  cases c.shape with
  | immediate _ hc hr hrun =>
    rw [hrun, append_fault, emitCode_fault, matches_iff hc]
    refine and_congr_right fun _ ↦ ⟨fun h ↦ ⟨h, ?_⟩, fun h ↦ h.1⟩
    rintro l rfl
    cases hc
  | branch code l =>
    rw [matches_iff rfl]
    simp only [run, Assembler.emitBranch, append_fault, emitCode_fault, kinds, reduceCtorEq,
      false_implies, implies_true, and_true]
  | switch ls =>
    rw [matches_iff rfl]
    simp only [run, Assembler.emitSwitch, append_fault, emitCode_fault, kinds, reduceCtorEq,
      false_implies, implies_true, and_true]
  | mark l =>
    have hm : (∀ l', Call.mark l = .mark l' → a.labels.lookup l' = none) ↔ a.labels.lookup l = none :=
      ⟨fun h ↦ h l rfl, fun h l' heq ↦ by cases heq; exact h⟩
    rw [hm, run, Assembler.mark]
    cases hl : a.labels.lookup l with
    | none => simp [matches_mark]
    | some t => simp [fail_fault]

theorem run_labels (a : Assembler) (c : Call) (l : String) : (c.run a).labels.lookup l =
    if c = .mark l ∧ a.labels.lookup l = none then some a.size else a.labels.lookup l := by
  cases c.shape with
  | immediate _ hc hr hrun =>
    rw [hrun, append_labels, emitCode_labels, if_neg]
    rintro ⟨rfl, -⟩
    cases hc
  | branch code l => simp [run, Assembler.emitBranch]
  | switch ls => simp [run, Assembler.emitSwitch]
  | mark l' =>
    rw [run, Assembler.mark]
    by_cases h : l = l'
    · subst h
      cases hl : a.labels.lookup l with
      | none => simp
      | some t => simp [hl]
    · have hne : ¬ Call.mark l' = .mark l := fun heq ↦ h (by injection heq with heq; exact heq.symm)
      cases hl : a.labels.lookup l' with
      | none => simp [List.lookup_cons, beq_eq_false_iff_ne.mpr h, hne]
      | some t => simp [hne]

end Call

theorem assembled_snoc (calls : List Call) (c : Call) : assembled (calls ++ [c]) = c.run (assembled calls) := by
  simp [assembled]

theorem marks_snoc (calls : List Call) (c : Call) : marks (calls ++ [c]) = marks calls ++ marks [c] := by
  simp [marks]

theorem marks_single (c : Call) : marks [c] = [] ∧ (∀ l, c ≠ .mark l) ∨ ∃ l, c = .mark l ∧ marks [c] = [l] := by
  cases c <;> first | exact .inr ⟨_, rfl, rfl⟩ | exact .inl ⟨rfl, nofun⟩

theorem markedAt_snoc {calls : List Call} {c : Call} {l : String} {t : Nat} :
    MarkedAt (calls ++ [c]) l t ↔ MarkedAt calls l t ∨ c = .mark l ∧ (assembled calls).size = t := by
  constructor
  · rintro ⟨before, after, heq, ht⟩
    rcases List.eq_nil_or_concat after with rfl | ⟨after, c', rfl⟩
    · obtain ⟨rfl, hc⟩ := List.append_inj' heq rfl
      exact .inr ⟨List.head_eq_of_cons_eq hc, ht⟩
    · rw [List.concat_eq_append, ← List.cons_append, ← List.append_assoc] at heq
      obtain ⟨rfl, -⟩ := List.append_inj' heq rfl
      exact .inl ⟨before, after, rfl, ht⟩
  · rintro (⟨before, after, rfl, ht⟩ | ⟨rfl, ht⟩)
    · exact ⟨before, after ++ [c], by simp, ht⟩
    · exact ⟨calls, [], rfl, ht⟩

theorem mem_marks {calls : List Call} {l : String} : l ∈ marks calls ↔ .mark l ∈ calls := by
  unfold marks
  rw [List.mem_filterMap]
  constructor
  · rintro ⟨c, hc, h⟩
    cases c <;> simp only [reduceCtorEq, Option.some.injEq] at h
    subst h
    exact hc
  · exact fun h ↦ ⟨_, h, rfl⟩

theorem MarkedAt.mem {calls : List Call} {l : String} {t : Nat} (h : MarkedAt calls l t) : l ∈ marks calls := by
  obtain ⟨before, after, rfl, -⟩ := h
  exact mem_marks.mpr (by simp)

theorem lookup_labels (calls : List Call) (l : String) :
    (∀ t, (assembled calls).labels.lookup l = some t → MarkedAt calls l t) ∧
    ((assembled calls).labels.lookup l = none ↔ l ∉ marks calls) := by
  induction calls using List.reverseRecOn with
  | nil => simp [assembled, marks]
  | append_singleton calls c ih =>
    obtain ⟨hsome, hnone⟩ := ih
    rw [assembled_snoc, Call.run_labels]
    by_cases hc : c = .mark l ∧ (assembled calls).labels.lookup l = none
    · obtain ⟨rfl, hl⟩ := hc
      rw [if_pos ⟨rfl, hl⟩]
      refine ⟨?_, ?_⟩
      · rintro t ⟨⟩
        exact markedAt_snoc.mpr (.inr ⟨rfl, rfl⟩)
      · simp [marks]
    · rw [if_neg hc]
      refine ⟨fun t ht ↦ markedAt_snoc.mpr (.inl (hsome t ht)), ?_⟩
      rw [hnone, marks_snoc, List.mem_append, not_or]
      refine ⟨fun h ↦ ⟨h, fun hmem ↦ hc ⟨?_, hnone.mpr h⟩⟩, fun h ↦ h.1⟩
      exact (List.mem_singleton.mp (mem_marks.mp hmem)).symm

theorem lookup_iff {calls : List Call} (h : (marks calls).Nodup) {l : String} {t : Nat} :
    (assembled calls).labels.lookup l = some t ↔ MarkedAt calls l t := by
  refine ⟨(lookup_labels calls l).1 t, fun hm ↦ ?_⟩
  induction calls using List.reverseRecOn with
  | nil =>
    obtain ⟨before, after, heq, -⟩ := hm
    simp at heq
  | append_singleton calls c ih =>
    rw [marks_snoc, List.nodup_append'] at h
    rw [assembled_snoc, Call.run_labels]
    rcases markedAt_snoc.mp hm with hm | ⟨rfl, rfl⟩
    · have hfound := ih h.1 hm
      rw [if_neg (by rw [hfound]; simp), hfound]
    · have hnew : (assembled calls).labels.lookup l = none :=
        (lookup_labels calls l).2.mpr fun hmem ↦ h.2.2 hmem (List.mem_singleton.mpr rfl)
      rw [if_pos ⟨rfl, hnew⟩]

theorem fault_iff (calls : List Call) :
    (assembled calls).fault = none ↔ (∀ c ∈ calls, c.Matches) ∧ (marks calls).Nodup := by
  induction calls using List.reverseRecOn with
  | nil => simp [assembled, marks]
  | append_singleton calls c ih =>
    rw [assembled_snoc, Call.run_fault, ih, marks_snoc]
    have hmark : (∀ l, c = .mark l → (assembled calls).labels.lookup l = none) ↔
        (marks [c]).Nodup ∧ (marks calls).Disjoint (marks [c]) := by
      rcases marks_single c with ⟨hm, hne⟩ | ⟨l, rfl, hm⟩
      · simp [hm, hne]
      · rw [hm]
        simp only [List.nodup_singleton, List.disjoint_singleton, true_and, ← (lookup_labels calls l).2]
        exact ⟨fun h ↦ h l rfl, fun h l' heq ↦ by cases heq; exact h⟩
    rw [hmark, List.nodup_append']
    simp only [List.mem_append, List.mem_singleton, or_imp, forall_and, forall_eq]
    tauto

/-- The bytes of the distance to a label, in an instruction of some kind that ends at `next`. -/
def Writes (labels : List (String × Nat)) (kind : OperandKind) (next : Nat) (l : String) (bs : Bytes) : Prop :=
  ∃ t, labels.lookup l = some t ∧ kind.Spans ((t : Int) - next) ∧
    bs = littleEndian kind.size (wordOfInt ((t : Int) - next)).toNat

/-- The final code of a call at an offset. -/
inductive Chunk (labels : List (String × Nat)) (offset : Nat) : Call → Bytes → Prop
  | immediate {c : Call} {code : UInt16} {op : Opcode} : c.isImmediate = true → c.code? = some code →
      Opcode.ofCode? code = some op → op.operandKind ∈ c.kinds → Chunk labels offset c (codeBytes code ++ c.immediate)
  | branch {code : UInt16} {l : String} {op : Opcode} {bs : Bytes} : Opcode.ofCode? code = some op →
      op.operandKind ∈ [OperandKind.branch8, .branch32] →
      Writes labels op.operandKind (offset + (codeBytes code).length + op.operandKind.size) l bs →
      Chunk labels offset (.branch code l) (codeBytes code ++ bs)
  | switch {ls : List String} {entries : List Bytes} :
      List.Forall₂ (Writes labels .table (offset + 5 + 4 * ls.length)) ls entries →
      Chunk labels offset (.switch ls) (codeBytes Opcode.switch.code ++ littleEndian 4 ls.length ++ entries.flatten)
  | mark (l : String) : Chunk labels offset (.mark l) []

/-- The final code of some calls from an offset on. -/
inductive Chunks (labels : List (String × Nat)) : Nat → List Call → Bytes → Prop
  | nil {o : Nat} : Chunks labels o [] []
  | cons {o : Nat} {c : Call} {cs : List Call} {b bs : Bytes} : Chunk labels o c b →
      Chunks labels (o + b.length) cs bs → Chunks labels o (c :: cs) (b ++ bs)

section patch

open Assembler

variable {labels : List (String × Nat)}

theorem patch_toList {code : Array UInt8} {pre old post bs : Bytes} (hcode : code.toList = pre ++ old ++ post)
    (hlen : old.length = bs.length) : (patch code pre.length bs).toList = pre ++ bs ++ post := by
  induction bs generalizing code pre old with
  | nil =>
    obtain rfl := List.length_eq_zero_iff.mp hlen
    exact hcode
  | cons b bs ih =>
    obtain ⟨x, old, rfl⟩ := List.exists_cons_of_length_eq_add_one hlen
    have hset : (code.setIfInBounds pre.length b).toList = (pre ++ [b]) ++ old ++ post := by
      rw [Array.toList_setIfInBounds, hcode]
      simp
    rw [patch, show pre.length + 1 = (pre ++ [b]).length by simp, ih hset (by simpa using hlen)]
    simp

/-- A distance is filled in where it belongs, if it is known and near enough. -/
theorem resolve_iff {code code' : Array UInt8} {f : Fixup} {kind : OperandKind} (pre old post : Bytes)
    (hk : kind = .branch8 ∨ kind = .branch32 ∨ kind = .table) (hcode : code.toList = pre ++ old ++ post)
    (hpos : f.position = pre.length) (hold : old.length = kind.size) (hwidth : f.width = kind.size) :
    resolve labels code f = .ok code' ↔
      ∃ bs, Writes labels kind f.next f.label bs ∧ code'.toList = pre ++ bs ++ post := by
  unfold resolve Writes
  cases hl : labels.lookup f.label with
  | none => simp
  | some t =>
    have hpatch : ∀ n, (patch code f.position (littleEndian kind.size n)).toList = pre ++
        littleEndian kind.size n ++ post := by
      intro n
      rw [hpos]
      exact patch_toList hcode (by rw [hold, littleEndian_length])
    have hok : ∀ n, Except.ok (patch code f.position (littleEndian kind.size n)) =
      (.ok code' : Except AssemblyError _) ↔
        code'.toList = pre ++ littleEndian kind.size n ++ post := by
      intro n
      rw [← hpatch n, Except.ok.injEq, ← Array.toList_inj]
      exact eq_comm
    have hgoal : (∃ bs, (∃ t', some t = some t' ∧ kind.Spans ((t' : Int) - f.next) ∧
        bs = littleEndian kind.size (wordOfInt ((t' : Int) - f.next)).toNat) ∧ code'.toList = pre ++ bs ++ post) ↔
        kind.Spans ((t : Int) - f.next) ∧
          code'.toList = pre ++ littleEndian kind.size (wordOfInt ((t : Int) - f.next)).toNat ++ post := by
      constructor
      · rintro ⟨bs, ⟨t', heq, hs, rfl⟩, hc⟩
        cases heq
        exact ⟨hs, hc⟩
      · rintro ⟨hs, hc⟩
        exact ⟨_, ⟨t, rfl, hs, rfl⟩, hc⟩
    rw [hgoal]
    dsimp only
    rcases hk with rfl | rfl | rfl
    · rw [if_pos (show f.width = 1 from hwidth)]
      change _ ↔ (-128 ≤ (t : Int) - f.next ∧ (t : Int) - f.next ≤ 127) ∧ _
      split <;> rename_i h
      · exact (hok _).trans (and_iff_right h).symm
      · exact ⟨nofun, fun hc ↦ absurd hc.1 h⟩
    all_goals
      rw [if_neg (show ¬ f.width = 1 by rw [hwidth]; decide), if_pos (show f.width = 4 from hwidth)]
      change _ ↔ (-2147483648 ≤ (t : Int) - f.next ∧ (t : Int) - f.next ≤ 2147483647) ∧ _
      split <;> rename_i h
      · exact (hok _).trans (and_iff_right h).symm
      · exact ⟨nofun, fun hc ↦ absurd hc.1 h⟩

theorem patch_size (code : Array UInt8) (pos : Nat) (bs : Bytes) : (patch code pos bs).size = code.size := by
  induction bs generalizing code pos with
  | nil => rfl
  | cons b bs ih => rw [patch, ih, Array.size_setIfInBounds]

theorem patch_append {code more : Array UInt8} {pos : Nat} {bs : Bytes} (h : pos + bs.length ≤ code.size) :
    patch (code ++ more) pos bs = patch code pos bs ++ more := by
  induction bs generalizing code pos with
  | nil => rfl
  | cons b bs ih =>
    rw [List.length_cons] at h
    rw [patch, patch, ← ih (by rw [Array.size_setIfInBounds]; omega), Array.setIfInBounds_append_left (by omega)]

theorem resolve_append {code more : Array UInt8} {f : Fixup} (h : f.position + f.width ≤ code.size) :
    resolve labels (code ++ more) f = (resolve labels code f).map (· ++ more) := by
  unfold resolve
  cases labels.lookup f.label with
  | none => rfl
  | some t =>
    dsimp only
    split
    · split
      · rw [patch_append (by rw [littleEndian_length]; omega)]
        rfl
      · rfl
    · split
      · split
        · rw [patch_append (by rw [littleEndian_length]; omega)]
          rfl
        · rfl
      · rfl

theorem resolve_size {code code' : Array UInt8} {f : Fixup} (h : resolve labels code f = .ok code') :
    code'.size = code.size := by
  unfold resolve at h
  cases hl : labels.lookup f.label with
  | none =>
    rw [hl] at h
    cases h
  | some t =>
    rw [hl] at h
    dsimp only at h
    split at h
    · split at h <;> cases h
      exact patch_size ..
    · split at h
      · split at h <;> cases h
        exact patch_size ..
      · cases h
        rfl

theorem foldlM_resolve_append {fs : List Fixup} {code more : Array UInt8}
    (h : ∀ f ∈ fs, f.position + f.width ≤ code.size) :
    fs.foldlM (resolve labels) (code ++ more) = (fs.foldlM (resolve labels) code).map (· ++ more) := by
  induction fs generalizing code with
  | nil => rfl
  | cons f fs ih =>
    rw [List.foldlM_cons, List.foldlM_cons, resolve_append (h f List.mem_cons_self)]
    cases hr : resolve labels code f with
    | error e => rfl
    | ok code' =>
      refine ih fun g hg ↦ ?_
      rw [resolve_size hr]
      exact h g (List.mem_cons_of_mem _ hg)

theorem foldlM_resolve_size {fs : List Fixup} {code code' : Array UInt8}
    (h : fs.foldlM (resolve labels) code = .ok code') : code'.size = code.size := by
  induction fs generalizing code with
  | nil =>
    cases h
    rfl
  | cons f fs ih =>
    rw [List.foldlM_cons] at h
    cases hr : resolve labels code f with
    | error e =>
      rw [hr] at h
      cases h
    | ok code₁ =>
      rw [hr] at h
      rw [ih h, resolve_size hr]

theorem foldlM_entries {ls : List String} {k first next source : Nat} {code code' : Array UInt8} (pre : Bytes)
    (hcode : code.toList = pre ++ List.replicate (4 * ls.length) 0) (hpre : pre.length = first + 4 * k) :
    ((ls.zipIdx k).map fun (l, k) ↦ (⟨first + 4 * k, next, 4, l, source⟩ : Fixup)).foldlM (resolve labels)
    code = .ok code' ↔
      ∃ entries, List.Forall₂ (Writes labels .table next) ls entries ∧ code'.toList = pre ++ entries.flatten := by
  induction ls generalizing k code pre with
  | nil =>
    have hnil : code.toList = pre := by simpa using hcode
    simp only [List.zipIdx_nil, List.map_nil, List.foldlM_nil, List.forall₂_nil_left_iff, exists_eq_left,
      List.flatten_nil, List.append_nil, ← hnil]
    constructor
    · rintro ⟨⟩
      rfl
    · intro h
      rw [Array.toList_inj.mp h]
      rfl
  | cons l ls ih =>
    have hsplit : code.toList = pre ++ List.replicate 4 0 ++ List.replicate (4 * ls.length) 0 := by
      rw [hcode, List.length_cons, List.append_assoc, List.replicate_append_replicate, Nat.mul_succ, Nat.add_comm 4]
    have hone : ∀ code₁, resolve labels code ⟨first + 4 * k, next, 4, l, source⟩ = .ok code₁ ↔
        ∃ bs, Writes labels .table next l bs ∧ code₁.toList = pre ++ bs ++ List.replicate (4 * ls.length) 0 :=
      fun code₁ ↦ resolve_iff pre _ _ (.inr (.inr rfl)) hsplit hpre.symm rfl rfl
    rw [List.zipIdx_cons, List.map_cons, List.foldlM_cons]
    constructor
    · intro h
      cases hr : resolve labels code ⟨first + 4 * k, next, 4, l, source⟩ with
      | error e =>
        rw [hr] at h
        cases h
      | ok code₁ =>
        rw [hr] at h
        obtain ⟨bs, hw, hc⟩ := (hone code₁).mp hr
        obtain ⟨entries, hws, hc'⟩ := (ih (pre ++ bs) (k := k + 1) hc (by
          obtain ⟨t, -, -, rfl⟩ := hw
          rw [List.length_append, littleEndian_length, hpre, OperandKind.size]
          omega)).mp h
        exact ⟨bs :: entries, .cons hw hws, by rw [hc', List.flatten_cons, List.append_assoc]⟩
    · rintro ⟨entries, hws, hc'⟩
      cases hws with
      | cons hw hws =>
        rename_i bs entries
        have hr := (hone (pre ++ bs ++ List.replicate (4 * ls.length) 0).toArray).mpr ⟨bs, hw, rfl⟩
        rw [hr]
        refine (ih (pre ++ bs) (k := k + 1) rfl (by
          obtain ⟨t, -, -, rfl⟩ := hw
          rw [List.length_append, littleEndian_length, hpre, OperandKind.size]
          omega)).mpr ⟨entries, hws, ?_⟩
        rw [hc', List.flatten_cons, List.append_assoc]

end patch

/-- The code of an assembler with the distances filled in from some labels. -/
def filled (labels : List (String × Nat)) (a : Assembler) : Except AssemblyError (Array UInt8) :=
  a.fixups.toList.foldlM (Assembler.resolve labels) a.code

def Inside (a : Assembler) : Prop := ∀ f ∈ a.fixups.toList, f.position + f.width ≤ a.size

theorem Chunk.matches_ {labels : List (String × Nat)} {o : Nat} {c : Call} {b : Bytes} (h : Chunk labels o c b) :
    c.Matches := by
  cases h with
  | immediate _ hc hop hk => exact (Call.matches_iff hc).mpr ⟨_, hop, hk⟩
  | branch hop hk _ => exact (Call.matches_iff rfl).mpr ⟨_, hop, hk⟩
  | switch => exact (Call.matches_iff rfl).mpr ⟨.switch, by decide, List.mem_singleton.mpr rfl⟩
  | mark l => exact Call.matches_mark l

theorem length_entries {labels : List (String × Nat)} {next : Nat} {ls : List String} {entries : List Bytes}
    (h : List.Forall₂ (Writes labels .table next) ls entries) : entries.flatten.length = 4 * ls.length := by
  induction h with
  | nil => rfl
  | cons hone _ ih =>
    obtain ⟨t, -, -, rfl⟩ := hone
    rw [List.flatten_cons, List.length_append, littleEndian_length, ih, List.length_cons, OperandKind.size]
    omega

section step

variable {labels : List (String × Nat)} {a : Assembler}

theorem filled_extend (ha : Inside a) {a' : Assembler} {raw : Bytes} {new : List Fixup}
    (hcode : a'.code = a.code ++ raw.toArray) (hfix : a'.fixups.toList = a.fixups.toList ++ new) {code' : Array UInt8} :
    filled labels a' = .ok code' ↔
      ∃ code, filled labels a = .ok code ∧ new.foldlM (Assembler.resolve labels) (code ++ raw.toArray) = .ok code' := by
  unfold filled
  rw [hcode, hfix, List.foldlM_append, foldlM_resolve_append ha]
  cases a.fixups.toList.foldlM (Assembler.resolve labels) a.code with
  | error e =>
    constructor
    · nofun
    · rintro ⟨code, hc, -⟩
      cases hc
  | ok code =>
    constructor
    · exact fun h ↦ ⟨code, rfl, h⟩
    · rintro ⟨_, ⟨⟩, h⟩
      exact h

theorem filled_size {code : Array UInt8} (h : filled labels a = .ok code) : code.size = a.size :=
  foldlM_resolve_size h

theorem Inside.extend (ha : Inside a) {a' : Assembler} {raw : Bytes} {new : List Fixup}
    (hcode : a'.code = a.code ++ raw.toArray) (hfix : a'.fixups.toList = a.fixups.toList ++ new)
    (hnew : ∀ f ∈ new, f.position + f.width ≤ a.size + raw.length) : Inside a' := by
  have hsize : a'.size = a.size + raw.length := by simp [Assembler.size, hcode]
  intro f hf
  rw [hsize]
  rw [hfix] at hf
  rcases List.mem_append.mp hf with hf | hf
  · exact Nat.le_trans (ha f hf) (Nat.le_add_right _ _)
  · exact hnew f hf

theorem run_branch {code : UInt16} {op : Opcode} (hop : Opcode.ofCode? code = some op)
    (hk : op.operandKind ∈ [OperandKind.branch8, .branch32]) (l : String) : (Call.branch code l).run a =
      { (a.append (codeBytes code)).append (List.replicate op.operandKind.size 0) with
        fixups := a.fixups.push ⟨a.size + (codeBytes code).length, a.size + (codeBytes code).length +
        op.operandKind.size,
          op.operandKind.size, l, a.size⟩ } := by
  simp [Call.run, Assembler.emitBranch, emitCode_known a code [.branch8, .branch32] hop hk, hop, Assembler.append,
    Assembler.size, Nat.add_assoc]

theorem ofCode_switch : Opcode.ofCode? Opcode.switch.code = some .switch := by decide

theorem codeBytes_switch_length : (codeBytes Opcode.switch.code).length = 1 := by decide

theorem run_switch (a : Assembler) (ls : List String) : (Call.switch ls).run a =
    { ((a.append (codeBytes Opcode.switch.code)).append (littleEndian 4 ls.length)).append
        (List.replicate (4 * ls.length) 0) with
      fixups := a.fixups ++ (ls.zipIdx.map fun (l, k) ↦
        (⟨a.size + 5 + 4 * k, a.size + 5 + 4 * ls.length, 4, l, a.size⟩ : Fixup)).toArray } := by
  have hk : Opcode.switch.operandKind ∈ [OperandKind.table] := List.mem_singleton.mpr rfl
  simp [Call.run, Assembler.emitSwitch, emitCode_known a Opcode.switch.code [.table] ofCode_switch hk, Assembler.append,
    Assembler.size, codeBytes_switch_length, littleEndian_length, Nat.add_assoc]

/-- A call keeps the distances inside, and its chunk is what it adds to the final code. -/
structure Fills (labels : List (String × Nat)) (a : Assembler) (c : Call) : Prop where
  inside : Inside (c.run a)
  size : ∀ {b}, Chunk labels a.size c b → (c.run a).size = a.size + b.length
  code : ∀ {code'}, filled labels (c.run a) = .ok code' ↔
    ∃ code b, filled labels a = .ok code ∧ Chunk labels a.size c b ∧ code'.toList = code.toList ++ b

theorem Fills.of_extend (ha : Inside a) {c : Call} (raw : Bytes) (new : List Fixup)
    (hcode : (c.run a).code = a.code ++ raw.toArray) (hfix : (c.run a).fixups.toList = a.fixups.toList ++ new)
    (hnew : ∀ f ∈ new, f.position + f.width ≤ a.size + raw.length)
    (hlen : ∀ {b}, Chunk labels a.size c b → b.length = raw.length)
    (hfill : ∀ {code code' : Array UInt8}, code.size = a.size →
      (new.foldlM (Assembler.resolve labels) (code ++ raw.toArray) = .ok code' ↔
        ∃ b, Chunk labels a.size c b ∧ code'.toList = code.toList ++ b)) : Fills labels a c where
  inside := ha.extend hcode hfix hnew
  size := by
    intro b hb
    simp [Assembler.size, hcode, hlen hb]
  code := by
    intro code'
    rw [filled_extend ha hcode hfix]
    refine exists_congr fun code ↦ ?_
    rw [exists_and_left]
    exact and_congr_right fun hf ↦ hfill (filled_size hf)

theorem fills_immediate (ha : Inside a) {c : Call} {code : UInt16} {op : Opcode} (himm : c.isImmediate = true)
    (hcode : c.code? = some code) (hop : Opcode.ofCode? code = some op) (hk : op.operandKind ∈ c.kinds)
    (hrun : c.run a = (a.emitCode code c.kinds).append c.immediate) : Fills labels a c := by
  rw [emitCode_known a code c.kinds hop hk] at hrun
  have hchunk : ∀ {b}, Chunk labels a.size c b ↔ b = codeBytes code ++ c.immediate := by
    refine ⟨fun h ↦ ?_, ?_⟩
    · cases h with
      | immediate _ hcode' _ _ =>
        rw [hcode] at hcode'
        cases hcode'
        rfl
      | branch => cases himm
      | switch => cases himm
      | mark => cases himm
    · rintro rfl
      exact .immediate himm hcode hop hk
  refine .of_extend ha (codeBytes code ++ c.immediate) [] (by rw [hrun]; simp [Assembler.append])
    (by rw [hrun]; simp) nofun (fun hb ↦ by rw [hchunk.mp hb]) ?_
  intro code₁ code' _
  simp only [hchunk, exists_eq_left, List.foldlM_nil, ← Array.toList_inj, pure, Except.pure, Except.ok.injEq]
  rw [eq_comm]
  simp

theorem fills_branch (ha : Inside a) {code : UInt16} {op : Opcode} (hop : Opcode.ofCode? code = some op)
    (hk : op.operandKind ∈ [OperandKind.branch8, .branch32]) (l : String) : Fills labels a (.branch code l) := by
  have hkind : op.operandKind = .branch8 ∨ op.operandKind = .branch32 ∨ op.operandKind = .table :=
    (List.mem_pair.mp hk).imp_right .inl
  have hchunk : ∀ {b}, Chunk labels a.size (.branch code l) b ↔ ∃ bs, Writes labels op.operandKind
      (a.size + (codeBytes code).length + op.operandKind.size) l bs ∧ b = codeBytes code ++ bs := by
    refine ⟨fun h ↦ ?_, ?_⟩
    · cases h with
      | immediate himm => cases himm
      | branch hop' _ hw =>
        rw [hop] at hop'
        cases hop'
        exact ⟨_, hw, rfl⟩
    · rintro ⟨bs, hw, rfl⟩
      exact .branch hop hk hw
  have hrun := run_branch (a := a) hop hk l
  refine .of_extend ha (codeBytes code ++ List.replicate op.operandKind.size 0) _
    (by rw [hrun]; exact Array.toList_inj.mp (by simp [Assembler.append])) (by rw [hrun]; simp; rfl) ?_ ?_ ?_
  · intro f hf
    rw [List.mem_singleton.mp hf]
    simp [Nat.add_assoc]
  · intro b hb
    obtain ⟨bs, ⟨t, -, -, rfl⟩, rfl⟩ := hchunk.mp hb
    simp [littleEndian_length]
  · intro code₁ code' hsize
    rw [List.foldlM_cons]
    simp only [List.foldlM_nil, bind_pure]
    rw [resolve_iff (code₁.toList ++ codeBytes code) (List.replicate op.operandKind.size 0) [] hkind (by simp)
      (by simp [hsize]) (by simp) rfl]
    simp only [hchunk, List.append_nil, List.append_assoc]
    constructor
    · rintro ⟨bs, hw, heq⟩
      exact ⟨_, ⟨bs, hw, rfl⟩, heq⟩
    · rintro ⟨_, ⟨bs, hw, rfl⟩, heq⟩
      exact ⟨bs, hw, heq⟩

theorem fills_switch (ha : Inside a) (ls : List String) : Fills labels a (.switch ls) := by
  have hchunk : ∀ {b}, Chunk labels a.size (.switch ls) b ↔ ∃ entries,
      List.Forall₂ (Writes labels .table (a.size + 5 + 4 * ls.length)) ls entries ∧
        b = codeBytes Opcode.switch.code ++ littleEndian 4 ls.length ++ entries.flatten := by
    refine ⟨fun h ↦ ?_, ?_⟩
    · cases h with
      | immediate himm => cases himm
      | switch hw => exact ⟨_, hw, rfl⟩
    · rintro ⟨entries, hw, rfl⟩
      exact .switch hw
  have hrun := run_switch a ls
  refine .of_extend ha
    (codeBytes Opcode.switch.code ++ littleEndian 4 ls.length ++ List.replicate (4 * ls.length) 0)
    (ls.zipIdx.map fun (l, k) ↦ (⟨a.size + 5 + 4 * k, a.size + 5 + 4 * ls.length, 4, l, a.size⟩ : Fixup))
    (by rw [hrun]; exact Array.toList_inj.mp (by simp [Assembler.append])) (by rw [hrun]; simp) ?_ ?_ ?_
  · intro f hf
    obtain ⟨⟨l, k⟩, hmem, rfl⟩ := List.mem_map.mp hf
    have hlt := (List.mem_zipIdx' hmem).1
    simp only [List.length_append, codeBytes_switch_length, littleEndian_length, List.length_replicate]
    omega
  · intro b hb
    obtain ⟨entries, hw, rfl⟩ := hchunk.mp hb
    simp [length_entries hw]
  · intro code₁ code' hsize
    have hpre : (code₁.toList ++ (codeBytes Opcode.switch.code ++ littleEndian 4 ls.length)).length =
    a.size + 5 + 4 * 0 := by
      simp [hsize, codeBytes_switch_length, littleEndian_length]
    rw [foldlM_entries _ (by simp) hpre]
    simp only [hchunk, List.append_assoc]
    constructor
    · rintro ⟨entries, hw, heq⟩
      exact ⟨_, ⟨entries, hw, rfl⟩, heq⟩
    · rintro ⟨_, ⟨entries, hw, rfl⟩, heq⟩
      exact ⟨entries, hw, heq⟩

theorem fills_mark (ha : Inside a) (l : String) : Fills labels a (.mark l) := by
  have hchunk : ∀ {b}, Chunk labels a.size (.mark l) b ↔ b = [] := by
    refine ⟨fun h ↦ ?_, ?_⟩
    · cases h with
      | immediate himm => cases himm
      | mark => rfl
    · rintro rfl
      exact .mark l
  have hkept : ((Call.mark l).run a).code = a.code ∧ ((Call.mark l).run a).fixups = a.fixups := by
    simp only [Call.run, Assembler.mark]
    split <;> simp
  refine .of_extend ha [] [] (by simp [hkept.1]) (by simp [hkept.2]) nofun
    (fun hb ↦ by rw [hchunk.mp hb]) ?_
  intro code₁ code' _
  simp only [hchunk, exists_eq_left, List.foldlM_nil, ← Array.toList_inj, pure, Except.pure, Except.ok.injEq]
  rw [eq_comm]
  simp

theorem fills (labels : List (String × Nat)) (ha : Inside a) {c : Call} (hc : c.Matches) : Fills labels a c := by
  cases c.shape with
  | immediate himm hcode hr hrun =>
    obtain ⟨op, hop, hk⟩ := (Call.matches_iff hcode).mp hc
    exact fills_immediate ha himm hcode hop hk (hrun a)
  | branch code l =>
    obtain ⟨op, hop, hk⟩ := (Call.matches_iff rfl).mp hc
    exact fills_branch ha hop hk l
  | switch ls => exact fills_switch ha ls
  | mark l => exact fills_mark ha l

end step

section runs

variable {labels : List (String × Nat)}

theorem chunks_snoc {o : Nat} {cs : List Call} {c : Call} {bs : Bytes} : Chunks labels o (cs ++ [c]) bs ↔
    ∃ bs₁ b, Chunks labels o cs bs₁ ∧ Chunk labels (o + bs₁.length) c b ∧ bs = bs₁ ++ b := by
  induction cs generalizing o bs with
  | nil =>
    constructor
    · intro h
      cases h with
      | cons hb hbs =>
        cases hbs
        exact ⟨[], _, .nil, hb, by simp⟩
    · rintro ⟨bs₁, b, hbs, hb, rfl⟩
      cases hbs
      rw [List.nil_append, List.nil_append, ← b.append_nil]
      exact .cons hb .nil
  | cons c' cs ih =>
    constructor
    · intro h
      cases h with
      | cons hb hbs =>
        obtain ⟨bs₁, b, hbs₁, hb', rfl⟩ := ih.mp hbs
        exact ⟨_, b, .cons hb hbs₁, by rwa [List.length_append, ← Nat.add_assoc], (List.append_assoc ..).symm⟩
    · rintro ⟨_, b, hbs, hb, rfl⟩
      cases hbs with
      | cons hb' hbs =>
        rw [List.append_assoc]
        rw [List.length_append, ← Nat.add_assoc] at hb
        exact .cons hb' (ih.mpr ⟨_, b, hbs, hb, rfl⟩)

/-- With all distances filled in, the code of a run is the chunks of its calls. -/
theorem filled_iff {cs : List Call} (hm : ∀ c ∈ cs, c.Matches) : Inside (assembled cs) ∧
    ∀ {code}, filled labels (assembled cs) = .ok code ↔ Chunks labels 0 cs code.toList := by
  induction cs using List.reverseRecOn with
  | nil =>
    refine ⟨nofun, ?_⟩
    intro code
    constructor
    · rintro ⟨⟩
      exact .nil
    · intro h
      generalize hbs : code.toList = bs at h
      cases h
      exact congrArg Except.ok (Array.toList_inj.mp hbs.symm)
  | append_singleton cs c ih =>
    obtain ⟨hin, hfilled⟩ := ih fun c' hc' ↦ hm c' (List.mem_append_left _ hc')
    obtain ⟨hin', -, hstep⟩ := fills labels hin (hm c (by simp))
    rw [assembled_snoc]
    refine ⟨hin', ?_⟩
    intro code
    rw [hstep, chunks_snoc]
    have hat : ∀ {code₁ : Array UInt8}, filled labels (assembled cs) = .ok code₁ → (assembled cs).size =
        0 + code₁.toList.length := by
      intro code₁ h
      rw [Nat.zero_add, Array.length_toList, filled_size h]
    constructor
    · rintro ⟨code₁, b, hf, hb, heq⟩
      exact ⟨code₁.toList, b, hfilled.mp hf, hat hf ▸ hb, heq⟩
    · rintro ⟨bs₁, b, hbs, hb, heq⟩
      have hf : filled labels (assembled cs) = .ok bs₁.toArray := hfilled.mpr hbs
      exact ⟨bs₁.toArray, b, hf, hat hf ▸ hb, heq⟩

theorem Chunks.length {cs : List Call} (hm : ∀ c ∈ cs, c.Matches) {bs : Bytes} (h : Chunks labels 0 cs bs) :
    bs.length = (assembled cs).size := by
  have hf : filled labels (assembled cs) = .ok bs.toArray := (filled_iff hm).2.mpr h
  simpa using filled_size hf

theorem exists_chunks_iff {cs : List Call} (hm : ∀ c ∈ cs, c.Matches) : (∃ bs, Chunks labels 0 cs bs) ↔
    ∀ before c after, cs = before ++ c :: after → ∃ b, Chunk labels (assembled before).size c b := by
  induction cs using List.reverseRecOn with
  | nil => exact ⟨fun _ before c after heq ↦ by simp at heq, fun _ ↦ ⟨[], .nil⟩⟩
  | append_singleton cs c ih =>
    have hm' : ∀ c ∈ cs, c.Matches := fun c' hc' ↦ hm c' (List.mem_append_left _ hc')
    simp only [chunks_snoc]
    constructor
    · rintro ⟨_, bs₁, b, hbs, hb, rfl⟩ before c' after heq
      rcases List.eq_nil_or_concat after with rfl | ⟨after, c'', rfl⟩
      · obtain ⟨rfl, hc⟩ := List.append_inj' heq rfl
        cases hc
        exact ⟨b, by rwa [← hbs.length hm', ← Nat.zero_add bs₁.length]⟩
      · rw [List.concat_eq_append, ← List.cons_append, ← List.append_assoc] at heq
        obtain ⟨rfl, -⟩ := List.append_inj' heq rfl
        exact (ih hm').mp ⟨bs₁, hbs⟩ before c' after rfl
    · intro h
      obtain ⟨bs₁, hbs⟩ := (ih hm').mpr fun before c' after heq ↦ h before c' (after ++ [c]) (by simp [heq])
      obtain ⟨b, hb⟩ := h cs c [] rfl
      exact ⟨bs₁ ++ b, bs₁, b, hbs, by rwa [hbs.length hm', Nat.zero_add], rfl⟩

/-- A call has a chunk when every label it refers to is known and near enough. -/
theorem exists_chunk_iff (a : Assembler) {c : Call} (hc : c.Matches) : (∃ b, Chunk labels a.size c b) ↔
    ∀ code op, c.code? = some code → Opcode.ofCode? code = some op → ∀ l ∈ c.refs,
      ∃ t : Nat, labels.lookup l = some t ∧ op.operandKind.Spans ((t : Int) - (c.run a).size) := by
  have hwrites : ∀ {kind next l}, (∃ bs, Writes labels kind next l bs) ↔
      ∃ t : Nat, labels.lookup l = some t ∧ kind.Spans ((t : Int) - next) := by
    intro kind next l
    constructor
    · rintro ⟨bs, t, hl, hs, -⟩
      exact ⟨t, hl, hs⟩
    · rintro ⟨t, hl, hs⟩
      exact ⟨_, t, hl, hs, rfl⟩
  cases c.shape with
  | immediate himm hcode hr hrun =>
    obtain ⟨op, hop, hk⟩ := (Call.matches_iff hcode).mp hc
    rw [hr]
    exact ⟨fun _ _ _ _ _ _ hl ↦ absurd hl List.not_mem_nil, fun _ ↦ ⟨_, .immediate himm hcode hop hk⟩⟩
  | branch code l =>
    obtain ⟨op, hop, hk⟩ := (Call.matches_iff rfl).mp hc
    have hsize : ((Call.branch code l).run a).size = a.size + (codeBytes code).length + op.operandKind.size := by
      rw [run_branch hop hk]
      simp [Assembler.size, Assembler.append, Nat.add_assoc]
    rw [hsize]
    constructor
    · rintro ⟨b, hb⟩ _ op' ⟨⟩ hop' l' hl'
      obtain rfl : op = op' := Option.some.inj (hop.symm.trans hop')
      obtain rfl := List.mem_singleton.mp hl'
      cases hb with
      | immediate himm => cases himm
      | branch hop'' _ hw =>
        obtain rfl := Option.some.inj (hop.symm.trans hop'')
        exact hwrites.mp ⟨_, hw⟩
    · intro h
      obtain ⟨bs, hw⟩ := hwrites.mpr (h code op rfl hop l (List.mem_singleton.mpr rfl))
      exact ⟨_, .branch hop hk hw⟩
  | switch ls =>
    have hsize : ((Call.switch ls).run a).size = a.size + 5 + 4 * ls.length := by
      rw [run_switch]
      simp [Assembler.size, Assembler.append, codeBytes_switch_length, littleEndian_length, Nat.add_assoc]
    rw [hsize]
    constructor
    · rintro ⟨b, hb⟩ _ op ⟨⟩ hop l hl
      obtain rfl := Option.some.inj (ofCode_switch.symm.trans hop)
      cases hb with
      | immediate himm => cases himm
      | switch hws =>
        exact hwrites.mp (exists_forall₂_iff.mp ⟨_, hws⟩ l hl)
    · intro h
      have hws : ∀ l ∈ ls, ∃ bs, Writes labels .table (a.size + 5 + 4 * ls.length) l bs := fun l hl ↦
        hwrites.mpr (h _ _ rfl ofCode_switch l hl)
      obtain ⟨entries, hentries⟩ := exists_forall₂_iff.mpr hws
      exact ⟨_, .switch hentries⟩
  | mark l => exact ⟨nofun, fun _ ↦ ⟨[], .mark l⟩⟩

end runs

theorem bytes_iff (a : Assembler) (bs : Bytes) :
    a.bytes = .ok bs ↔ a.fault = none ∧ filled a.labels a = .ok bs.toArray := by
  unfold Assembler.bytes filled
  cases a.fault with
  | some e => simp
  | none =>
    cases a.fixups.toList.foldlM (Assembler.resolve a.labels) a.code with
    | error e => simp [Except.map]
    | ok code => simp [Except.map, ← Array.toList_inj]

theorem bytes_eq_iff (calls : List Call) (bs : Bytes) : (assembled calls).bytes = .ok bs ↔
    ((∀ c ∈ calls, c.Matches) ∧ (marks calls).Nodup) ∧ Chunks (assembled calls).labels 0 calls bs := by
  rw [bytes_iff, fault_iff]
  exact and_congr_right fun h ↦ (filled_iff h.1).2

theorem exists_bytes_iff (calls : List Call) : (∃ bs, (assembled calls).bytes = .ok bs) ↔ Fits calls := by
  simp only [bytes_eq_iff, exists_and_left]
  constructor
  · rintro ⟨⟨hm, hnd⟩, hbs⟩
    rw [exists_chunks_iff hm] at hbs
    have hrefs : ∀ before c after code op, calls = before ++ c :: after → c.code? = some code →
        Opcode.ofCode? code = some op → ∀ l ∈ c.refs, ∃ t : Nat, MarkedAt calls l t ∧
          op.operandKind.Spans ((t : Int) - (assembled (before ++ [c])).size) := by
      intro before c after code op heq hcode hop l hl
      have hc : c.Matches := hm c (by simp [heq])
      obtain ⟨t, ht, hs⟩ := (exists_chunk_iff _ hc).mp (hbs before c after heq) code op hcode hop l hl
      exact ⟨t, (lookup_iff hnd).mp ht, by rwa [assembled_snoc]⟩
    refine ⟨hm, hnd, ?_, ?_⟩
    · intro c hc l hl
      obtain ⟨before, after, heq⟩ := List.append_of_mem hc
      obtain ⟨code, hcode⟩ : ∃ code, c.code? = some code := by
        cases c <;> first | exact ⟨_, rfl⟩ | cases hl
      obtain ⟨op, hop, -⟩ := hm c hc code hcode
      obtain ⟨t, ht, -⟩ := hrefs before c after code op heq hcode hop l hl
      exact ht.mem
    · intro before c after code op l t heq hcode hop hl ht
      obtain ⟨t', ht', hs⟩ := hrefs before c after code op heq hcode hop l hl
      obtain rfl := Option.some.inj (((lookup_iff hnd).mpr ht).symm.trans ((lookup_iff hnd).mpr ht'))
      exact hs
  · intro h
    refine ⟨⟨h.matches_, h.once⟩, (exists_chunks_iff h.matches_).mpr fun before c after heq ↦ ?_⟩
    have hmem : c ∈ calls := by simp [heq]
    refine (exists_chunk_iff _ (h.matches_ c hmem)).mpr fun code op hcode hop l hl ↦ ?_
    obtain ⟨t, ht⟩ := Option.ne_none_iff_exists'.mp
      (mt (lookup_labels calls l).2.mp (not_not_intro (h.marked c hmem l hl)))
    refine ⟨t, ht, ?_⟩
    rw [← assembled_snoc]
    exact h.near before c after code op l t heq hcode hop hl ((lookup_iff h.once).mp ht)

end CilSsa.Bytecode

