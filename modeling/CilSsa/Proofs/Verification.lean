import CilSsa.Proofs.Construction
import CilSsa.Proofs.Dominance
import CilSsa.Proofs.PassFrame
import CilSsa.Ssa.Verify

namespace CilSsa.Ssa

open CilSsa.Passes (SameHeading)

/-- What verification asks of an operand wherever it stands. -/
structure Function.Takes (f : Function) (v : Value) : Prop where
  typed : v.type ≠ .untyped
  value : ∀ id t, v = .instr id t → t.hasValue = true
  own : ∀ fn k t, v = .param fn k t → fn = f.id

/-- Instruction `j` is defined before instruction `k` of block `b`. -/
inductive Function.Sees (f : Function) (dom : DomTree) (j b k : Nat) : Prop
  | inside {B : Block} : f.blocks[b]? = some B → [j, k].Sublist B.instrs → Sees f dom j b k
  | above {a : Nat} {x : Instr} : f.Lists a j x → a ≠ b → dom.dominates (f.blockId a) (f.blockId b) = true →
      Sees f dom j b k

/-- A block ends in instruction `t`, its terminator, and has no other. -/
structure Function.Ends (f : Function) (B : Block) (ks : List Nat) (t : Nat) : Prop where
  instrs : B.instrs = ks ++ [t]
  last : ∀ i, f.instr? t = some i → i.op.isTerminator = true
  others : ∀ k ∈ ks, ∀ i, f.instr? k = some i → i.op.isTerminator = false

/-- Well-formed functions in which operands are defined before they are used, as far as control gets there. -/
structure Module.Valid (m : Module) (dom : DomTree) (f : Function) : Prop extends f.Formed where
  ends : ∀ {b : Nat} {B : Block}, f.blocks[b]? = some B → ∃ ks t, f.Ends B ks t
  targets : ∀ {b k : Nat} {i : Instr}, f.Lists b k i → ∀ t ∈ i.targets, t.map (·.fn) = some f.id
  fits : ∀ {b k : Nat} {i : Instr}, f.Lists b k i → m.checkInstr f i = []
  takes : ∀ {b k : Nat} {i : Instr} {o : Option Value}, f.Lists b k i → o ∈ i.operands → ∃ v, o = some v ∧ f.Takes v
  sees : ∀ {b k : Nat} {i : Instr} {j : InstrId} {t : Ty}, f.Lists b k i → dom.reachable (f.blockId b) = true →
    some (.instr j t) ∈ i.operands → f.Sees dom j.index b k

section types

def Instr.types (i : Instr) : List (Option Ty) := i.operands.map (·.map Value.type)

theorem mapM_id_map {α β : Type} (g : α → β) (os : List (Option α)) :
    (os.map (·.map g)).mapM id = (os.mapM id).map (·.map g) := by
  induction os with
  | nil => rfl
  | cons o os ih =>
    rw [List.map_cons, List.mapM_cons, List.mapM_cons, ih]
    cases o with
    | none => rfl
    | some v =>
      simp only [id, Option.map_some]
      cases os.mapM id <;> rfl

theorem operandTypes_eq (n : Nat) (i : Instr) : operandTypes n i =
    if i.types.length ≠ n then .error [.operandCount n i.types.length] else match i.types.mapM id with
      | none => .error []
      | some ts => if ts.any (· == .untyped) then .error [] else .ok ts := by
  unfold operandTypes Instr.types
  rw [List.length_map, mapM_id_map]
  split
  · rfl
  · cases i.operands.mapM id with
    | none => rfl
    | some vs => simp only [Option.map_some, List.any_map, Function.comp_def]

/-- Instructions that differ at most in operands of the same types, and in how they are named and placed. -/
structure Instr.Alike (i i' : Instr) : Prop where
  op : i'.op = i.op
  type : i'.type = i.type
  pred : i'.pred = i.pred
  index : i'.index = i.index
  allocated : i'.allocated = i.allocated
  callee : i'.callee = i.callee
  targets : i'.targets = i.targets
  types : i'.types = i.types

theorem Instr.Alike.refl (i : Instr) : i.Alike i := ⟨rfl, rfl, rfl, rfl, rfl, rfl, rfl, rfl⟩

variable {m : Module} {f : Function} {i i' : Instr}

theorem Instr.Alike.length (h : i.Alike i') : i'.operands.length = i.operands.length := by
  simpa [Instr.types] using congrArg List.length h.types

theorem Instr.Alike.checkOperands (h : i.Alike i') (n : Nat) (check : List Ty → List Violation) :
    Module.checkOperands n i' check = Module.checkOperands n i check := by
  simp only [Module.checkOperands, operandTypes_eq, h.types]

theorem Instr.Alike.single (h : i.Alike i') :
    (∃ v v' : Value, i.operands = [some v] ∧ i'.operands = [some v'] ∧ v'.type = v.type) ∨
      (∀ v, i.operands ≠ [some v]) ∧ ∀ v, i'.operands ≠ [some v] := by
  have htypes := h.types
  unfold Instr.types at htypes
  rcases ho : i.operands with _ | ⟨_ | v, _ | ⟨o, os⟩⟩ <;> rcases ho' : i'.operands with _ | ⟨_ | v', _ | ⟨o', os'⟩⟩ <;>
    simp_all

theorem argumentTypes_eq (x : Instr) (params : List Ty) :
    ((x.operands.zip params).zipIdx.flatMap fun ((v, want), k) ↦ match v with
      | some v => when (v.type != want) (.argumentType k v.type want)
      | none => []) = (x.types.zip params).zipIdx.flatMap fun ((t, want), k) ↦ match t with
      | some t => when (t != want) (.argumentType k t want)
      | none => [] := by
  rw [Instr.types, List.zip_map_left, List.zipIdx_map, List.flatMap_map]
  congr 1
  funext p
  obtain ⟨⟨_ | v, want⟩, k⟩ := p <;> rfl

theorem Instr.Alike.checkCall (h : i.Alike i') : m.checkCall i' = m.checkCall i := by
  unfold Module.checkCall
  rw [h.callee]
  cases i.callee.bind m.function? with
  | none => rfl
  | some g =>
    dsimp only
    rw [h.length, h.type]
    split
    · rfl
    · congr 1
      exact (argumentTypes_eq i' _).trans (h.types ▸ (argumentTypes_eq i _).symm)

theorem Instr.Alike.checkReturn (h : i.Alike i') : Module.checkReturn f i' = Module.checkReturn f i := by
  have hnil : i'.operands = [] ↔ i.operands = [] := by
    rw [← List.length_eq_zero_iff, ← List.length_eq_zero_iff, h.length]
  unfold Module.checkReturn
  simp only [ne_eq, hnil, h.length]
  rcases h.single with ⟨v, v', ho, ho', ht⟩ | ⟨hno, hno'⟩
  · simp only [ho, ho', ht]
  · split
    · rfl
    · split
      · rfl
      · split
        · exact absurd ‹_› (hno' _)
        · rfl

theorem Instr.Alike.checkSize (h : i.Alike i') : (match i'.operands with
      | [some v] => when (!v.type.isInt) .arraySize
      | _ => []) = match i.operands with
      | [some v] => when (!v.type.isInt) .arraySize
      | _ => [] := by
  rcases h.single with ⟨v, v', ho, ho', ht⟩ | ⟨hno, hno'⟩
  · simp only [ho, ho', ht]
  · split
    · exact absurd ‹_› (hno' _)
    · rfl

theorem Instr.Alike.checkInstr (h : i.Alike i') : m.checkInstr f i' = m.checkInstr f i := by
  unfold Module.checkInstr
  rw [h.op]
  simp only [h.allocated, h.type, h.index, h.pred, h.targets, h.checkOperands, h.checkCall, h.checkReturn]
  cases i.op with
  | alloca => exact congrArg _ h.checkSize
  | _ => rfl

end types

section modify

variable {m : Module} {f g : Function}

theorem function?_modify (hf : m.function? f.id = some f) (g : Function) (id : FuncId) :
    (m.modifyFunction f.id fun _ ↦ g).function? id = if id = f.id then some g else m.function? id := by
  unfold Module.function? Module.modifyFunction
  rw [Array.getElem?_modify]
  by_cases h : id = f.id
  · subst h
    unfold Module.function? at hf
    simp [hf]
  · have hne : f.id.index ≠ id.index := fun he ↦ h (by cases id; cases hid : f.id; simp_all)
    rw [if_neg hne, if_neg h]

theorem checkInstr_modify (hf : m.function? f.id = some f) (hg : SameHeading f g) (i : Instr) :
    (m.modifyFunction f.id fun _ ↦ g).checkInstr g i = m.checkInstr f i := by
  have hret : g.ret = f.ret := by rw [Function.ret, hg.signature, Function.ret]
  have hcall : (m.modifyFunction f.id fun _ ↦ g).checkCall i = m.checkCall i := by
    unfold Module.checkCall
    cases hc : i.callee with
    | none => rfl
    | some id =>
      rw [Option.bind_some, Option.bind_some, function?_modify hf]
      by_cases hid : id = f.id
      · have hparams : g.paramTypes = f.paramTypes := by rw [Function.paramTypes, hg.signature, Function.paramTypes]
        have href : g.ref = f.ref := by rw [Function.ref, hg.name, Function.ref]
        rw [if_pos hid, hid, hf]
        dsimp only
        rw [hparams, href, hret]
      · rw [if_neg hid]
  have hreturn : Module.checkReturn g i = Module.checkReturn f i := by
    unfold Module.checkReturn
    rw [hret]
  unfold Module.checkInstr
  rw [hcall, hreturn]
  rfl

end modify

namespace Module

variable {m : Module} {dom : DomTree} {f : Function}

theorem when_eq_nil {c : Bool} {v : Violation} : when c v = [] ↔ c = false := by
  cases c <;> simp [when]

theorem mem_instrsOf (h : f.Shaped) {b : Nat} {B : Block} (hB : f.blocks[b]? = some B) {k pos : Nat} {i : Instr} :
    ((k, i), pos) ∈ (f.instrsOf B).zipIdx ↔ B.instrs[pos]? = some k ∧ f.instr? k = some i := by
  have hall : ∀ l : List Nat, (∀ k ∈ l, (f.instr? k).isSome) → ∀ pos : Nat,
      (l.filterMap fun k ↦ (f.instr? k).map fun x ↦ (k, x))[pos]? = l[pos]?.bind fun k ↦
        (f.instr? k).map fun x ↦ (k, x) := by
    intro l hl
    induction l with
    | nil => simp
    | cons x l ih =>
      intro pos
      obtain ⟨i, hi⟩ := Option.isSome_iff_exists.mp (hl x List.mem_cons_self)
      rw [List.filterMap_cons, hi]
      cases pos with
      | zero => simp [hi]
      | succ pos => simpa using ih (fun k hk ↦ hl k (List.mem_cons_of_mem x hk)) pos
  have hsome : ∀ k ∈ B.instrs, (f.instr? k).isSome := by
    intro k hk
    obtain ⟨i, hi⟩ := h.found hB hk
    rw [hi]
    rfl
  rw [List.mk_mem_zipIdx_iff_getElem?, Function.instrsOf, hall _ hsome]
  simp only [Option.bind_eq_some_iff, Option.map_eq_some_iff, Prod.mk.injEq]
  constructor
  · rintro ⟨x, hx, y, hy, rfl, rfl⟩
    exact ⟨hx, hy⟩
  · rintro ⟨hx, hy⟩
    exact ⟨k, hx, i, hy, rfl, rfl⟩

theorem length_instrsOf (h : f.Shaped) {b : Nat} {B : Block} (hB : f.blocks[b]? = some B) :
    (f.instrsOf B).length = B.instrs.length := by
  rw [Function.instrsOf, List.length_filterMap_eq_countP]
  refine List.countP_eq_length.mpr fun k hk ↦ ?_
  obtain ⟨i, hi⟩ := h.found hB hk
  simp [hi]

theorem verify_eq_nil_iff (h : f.Shaped) (hbody : f.isDeclaration = false) : m.verify f = [] ↔
    ∀ (b : Nat) (B : Block), f.blocks[b]? = some B → B.instrs ≠ [] ∧ ∀ (pos k : Nat) (i : Instr),
      B.instrs[pos]? = some k → f.instr? k = some i →
        m.checkPlaced f (DomTree.of m f) (f.blockId b) (pos + 1 == B.instrs.length) pos i = [] := by
  have hblock : ∀ (b : Nat) (B : Block), f.blocks[b]? = some B →
      (m.checkBlock f (DomTree.of m f) (f.blockId b) B = [] ↔ B.instrs ≠ [] ∧ ∀ (pos k : Nat) (i : Instr),
        B.instrs[pos]? = some k → f.instr? k = some i →
          m.checkPlaced f (DomTree.of m f) (f.blockId b) (pos + 1 == B.instrs.length) pos i = []) := by
    intro b B hB
    unfold checkBlock
    split
    · rename_i hempty
      refine ⟨nofun, fun h ↦ absurd (List.isEmpty_iff.mp hempty) h.1⟩
    · rename_i hempty
      rw [List.flatMap_eq_nil_iff, length_instrsOf h hB]
      constructor
      · intro hall
        refine ⟨fun hnil ↦ hempty (List.isEmpty_iff.mpr hnil), fun pos k i hk hi ↦ ?_⟩
        exact List.map_eq_nil_iff.mp (hall ((k, i), pos) ((mem_instrsOf h hB).mpr ⟨hk, hi⟩))
      · rintro ⟨-, hall⟩ ⟨⟨k, i⟩, pos⟩ hmem
        obtain ⟨hk, hi⟩ := (mem_instrsOf h hB).mp hmem
        exact List.map_eq_nil_iff.mpr (hall pos k i hk hi)
  unfold verify
  rw [hbody]
  simp only [Bool.false_eq_true, if_false, List.flatMap_eq_nil_iff, Prod.forall, List.mk_mem_zipIdx_iff_getElem?,
    Array.getElem?_toList]
  constructor
  · intro hall b B hB
    exact (hblock b B hB).mp (hall B b hB)
  · intro hall B b hB
    exact (hblock b B hB).mpr (hall b B hB)

/-- The parts of a check. -/
structure Placed (m : Module) (f : Function) (dom : DomTree) (b : BlockId) (last : Bool) (pos : Nat) (i : Instr) :
    Prop where
  ends : i.op.isTerminator = last
  home : i.home = some b
  operands : ∀ o ∈ i.operands, m.checkOperand f dom b pos o = []
  targets : ∀ t ∈ i.targets, t.map (·.fn) = some f.id
  fits : m.checkInstr f i = []

theorem checkPlaced_eq_nil {b : BlockId} {last : Bool} {pos : Nat} {i : Instr} :
    m.checkPlaced f dom b last pos i = [] ↔ Placed m f dom b last pos i := by
  unfold checkPlaced
  simp only [List.append_eq_nil_iff, when_eq_nil, List.flatMap_eq_nil_iff, bne_eq_false_iff_eq]
  constructor
  · rintro ⟨⟨⟨⟨⟨h1, h2⟩, h3⟩, h4⟩, h5⟩, h6⟩
    refine ⟨?_, h3, h4, h5, h6⟩
    revert h1 h2
    cases i.op.isTerminator <;> cases last <;> simp
  · rintro ⟨h1, h3, h4, h5, h6⟩
    refine ⟨⟨⟨⟨⟨?_, ?_⟩, h3⟩, h4⟩, h5⟩, h6⟩ <;> (rw [h1]; cases last <;> rfl)

theorem instr?_own (hf : m.function? f.id = some f) (k : Nat) : m.instr? ⟨f.id, k⟩ = f.instr? k := by
  rw [Module.instr?, hf, Option.bind_some]

theorem block?_own (hf : m.function? f.id = some f) (b : Nat) : m.block? (f.blockId b) = f.blocks[b]? := by
  rw [Module.block?, Function.blockId, hf, Option.bind_some]

section operand

variable {a b j k pos : Nat} {x : Instr} {t : Ty}

theorem takes_instr_iff {id : InstrId} : f.Takes (.instr id t) ↔ t.hasValue = true := by
  refine ⟨fun h ↦ h.value _ _ rfl, fun ht ↦ ⟨?_, ?_, ?_⟩⟩
  · rintro rfl
    cases ht
  · rintro _ _ ⟨⟩
    exact ht
  · rintro _ _ _ ⟨⟩

theorem not_sees_of_homeless (h : f.Formed) (hx : f.instr? j = some x) (hhome : x.home = none) :
    ¬ f.Sees dom j b k := by
  have hnot : ∀ {a : Nat} {y : Instr}, ¬ f.Lists a j y := by
    intro a y hl
    have heq := h.home_eq hl
    rw [Option.some.inj (hl.found.symm.trans hx), hhome] at heq
    cases heq
  intro hsees
  cases hsees with
  | inside hC hsub =>
    obtain ⟨y, hl⟩ := h.lists hC (hsub.subset List.mem_cons_self)
    exact hnot hl
  | above hl => exact hnot hl

theorem sees_same_iff (h : f.Formed) {B : Block} (hB : f.blocks[b]? = some B) (hk : B.instrs[pos]? = some k)
    (hl : f.Lists b j x) : f.Sees dom j b k ↔ B.instrs.idxOf j < pos := by
  have hpair := pair_sublist_iff (a := j) (b := k) (h.once hB)
  have hplace : B.instrs.idxOf k = pos := by
    obtain ⟨hlt, rfl⟩ := List.getElem?_eq_some_iff.mp hk
    exact (h.once hB).idxOf_getElem pos hlt
  constructor
  · intro hsees
    cases hsees with
    | @inside C hC hsub =>
      obtain rfl : B = C := Option.some.inj (hB.symm.trans hC)
      exact hplace ▸ (hpair.mp hsub).2
    | above hl' hne => exact absurd (h.unique hl' hl) hne
  · intro hlt
    exact .inside hB (hpair.mpr ⟨List.mem_of_getElem? hk, hplace ▸ hlt⟩)

theorem sees_other_iff (h : f.Formed) (hl : f.Lists a j x) (hab : a ≠ b) :
    f.Sees dom j b k ↔ dom.dominates (f.blockId a) (f.blockId b) = true := by
  refine ⟨fun hsees ↦ ?_, .above hl hab⟩
  cases hsees with
  | inside hC hsub =>
    obtain ⟨y, hl'⟩ := h.lists hC (hsub.subset List.mem_cons_self)
    exact absurd (h.unique hl hl') hab
  | above hl' _ hdom => rwa [h.unique hl hl']

theorem checkOperand_instr (h : f.Formed) (hf : m.function? f.id = some f) {B : Block} (hB : f.blocks[b]? = some B)
    (hk : B.instrs[pos]? = some k) (hl : f.Lists a j x) (ht : t.hasValue = true) :
    m.checkOperand f dom (f.blockId b) pos (some (.instr ⟨f.id, j⟩ t)) = [] ↔ f.Sees dom j b k := by
  have huntyped : (t == .untyped) = false := by
    rw [beq_eq_false_iff_ne]
    rintro rfl
    cases ht
  simp only [checkOperand, instr?_own hf, hl.found, h.home_eq hl, Option.bind_some]
  rw [if_neg (by simp [Function.blockId]), if_neg (by simp [ht])]
  simp only [Value.type, huntyped, List.append_eq_nil_iff, when_eq_nil, Bool.not_eq_false', and_true]
  by_cases hab : a = b
  · subst hab
    obtain ⟨⟨A, hA, hjA⟩, -⟩ := id hl
    obtain rfl : A = B := Option.some.inj (hA.symm.trans hB)
    have hidx : A.instrs.idxOf? j = some (A.instrs.idxOf j) := by
      rw [idxOf?_eq_some_iff (h.once hB), List.getElem?_eq_getElem (List.idxOf_lt_length_of_mem hjA),
        List.getElem_idxOf]
    rw [if_pos rfl, block?_own hf, hB, Option.bind_some, hidx, sees_same_iff h hB hk hl]
    exact decide_eq_true_iff
  · rw [if_neg (by simpa [Function.blockId] using hab), sees_other_iff h hl hab]

end operand

theorem checkOperand_eq_nil (h : f.Formed) (hf : m.function? f.id = some f) {b pos k : Nat} {B : Block} {v : Value}
    (hB : f.blocks[b]? = some B) (hk : B.instrs[pos]? = some k) (hv : f.Offers v) :
    m.checkOperand f dom (f.blockId b) pos (some v) = [] ↔ f.Takes v ∧ ∀ j t, v = .instr j t →
      f.Sees dom j.index b k := by
  cases v with
  | instr id t =>
    obtain ⟨hfn, x, hx, -⟩ := hv
    obtain ⟨fn, j⟩ := id
    dsimp only at hfn hx
    subst hfn
    have hsees : (∀ i t', Value.instr ⟨f.id, j⟩ t = .instr i t' → f.Sees dom i.index b k) ↔ f.Sees dom j b k := by
      refine ⟨fun hall ↦ hall _ _ rfl, fun hsees ↦ ?_⟩
      rintro _ _ ⟨⟩
      exact hsees
    rw [takes_instr_iff, hsees]
    cases hhome : x.home with
    | none =>
      refine iff_of_false ?_ fun hall ↦ not_sees_of_homeless h hx hhome hall.2
      simp [checkOperand, instr?_own hf, hx, hhome]
    | some hm =>
      obtain ⟨a, A, rfl, hA, hjA⟩ := h.home hx hhome
      by_cases ht : t.hasValue = true
      · rw [checkOperand_instr h hf hB hk ⟨⟨A, hA, hjA⟩, hx⟩ ht]
        exact ⟨fun hsees ↦ ⟨ht, hsees⟩, And.right⟩
      · refine iff_of_false ?_ fun hall ↦ ht hall.1
        simp [checkOperand, instr?_own hf, hx, hhome, Function.blockId, ht]
  | param fn n t =>
    simp only [checkOperand, List.append_eq_nil_iff, when_eq_nil, bne_eq_false_iff_eq, beq_eq_false_iff_ne]
    constructor
    · rintro ⟨hfn, ht⟩
      refine ⟨⟨ht, ?_, ?_⟩, ?_⟩
      · rintro _ _ ⟨⟩
      · rintro _ _ _ ⟨⟩
        exact hfn
      · rintro _ _ ⟨⟩
    · rintro ⟨ht, -⟩
      exact ⟨ht.own _ _ _ rfl, ht.typed⟩
  | func id sig =>
    simp only [checkOperand, when_eq_nil, beq_eq_false_iff_ne]
    refine ⟨fun ht ↦ ⟨⟨ht, ?_, ?_⟩, ?_⟩, fun ht ↦ ht.1.typed⟩
    · rintro _ _ ⟨⟩
    · rintro _ _ _ ⟨⟩
    · rintro _ _ ⟨⟩
  | const c o =>
    simp only [checkOperand, when_eq_nil, beq_eq_false_iff_ne]
    refine ⟨fun ht ↦ ⟨⟨ht, ?_, ?_⟩, ?_⟩, fun ht ↦ ht.1.typed⟩
    · rintro _ _ ⟨⟩
    · rintro _ _ _ ⟨⟩
    · rintro _ _ ⟨⟩

theorem Valid.of_verify (h : f.Formed) (hf : m.function? f.id = some f) (hbody : f.isDeclaration = false)
    (hv : m.verify f = []) : m.Valid (DomTree.of m f) f := by
  have hall := (verify_eq_nil_iff h.tidy.toShaped hbody).mp hv
  have hplaced : ∀ {b k : Nat} {i : Instr}, f.Lists b k i → ∃ (B : Block) (pos : Nat), f.blocks[b]? = some B ∧
      B.instrs[pos]? = some k ∧ Placed m f (DomTree.of m f) (f.blockId b) (pos + 1 == B.instrs.length) pos i := by
    intro b k i hl
    obtain ⟨B, hB, hk⟩ := hl.listed
    obtain ⟨pos, hpos⟩ := List.mem_iff_getElem?.mp hk
    exact ⟨B, pos, hB, hpos, checkPlaced_eq_nil.mp ((hall b B hB).2 pos k i hpos hl.found)⟩
  have hoperand : ∀ {b k : Nat} {i : Instr} {o : Option Value}, f.Lists b k i → o ∈ i.operands →
      ∃ v, o = some v ∧ f.Takes v ∧ ∀ j t, v = .instr j t → f.Sees (DomTree.of m f) j.index b k := by
    intro b k i o hl ho
    obtain ⟨B, pos, hB, hpos, hp⟩ := hplaced hl
    have hcheck := hp.operands o ho
    cases o with
    | none => cases hcheck
    | some v => exact ⟨v, rfl, (checkOperand_eq_nil h hf hB hpos (h.offers hl ho)).mp hcheck⟩
  refine ⟨h, ?_, ?_, ?_, ?_, ?_⟩
  · intro b B hB
    have hne := (hall b B hB).1
    refine ⟨B.instrs.dropLast, B.instrs.getLast hne, (List.dropLast_append_getLast hne).symm, ?_, ?_⟩
    · intro i hi
      have hlast : B.instrs[B.instrs.length - 1]? = some (B.instrs.getLast hne) := by
        rw [← List.getLast?_eq_getElem?, List.getLast?_eq_some_getLast hne]
      have hpos := List.length_pos_iff.mpr hne
      rw [(checkPlaced_eq_nil.mp ((hall b B hB).2 _ _ i hlast hi)).ends, beq_iff_eq]
      omega
    · intro k hk i hi
      obtain ⟨pos, hpos⟩ := List.mem_iff_getElem?.mp hk
      have hlt := (List.getElem?_eq_some_iff.mp hpos).1
      rw [List.length_dropLast] at hlt
      rw [List.getElem?_dropLast, if_pos hlt] at hpos
      rw [(checkPlaced_eq_nil.mp ((hall b B hB).2 pos k i hpos hi)).ends, beq_eq_false_iff_ne]
      omega
  · intro b k i hl
    obtain ⟨B, pos, -, -, hp⟩ := hplaced hl
    exact hp.targets
  · intro b k i hl
    obtain ⟨B, pos, -, -, hp⟩ := hplaced hl
    exact hp.fits
  · intro b k i o hl ho
    obtain ⟨v, hv, ht, -⟩ := hoperand hl ho
    exact ⟨v, hv, ht⟩
  · intro b k i j t hl _ ho
    obtain ⟨v, hv, -, hs⟩ := hoperand hl ho
    exact hs j t (Option.some.inj hv).symm

theorem Valid.verify_of_sees (h : m.Valid (DomTree.of m f) f) (hf : m.function? f.id = some f)
    (hbody : f.isDeclaration = false) (hsees : ∀ {b k : Nat} {i : Instr} {j : InstrId} {t : Ty}, f.Lists b k i →
    some (.instr j t) ∈ i.operands →
      f.Sees (DomTree.of m f) j.index b k) : m.verify f = [] := by
  refine (verify_eq_nil_iff h.toFormed.tidy.toShaped hbody).mpr fun b B hB ↦ ?_
  obtain ⟨ks, t, hends⟩ := h.ends hB
  have hlen : B.instrs.length = ks.length + 1 := by rw [hends.instrs, List.length_append, List.length_singleton]
  refine ⟨fun hnil ↦ (by rw [hnil] at hlen; cases hlen), fun pos k i hpos hi ↦ checkPlaced_eq_nil.mpr ?_⟩
  have hl : f.Lists b k i := ⟨⟨B, hB, List.mem_of_getElem? hpos⟩, hi⟩
  refine ⟨?_, h.home_eq hl, fun o ho ↦ ?_, h.targets hl, h.fits hl⟩
  · rw [hends.instrs] at hpos
    have hlt := (List.getElem?_eq_some_iff.mp hpos).1
    rw [List.length_append, List.length_singleton] at hlt
    by_cases hp : pos < ks.length
    · rw [List.getElem?_append_left hp] at hpos
      rw [hends.others k (List.mem_of_getElem? hpos) i hi, eq_comm, beq_eq_false_iff_ne]
      omega
    · obtain rfl : pos = ks.length := by omega
      rw [List.getElem?_concat_length] at hpos
      rw [hends.last i (Option.some.inj hpos ▸ hi), eq_comm, beq_iff_eq]
      omega
  · obtain ⟨v, rfl, htakes⟩ := h.takes hl ho
    refine (checkOperand_eq_nil h.toFormed hf hB hpos (h.offers hl ho)).mpr ⟨htakes, ?_⟩
    rintro j t rfl
    exact hsees hl ho

theorem Valid.verify (h : m.Valid (DomTree.of m f) f) (hf : m.function? f.id = some f) (hbody : f.isDeclaration = false)
    (hr : ∀ b < f.blocks.size, (DomTree.of m f).reachable (f.blockId b) = true) : m.verify f = [] := by
  refine h.verify_of_sees hf hbody fun {b} _ _ _ _ hl ho ↦ h.sees hl (hr b ?_) ho
  obtain ⟨B, hB, -⟩ := hl.listed
  exact (Array.getElem?_eq_some_iff.mp hB).1

theorem successors_own (hf : m.function? f.id = some f) (b : Nat) : m.successors (f.blockId b) =
    (((f.blocks[b]?).bind f.terminator?).map Instr.successors).getD [] := by
  rw [successors, Function.blockId, hf, Option.bind_some]
  cases (f.blocks[b]?).bind f.terminator? <;> rfl

theorem terminator?_eq {B : Block} {ks : List Nat} {t : Nat} {i : Instr} (h : f.Ends B ks t)
    (hi : f.instr? t = some i) : f.terminator? B = some i := by
  rw [Function.terminator?, h.instrs, List.getLast?_append, List.getLast?_singleton]
  simp [hi, h.last i hi]

theorem terminator?_inv {B : Block} {i : Instr} (h : f.terminator? B = some i) :
    ∃ k, B.instrs.getLast? = some k ∧ f.instr? k = some i := by
  unfold Function.terminator? at h
  cases hlast : B.instrs.getLast? with
  | none => simp [hlast] at h
  | some k =>
    cases hk : f.instr? k with
    | none => simp [hlast, hk] at h
    | some j =>
      simp only [hlast, hk, Option.bind_some] at h
      split at h
      · exact ⟨k, rfl, hk.trans h⟩
      · cases h

/-- In a function that verifies, a block leads where any of its instructions does that could end it. -/
theorem successors_of_verify (hf : m.function? f.id = some f) (hverify : m.verify f = []) {b k : Nat}
    {B : Block} {i : Instr} (hB : f.blocks[b]? = some B) (hk : k ∈ B.instrs) (hi : f.instr? k = some i)
    (hends : i.op.isTerminator = true) {c : Option BlockId} (hc : c ∈ m.successors (f.blockId b)) :
    c ∈ i.successors := by
  rw [successors_own hf, hB, Option.bind_some] at hc
  cases ht : f.terminator? B with
  | none => simp [ht] at hc
  | some j =>
    obtain ⟨l, hlast, hl⟩ := terminator?_inv ht
    have hmem : (k, i) ∈ f.instrsOf B := List.mem_filterMap.mpr ⟨k, hk, by rw [hi]; rfl⟩
    obtain ⟨pre, hpre⟩ := List.getLast?_eq_some_iff.mp hlast
    have hinstrs : f.instrsOf B = f.instrsOf { B with instrs := pre } ++ [(l, j)] := by
      simp [Function.instrsOf, hpre, hl]
    obtain ⟨pos, hpos⟩ := List.mem_iff_getElem?.mp hmem
    have hchecked : m.checkPlaced f (DomTree.of m f) (f.blockId b) (pos + 1 == (f.instrsOf B).length) pos i = [] := by
      have hbody : f.isDeclaration = false := by
        rw [Function.isDeclaration, Array.isEmpty_eq_false_iff]
        intro hnil
        rw [hnil] at hB
        cases hB
      unfold verify at hverify
      simp only [hbody, Bool.false_eq_true, if_false, List.flatMap_eq_nil_iff, Prod.forall,
        List.mk_mem_zipIdx_iff_getElem?, Array.getElem?_toList] at hverify
      have hblock := hverify B b hB
      unfold checkBlock at hblock
      split at hblock
      · cases hblock
      · exact List.map_eq_nil_iff.mp (List.flatMap_eq_nil_iff.mp hblock ((k, i),
          pos) (List.mk_mem_zipIdx_iff_getElem?.mpr hpos))
    have hat := (checkPlaced_eq_nil.mp hchecked).ends
    rw [hends, eq_comm, beq_iff_eq, hinstrs, List.length_append, List.length_singleton, Nat.add_right_cancel_iff] at hat
    rw [hinstrs, hat, List.getElem?_append_right le_rfl, Nat.sub_self] at hpos
    cases hpos
    simpa [ht] using hc

theorem confines_of_targets (h : f.Formed) (hf : m.function? f.id = some f) (hbody : f.isDeclaration = false)
    (hends : ∀ {b : Nat} {B : Block}, f.blocks[b]? = some B → ∃ ks t, f.Ends B ks t)
    (htargets : ∀ {b k : Nat} {i : Instr}, f.Lists b k i → ∀ t ∈ i.targets, t.map (·.fn) = some f.id) :
    m.Confines f := by
  refine ⟨hf, hbody, ?_⟩
  rintro ⟨fn, b⟩ c hfn hc
  dsimp only at hfn
  subst hfn
  have hc : some c ∈ m.successors (f.blockId b) := hc
  rw [successors_own hf] at hc
  cases hB : f.blocks[b]? with
  | none => simp [hB] at hc
  | some B =>
    obtain ⟨ks, t, hend⟩ := hends hB
    have ht : t ∈ B.instrs := by simp [hend.instrs]
    obtain ⟨i, hl⟩ := h.lists hB ht
    rw [hB, Option.bind_some, terminator?_eq hend hl.found, Option.map_some, Option.getD_some] at hc
    have hown : some c ∈ i.targets := by
      unfold Instr.successors at hc
      split at hc
      · exact hc
      · exact hc
      · cases hc
    simpa using htargets hl _ hown

theorem Valid.confines (h : m.Valid dom f) (hf : m.function? f.id = some f) (hbody : f.isDeclaration = false) :
    m.Confines f :=
  confines_of_targets h.toFormed hf hbody h.ends h.targets

end Module

end CilSsa.Ssa

