import CilSsa.Lowering.Method
import CilSsa.Proofs.Memory
import CilSsa.Proofs.SlotMachine

namespace CilSsa.Lowering

open CilSsa.Metadata CilSsa.SlotMachine
open CilSsa.Ssa (BlockId Const FuncId Function Instr Module Origin Value)

section

variable {α β : Type}

def Compiles (c : Compile α) (u : CompilationUnit) (a : α) (u' : CompilationUnit) : Prop := c.run.run u = (.ok a, u')

def Emits (c : Emit α) (s : Stage) (u : CompilationUnit) (a : α) (s' : Stage) (u' : CompilationUnit) : Prop :=
  Compiles (c.run s) u (a, s') u'

def Lowers (c : Lower α) (site : Site) (s : Stage) (u : CompilationUnit) (a : α) (s' : Stage) (u' : CompilationUnit) :
    Prop := Emits (c.run site) s u a s' u'

variable {site : Site} {s s' : Stage} {u u' : CompilationUnit} {a : α} {b : β}

theorem ok_of_toOption {ε : Type} {x : Except ε α} (h : x.toOption = some a) : x = .ok a := by
  cases x with
  | error e => cases h
  | ok b =>
    cases h
    rfl

theorem Compiles.of_toOption {c : Compile α} (h : (c.run.run u).1.toOption = some a) : Compiles c u a (c.run.run u).2 :=
  Prod.ext (ok_of_toOption h) rfl

theorem Compiles.bind_iff {c : Compile α} {f : α → Compile β} :
    Compiles (c >>= f) u b u' ↔ ∃ a u₁, Compiles c u a u₁ ∧ Compiles (f a) u₁ b u' := by
  unfold Compiles
  change ((ExceptT.bindCont f (c.run.run u).1).run (c.run.run u).2 = _) ↔ _
  rcases hc : c.run.run u with ⟨_ | a, u₁⟩
  · constructor
    · intro h
      cases h
    · rintro ⟨a, u₁, h, -⟩
      cases h
  · constructor
    · exact fun h ↦ ⟨a, u₁, rfl, h⟩
    · rintro ⟨a, u₁, h, h'⟩
      cases h
      exact h'

theorem Emits.bind_iff {c : Emit α} {f : α → Emit β} :
    Emits (c >>= f) s u b s' u' ↔ ∃ a s₁ u₁, Emits c s u a s₁ u₁ ∧ Emits (f a) s₁ u₁ b s' u' := by
  unfold Emits
  change Compiles (c.run s >>= fun p ↦ (f p.1).run p.2) u (b, s') u' ↔ _
  rw [Compiles.bind_iff]
  constructor
  · rintro ⟨⟨a, s₁⟩, u₁, h⟩
    exact ⟨a, s₁, u₁, h⟩
  · rintro ⟨a, s₁, u₁, h⟩
    exact ⟨(a, s₁), u₁, h⟩

theorem Lowers.bind_iff {c : Lower α} {f : α → Lower β} :
    Lowers (c >>= f) site s u b s' u' ↔ ∃ a s₁ u₁, Lowers c site s u a s₁ u₁ ∧ Lowers (f a) site s₁ u₁ b s' u' := by
  unfold Lowers
  change Emits (c.run site >>= fun a ↦ (f a).run site) s u b s' u' ↔ _
  exact Emits.bind_iff

theorem Compiles.pure_iff {a' : α} : Compiles (pure a) u a' u' ↔ a = a' ∧ u = u' := by
  unfold Compiles
  change (Except.ok a, u) = _ ↔ _
  simp

theorem Emits.pure_iff {a' : α} : Emits (pure a) s u a' s' u' ↔ a = a' ∧ s = s' ∧ u = u' := by
  unfold Emits
  change Compiles (pure (a, s)) u (a', s') u' ↔ _
  rw [Compiles.pure_iff]
  simp [and_assoc]

theorem Lowers.pure_iff {a' : α} : Lowers (pure a) site s u a' s' u' ↔ a = a' ∧ s = s' ∧ u = u' := Emits.pure_iff

theorem Compiles.throw_iff {e : CompileError} : ¬ Compiles (throw e : Compile α) u a u' := by
  intro h
  cases h

theorem Emits.throw_iff {e : CompileError} : ¬ Emits (throw e : Emit α) s u a s' u' := by
  intro h
  cases h

theorem Lowers.throw_iff {e : CompileError} : ¬ Lowers (throw e : Lower α) site s u a s' u' := by
  intro h
  cases h

theorem Compiles.get_iff {v : CompilationUnit} : Compiles (get : Compile CompilationUnit) u v u' ↔ u = v ∧ u = u' := by
  unfold Compiles
  change (Except.ok u, u) = _ ↔ _
  simp

theorem Compiles.set_iff {v : CompilationUnit} {x : PUnit} : Compiles (set v : Compile PUnit) u x u' ↔ v = u' := by
  unfold Compiles
  change (Except.ok PUnit.unit, v) = _ ↔ _
  simp

theorem Compiles.modify_iff {f : CompilationUnit → CompilationUnit} {x : PUnit} :
    Compiles (modify f : Compile PUnit) u x u' ↔ f u = u' := by
  unfold Compiles
  change (Except.ok PUnit.unit, f u) = _ ↔ _
  simp

theorem Emits.get_iff {v : Stage} : Emits (get : Emit Stage) s u v s' u' ↔ s = v ∧ s = s' ∧ u = u' := by
  unfold Emits Compiles
  change (Except.ok (s, s), u) = _ ↔ _
  simp [and_assoc]

theorem Emits.set_iff {v : Stage} {x : PUnit} : Emits (set v : Emit PUnit) s u x s' u' ↔ v = s' ∧ u = u' := by
  unfold Emits Compiles
  change (Except.ok (PUnit.unit, v), u) = _ ↔ _
  simp

theorem Emits.modify_iff {f : Stage → Stage} {x : PUnit} :
    Emits (modify f : Emit PUnit) s u x s' u' ↔ f s = s' ∧ u = u' := by
  unfold Emits Compiles
  change (Except.ok (PUnit.unit, f s), u) = _ ↔ _
  simp

theorem Emits.modifyGet_iff {f : Stage → α × Stage} :
    Emits (modifyGet f : Emit α) s u a s' u' ↔ f s = (a, s') ∧ u = u' := by
  unfold Emits Compiles
  change (Except.ok (f s), u) = _ ↔ _
  simp

theorem Emits.lift_iff {c : Compile α} : Emits (liftM c : Emit α) s u a s' u' ↔ s = s' ∧ Compiles c u a u' := by
  unfold Emits
  change Compiles (c >>= fun a ↦ pure (a, s)) u (a, s') u' ↔ _
  simp only [Compiles.bind_iff, Compiles.pure_iff, Prod.mk.injEq]
  constructor
  · rintro ⟨a', u₁, h, ⟨rfl, rfl⟩, rfl⟩
    exact ⟨rfl, h⟩
  · rintro ⟨rfl, h⟩
    exact ⟨a, u', h, ⟨rfl, rfl⟩, rfl⟩

theorem Lowers.emit_iff {c : Emit α} : Lowers (liftM c : Lower α) site s u a s' u' ↔ Emits c s u a s' u' := Iff.rfl

theorem Lowers.compile_iff {c : Compile α} :
    Lowers (liftM c : Lower α) site s u a s' u' ↔ s = s' ∧ Compiles c u a u' := Emits.lift_iff

theorem Lowers.read_iff {v : Site} : Lowers (read : Lower Site) site s u v s' u' ↔ site = v ∧ s = s' ∧ u = u' :=
  Emits.pure_iff

theorem Lowers.getThe_iff {v : Stage} : Lowers (getThe Stage : Lower Stage) site s u v s' u' ↔ s = v ∧
    s = s' ∧ u = u' :=
  Emits.get_iff

theorem Lowers.set_iff {v : Stage} {x : PUnit} : Lowers (set v : Lower PUnit) site s u x s' u' ↔ v = s' ∧ u = u' :=
  Emits.set_iff

theorem Lowers.modifyThe_iff {f : Stage → Stage} {x : PUnit} :
    Lowers (modifyThe Stage f : Lower PUnit) site s u x s' u' ↔ f s = s' ∧ u = u' :=
  Emits.modify_iff

end

/-- An instruction with the name, place and number it gets where it is put. -/
def placed (F : Function) (b : Nat) (i : Instr) : Instr :=
  { i with name := (F.uniqueName i.name).1, home := some (F.blockId b), number := F.nextNumber }

section

variable (F : Function)

theorem uniqueName_kept (name : String) : (F.uniqueName name).2.instrs = F.instrs ∧
    (F.uniqueName name).2.blocks = F.blocks ∧ (F.uniqueName name).2.id = F.id ∧
    (F.uniqueName name).2.name = F.name ∧ (F.uniqueName name).2.signature = F.signature ∧
    (F.uniqueName name).2.params = F.params := by
  unfold Function.uniqueName
  split
  · exact ⟨rfl, rfl, rfl, rfl, rfl, rfl⟩
  · split <;> exact ⟨rfl, rfl, rfl, rfl, rfl, rfl⟩

variable (b : Nat) (i : Instr)

theorem append_instrs : (F.append b i).1.instrs = F.instrs.push (placed F b i) := by
  simp only [Function.append, (uniqueName_kept F i.name).1]
  rfl

theorem append_blocks : (F.append b i).1.blocks =
    F.blocks.modify b fun B ↦ { B with instrs := B.instrs ++ [F.instrs.size] } := by
  simp only [Function.append, (uniqueName_kept F i.name).2.1]

theorem append_id : (F.append b i).1.id = F.id := (uniqueName_kept F i.name).2.2.1

theorem append_name : (F.append b i).1.name = F.name := (uniqueName_kept F i.name).2.2.2.1

theorem append_signature : (F.append b i).1.signature = F.signature := (uniqueName_kept F i.name).2.2.2.2.1

theorem append_params : (F.append b i).1.params = F.params := (uniqueName_kept F i.name).2.2.2.2.2

end

/-- Code that grew outside the blocks `kept`. -/
structure Grown (kept : Nat → Prop) (F F' : Function) : Prop where
  id : F'.id = F.id
  name : F'.name = F.name
  signature : F'.signature = F.signature
  params : F'.params = F.params
  instrs : ∀ (k : Nat) (i : Instr), F.instrs[k]? = some i → F'.instrs[k]? = some i
  size : F.instrs.size ≤ F'.instrs.size
  blocks : ∀ c : Nat, kept c → F'.blocks[c]? = F.blocks[c]?

theorem Grown.refl (kept : Nat → Prop) (F : Function) : Grown kept F F :=
  ⟨rfl, rfl, rfl, rfl, fun _ _ h ↦ h, Nat.le_refl _, fun _ _ ↦ rfl⟩

theorem Grown.trans {p q r : Nat → Prop} {F F' F'' : Function} (h : Grown p F F') (h' : Grown q F' F'')
    (hr : ∀ c, r c → p c ∧ q c) : Grown r F F'' :=
  ⟨h'.id.trans h.id, h'.name.trans h.name, h'.signature.trans h.signature, h'.params.trans h.params,
    fun k i hk ↦ h'.instrs k i (h.instrs k i hk), Nat.le_trans h.size h'.size,
    fun c hc ↦ (h'.blocks c (hr c hc).2).trans (h.blocks c (hr c hc).1)⟩

abbrev Grows (b : Nat) : Function → Function → Prop := Grown fun c ↦ c ≠ b

theorem grows_append (F : Function) (b : Nat) (i : Instr) : Grows b F (F.append b i).1 := by
  refine ⟨append_id F b i, append_name F b i, append_signature F b i, append_params F b i, ?_, ?_, ?_⟩
  · intro k j hk
    rw [append_instrs, Array.getElem?_push, if_neg]
    · exact hk
    · rintro rfl
      simp at hk
  · simp [append_instrs]
  · intro c hc
    rw [append_blocks, Array.getElem?_modify, if_neg (Ne.symm hc)]

section

variable {F F' : Function} {fill : FuncId} {args : List UInt64} {b : Nat} {kept : Nat → Prop} {σ₀ σ σ' : Store}

theorem Grown.line {ks : List Nat} (hg : Grown kept F F') (h : Line F fill args ks σ σ') :
    Line F' fill args ks σ σ' := by
  induction h with
  | nil => exact .nil
  | cons hr ha _ ih => exact .cons ⟨hg.instrs _ _ hr.found, hr.types, by rw [hg.id]; exact hr.data⟩ ha ih

theorem Grown.block {ks : List Nat} {e : Exit} (hg : Grown kept F F') (h : Block F fill args ks σ e σ') :
    Block F' fill args ks σ e σ' := by
  obtain ⟨line, j, i, ts, ds, rfl, hl, hr, hleave⟩ := h
  refine ⟨line, j, i, ts, ds, rfl, hg.line hl, ⟨hg.instrs _ _ hr.found, hr.types, ?_⟩, ?_⟩
  · rw [hg.id]
    exact hr.data
  · rw [hg.id]
    exact hleave

/-- The code of block `b` so far takes `σ₀` to `σ`. -/
structure Runs (F : Function) (fill : FuncId) (args : List UInt64) (b : Nat) (σ₀ σ : Store) : Prop where
  line : ∃ B, F.blocks[b]? = some B ∧ Line F fill args B.instrs σ₀ σ
  fresh : ∀ k, F.instrs.size ≤ k → σ.values k = none ∧ σ.slots k = none

theorem Grown.runs (hg : Grown kept F F') (hb : kept b) (h : Runs F fill args b σ₀ σ) : Runs F' fill args b σ₀ σ := by
  obtain ⟨B, hB, hl⟩ := h.line
  exact ⟨⟨B, (hg.blocks b hb).trans hB, hg.line hl⟩, fun k hk ↦ h.fresh k (Nat.le_trans hg.size hk)⟩

theorem append_block {B : Ssa.Block} (hB : F.blocks[b]? = some B) (i : Instr) :
    (F.append b i).1.blocks[b]? = some { B with instrs := B.instrs ++ [F.instrs.size] } := by
  rw [append_blocks, Array.getElem?_modify, if_pos rfl, hB]
  rfl

theorem append_found (i : Instr) : (F.append b i).1.instrs[F.instrs.size]? = some (placed F b i) := by
  rw [append_instrs, Array.getElem?_push, if_pos rfl]

theorem Runs.append (h : Runs F fill args b σ₀ σ) {i : Instr} {ds : List Datum}
    (hd : i.operands.mapM (datum F.id args σ) = some ds)
    (ha : Act fill i F.instrs.size σ (i.operands.map operandType) ds σ') :
    Runs (F.append b i).1 fill args b σ₀ σ' := by
  obtain ⟨B, hB, hl⟩ := h.line
  refine ⟨⟨_, append_block hB i, ?_⟩, ?_⟩
  · refine ((grows_append F b i).line hl).append (.cons (i := placed F b i) ⟨append_found i, rfl,
      ?_⟩ (ha.relabel ..) .nil)
    rw [append_id]
    exact hd
  · intro k hk
    rw [append_instrs, Array.size_push] at hk
    exact ha.fresh (by omega) (h.fresh k (by omega))

theorem Runs.leave (h : Runs F fill args b σ₀ σ) {i : Instr} {ds : List Datum} {x : Exit}
    (hd : i.operands.mapM (datum F.id args σ) = some ds) (hl : Leaves F.id i ds x) :
    ∃ B, (F.append b i).1.blocks[b]? = some B ∧ Block (F.append b i).1 fill args B.instrs σ₀ x σ := by
  obtain ⟨B, hB, hline⟩ := h.line
  refine ⟨_, append_block hB i, B.instrs, F.instrs.size, placed F b i, _, ds, rfl, (grows_append F b i).line hline,
    ⟨append_found i, rfl, ?_⟩, ?_⟩
  · rw [append_id]
    exact hd
  · rw [append_id]
    cases hl with
    | br h1 h2 => exact .br h1 h2
    | condbr h1 h2 => exact .condbr h1 h2
    | ret h1 => exact .ret h1

end

/-- Every function of a module has its place as its number, and those that live are there. -/
structure Numbered (m : Module) : Prop where
  ids : ∀ (j : Nat) (g : Function), m.functions[j]? = some g → g.id = ⟨j⟩
  live : ∀ j ∈ m.liveFunctions, j < m.functions.size

/-- A module where at most function `fn` changed and functions were added. -/
structure Outside (fn : FuncId) (m m' : Module) : Prop where
  others : ∀ (j : Nat) (g : Function), j ≠ fn.index → m.functions[j]? = some g → m'.functions[j]? = some g
  size : m.functions.size ≤ m'.functions.size
  live : m.liveFunctions <+: m'.liveFunctions

theorem Outside.refl (fn : FuncId) (m : Module) : Outside fn m m :=
  ⟨fun _ _ _ h ↦ h, Nat.le_refl _, List.prefix_rfl⟩

theorem Outside.trans {fn : FuncId} {m m' m'' : Module} (h : Outside fn m m') (h' : Outside fn m' m'') :
    Outside fn m m'' :=
  ⟨fun j g hj hg ↦ h'.others j g hj (h.others j g hj hg), Nat.le_trans h.size h'.size, h.live.trans h'.live⟩

section

variable {m : Module} {fn : FuncId} {F F' : Function}

theorem function?_modify (h : m.function? fn = some F) (F' : Function) :
    (m.modifyFunction fn fun _ ↦ F').function? fn = some F' := by
  simp only [Module.function?, Module.modifyFunction] at h ⊢
  rw [Array.getElem?_modify, if_pos rfl, h]
  rfl

theorem outside_modify (F' : Function) :
    Outside fn m (m.modifyFunction fn fun _ ↦ F') := by
  refine ⟨?_, ?_, List.prefix_rfl⟩
  · intro j g hj hg
    simp only [Module.modifyFunction]
    rw [Array.getElem?_modify, if_neg (Ne.symm hj), hg]
  · simp [Module.modifyFunction]

theorem Numbered.modify (hm : Numbered m) (h : m.function? fn = some F) (hid : F'.id = F.id) :
    Numbered (m.modifyFunction fn fun _ ↦ F') := by
  refine ⟨?_, by simpa [Module.modifyFunction] using hm.live⟩
  intro j g hg
  simp only [Module.modifyFunction] at hg
  rw [Array.getElem?_modify] at hg
  split at hg
  · rename_i hj
    subst hj
    rw [show m.functions[fn.index]? = some F from h] at hg
    cases hg
    rw [hid]
    exact hm.ids _ _ h
  · exact hm.ids j g hg

theorem append_eq (h : m.function? fn = some F) (b : Nat) (i : Instr) :
    m.append ⟨fn, b⟩ i = (m.modifyFunction fn fun _ ↦ (F.append b i).1, .instr ⟨fn, F.instrs.size⟩ i.type) := by
  simp only [Module.append, h]
  rfl

end

section

variable {m m' : Module} {fn : FuncId} {F F' : Function}

theorem composed_memsetName : Text.composed Ssa.memsetName = Ssa.memsetName := by
  simp [Text.composed, Ssa.memsetName]

/-- Which function fills memory, where it is not declared yet the one that will be. -/
theorem memset_snd : m.memset.2 = ((m.functionNamed? Ssa.memsetName).map (·.id)).getD ⟨m.functions.size⟩ := by
  unfold Module.memset
  split
  · rename_i f hf
    rw [hf]
    rfl
  · rename_i hf
    simp only [Module.addFunction, Ssa.memsetSignature, hf, Option.isSome_none]
    rfl

theorem functionCalled?_ids {m m' : Module} (hlive : m'.liveFunctions = m.liveFunctions)
    (hsame : ∀ j : Nat, (m'.functions[j]?).map (fun g ↦ (g.name, g.id)) = (m.functions[j]?).map fun g ↦ (g.name, g.id))
    (key : String) : (m'.functionCalled? key).map (·.id) = (m.functionCalled? key).map (·.id) := by
  unfold Module.functionCalled?
  rw [hlive]
  induction m.liveFunctions with
  | nil => rfl
  | cons j js ih =>
    have hj := hsame j
    cases hg : m.functions[j]? with
    | none =>
      rw [hg] at hj
      rw [List.filterMap_cons_none hg, List.filterMap_cons_none (Option.map_eq_none_iff.mp hj)]
      exact ih
    | some g =>
      rw [hg] at hj
      obtain ⟨g', hg', heq⟩ := Option.map_eq_some_iff.mp hj
      simp only [Prod.mk.injEq] at heq
      rw [List.filterMap_cons_some hg, List.filterMap_cons_some hg', List.find?_cons, List.find?_cons, heq.1]
      split
      · rw [Option.map_some, Option.map_some, heq.2]
      · exact ih

theorem memset_modify (h : m.function? fn = some F) (hid : F'.id = F.id) (hname : F'.name = F.name) :
    (m.modifyFunction fn fun _ ↦ F').memset.2 = m.memset.2 := by
  have hsame : ∀ j : Nat, ((m.modifyFunction fn fun _ ↦ F').functions[j]?).map (fun g ↦ (g.name, g.id)) =
      (m.functions[j]?).map fun g ↦ (g.name, g.id) := by
    intro j
    simp only [Module.modifyFunction, Array.getElem?_modify]
    split
    · rename_i hj
      subst hj
      rw [show m.functions[fn.index]? = some F from h]
      simp [hid, hname]
    · rfl
  have hids := functionCalled?_ids (show (m.modifyFunction fn fun _ ↦ F').liveFunctions = m.liveFunctions from rfl)
    hsame (Text.composed Ssa.memsetName)
  rw [memset_snd, memset_snd]
  unfold Module.functionNamed?
  rw [hids]
  simp [Module.modifyFunction]

theorem functionCalled?_spec (hm : Numbered m) {key : String} {g : Function} (h : m.functionCalled? key = some g) :
    m.function? g.id = some g ∧ g.name = key := by
  obtain ⟨j, -, hj⟩ := List.mem_filterMap.mp (List.mem_of_find?_eq_some h)
  refine ⟨?_, by simpa using List.find?_some h⟩
  rw [Module.function?, hm.ids j g hj]
  exact hj

def withFunction (m : Module) (g : Function) : Module :=
  { m with functions := m.functions.push g, liveFunctions := m.liveFunctions ++ [m.functions.size] }

theorem withFunction_kept (m : Module) (g : Function) (j : Nat) (f : Function) (hj : m.functions[j]? = some f) :
    (withFunction m g).functions[j]? = some f := by
  rw [withFunction, Array.getElem?_push, if_neg]
  · exact hj
  · rintro rfl
    simp at hj

theorem Numbered.withFunction (hm : Numbered m) {g : Function} (hg : g.id = ⟨m.functions.size⟩) :
    Numbered (withFunction m g) := by
  constructor
  · intro j f hj
    rw [Lowering.withFunction, Array.getElem?_push] at hj
    split at hj
    · rename_i heq
      cases hj
      rw [hg, heq]
    · exact hm.ids j f hj
  · intro j hj
    simp only [Lowering.withFunction, List.mem_append, List.mem_singleton, Array.size_push] at hj ⊢
    rcases hj with hj | rfl
    · exact Nat.lt_succ_of_lt (hm.live j hj)
    · exact Nat.lt_succ_self _

theorem functionCalled?_withFunction (hm : Numbered m) {g : Function} (h : m.functionCalled? g.name = none) :
    (withFunction m g).functionCalled? g.name = some g := by
  unfold Module.functionCalled? at h ⊢
  have hold : ∀ js : List Nat, (∀ j ∈ js, j < m.functions.size) →
      js.filterMap (fun j ↦ (withFunction m g).functions[j]?) = js.filterMap fun j ↦ m.functions[j]? := by
    intro js hjs
    induction js with
    | nil => rfl
    | cons j js ih =>
      have hj : (withFunction m g).functions[j]? = m.functions[j]? := by
        rw [withFunction, Array.getElem?_push, if_neg (Nat.ne_of_lt (hjs j (by simp)))]
      rw [List.filterMap_cons, List.filterMap_cons, hj, ih fun j hj ↦ hjs j (by simp [hj])]
  have hnew : [m.functions.size].filterMap (fun j ↦ (withFunction m g).functions[j]?) = [g] := by
    simp [withFunction]
  have hlist : (withFunction m g).liveFunctions = m.liveFunctions ++ [m.functions.size] := rfl
  rw [hlist, List.filterMap_append, hold _ hm.live, hnew, List.find?_append, h]
  simp

/-- The function that fills memory is there once it is asked for, and stays the same. -/
structure Filler (m : Module) (fill : FuncId) : Prop where
  same : m.memset.2 = fill
  found : ∃ g, m.function? fill = some g ∧ g.name = Ssa.memsetName

theorem memset_spec (hm : Numbered m) (fn : FuncId) : Numbered m.memset.1 ∧ Filler m.memset.1 m.memset.2 ∧
    Outside fn m m.memset.1 ∧
    ∀ (j : Nat) (g : Function), m.functions[j]? = some g → m.memset.1.functions[j]? = some g := by
  cases hf : m.functionCalled? (Text.composed Ssa.memsetName) with
  | some f =>
    have hms : m.memset = (m, f.id) := by simp only [Module.memset, Module.functionNamed?, hf]
    obtain ⟨hfound, hname⟩ := functionCalled?_spec hm hf
    rw [hms]
    exact ⟨hm, ⟨by rw [hms], f, hfound, hname.trans composed_memsetName⟩, .refl fn m, fun _ _ h ↦ h⟩
  | none =>
    let g : Function := ⟨⟨m.functions.size⟩, Text.composed Ssa.memsetName, Ssa.memsetSignature,
      [⟨"", .bytePointer⟩, ⟨"", .i8⟩, ⟨"", .i64⟩, ⟨"", .i1⟩], #[], #[], [], 0⟩
    have hms : m.memset = (withFunction m g, ⟨m.functions.size⟩) := by
      simp only [Module.memset, Module.addFunction, Module.functionNamed?, hf, Ssa.memsetSignature]
      rfl
    have hnew := functionCalled?_withFunction (g := g) hm hf
    rw [hms]
    refine ⟨hm.withFunction rfl, ⟨?_, g, ?_, composed_memsetName⟩, ⟨?_, ?_, ?_⟩, ?_⟩
    · rw [memset_snd, Module.functionNamed?, hnew]
      rfl
    · simp [Module.function?, withFunction]
    · exact fun j f _ hj ↦ withFunction_kept m g j f hj
    · simp [withFunction]
    · exact List.prefix_append _ _
    · exact withFunction_kept m g

end

/-- What a unit keeps while function `fn` is lowered and calls no other. -/
structure Apart (fn : FuncId) (u u' : CompilationUnit) : Prop where
  module : Outside fn u.module u'.module
  limits : u'.engine.limits = u.engine.limits
  memory : u'.engine.memory = u.engine.memory
  addressed : u'.engine.addressed = u.engine.addressed
  engine : u'.engine.closed = u.engine.closed
  closed : u'.closed = u.closed
  optimize : u'.optimize = u.optimize
  methods : u'.methods = u.methods

theorem Apart.refl (fn : FuncId) (u : CompilationUnit) : Apart fn u u :=
  ⟨.refl fn _, rfl, rfl, rfl, rfl, rfl, rfl, rfl⟩

theorem Apart.trans {fn : FuncId} {u u' u'' : CompilationUnit} (h : Apart fn u u') (h' : Apart fn u' u'') :
    Apart fn u u'' :=
  ⟨h.module.trans h'.module, h'.limits.trans h.limits, h'.memory.trans h.memory, h'.addressed.trans h.addressed,
    h'.engine.trans h.engine, h'.closed.trans h.closed, h'.optimize.trans h.optimize, h'.methods.trans h.methods⟩

def KnowsInt32 (u : CompilationUnit) : Prop := ∀ ct, u.types.lookup int32 = some ct → ct.code = .i32

/-- Function `fn` of a unit has the code `F`, in which only the function `fill` is called. -/
structure Coding (fill fn : FuncId) (u : CompilationUnit) (F : Function) : Prop where
  found : u.module.function? fn = some F
  id : F.id = fn
  numbered : Numbered u.module
  layouts : u.engine.layouts.Plain
  int32 : KnowsInt32 u
  filler : u.module.memset.2 = fill
  callee : ∀ (k : Nat) (i : Instr) (f : FuncId), F.instrs[k]? = some i → i.callee = some f →
    f = fill ∧ Filler u.module fill

/-- Code that grew in block `b`, and the unit it is in. -/
structure Growth (fill fn : FuncId) (b : Nat) (u : CompilationUnit) (F : Function) (u' : CompilationUnit)
    (F' : Function) : Prop where
  coding : Coding fill fn u' F'
  apart : Apart fn u u'
  grows : Grows b F F'

section

variable {fill fn : FuncId} {b : Nat} {u u' u'' : CompilationUnit} {F F' F'' : Function} {s s' : Stage} {v : Value}

theorem Growth.refl (h : Coding fill fn u F) (b : Nat) : Growth fill fn b u F u F := ⟨h, .refl fn u, .refl _ F⟩

theorem Growth.trans (h : Growth fill fn b u F u' F') (h' : Growth fill fn b u' F' u'' F'') :
    Growth fill fn b u F u'' F'' :=
  ⟨h'.coding, h.apart.trans h'.apart, h.grows.trans h'.grows fun _ hc ↦ ⟨hc, hc⟩⟩

theorem Filler.modify {m : Module} (h : Filler m fill) (hF : m.function? fn = some F) (hid : F'.id = F.id)
    (hname : F'.name = F.name) : Filler (m.modifyFunction fn fun _ ↦ F') fill := by
  refine ⟨(memset_modify hF hid hname).trans h.same, ?_⟩
  obtain ⟨g, hg, hn⟩ := h.found
  by_cases heq : fill.index = fn.index
  · have : g = F := by
      simp only [Module.function?, heq] at hg hF
      exact Option.some.inj (hg.symm.trans hF)
    subst this
    refine ⟨F', ?_, hname.trans hn⟩
    have := function?_modify hF F'
    simpa only [Module.function?, heq] using this
  · exact ⟨g, (outside_modify F').others _ _ heq hg, hn⟩

theorem append_growth {m : Module} (h : Coding fill fn u F) (hm : u.module = m) (b : Nat) (i : Instr)
    (hi : ∀ f, i.callee = some f → f = fill ∧ Filler m fill) :
    Growth fill fn b u F { u with module := (m.append ⟨fn, b⟩ i).1 } (F.append b i).1 := by
  subst hm
  rw [append_eq h.found b i]
  refine ⟨?_, ⟨outside_modify _, rfl, rfl, rfl, rfl, rfl, rfl, rfl⟩, grows_append F b i⟩
  refine ⟨function?_modify h.found _, (append_id F b i).trans h.id, h.numbered.modify h.found (append_id F b i),
    h.layouts, h.int32, (memset_modify h.found (append_id F b i) (append_name F b i)).trans h.filler, ?_⟩
  intro k j f hk hj
  rw [append_instrs, Array.getElem?_push] at hk
  split at hk
  · cases hk
    obtain ⟨hf, hfill⟩ := hi f hj
    exact ⟨hf, hfill.modify h.found (append_id F b i) (append_name F b i)⟩
  · obtain ⟨hf, hfill⟩ := h.callee k j f hk hj
    exact ⟨hf, hfill.modify h.found (append_id F b i) (append_name F b i)⟩

theorem emitAt_growth (h : Coding fill fn u F) {i : Instr} (he : Emits (emitAt b i) s u v s' u') (hs : s.fn = fn)
    (hi : i.callee = none) :
    s' = s ∧ v = .instr ⟨fn, F.instrs.size⟩ i.type ∧ Growth fill fn b u F u' (F.append b i).1 := by
  subst hs
  unfold emitAt onModule at he
  simp only [Emits.bind_iff, Emits.get_iff, Emits.lift_iff, Compiles.bind_iff, Compiles.get_iff] at he
  obtain ⟨_, _, _, ⟨rfl, rfl, rfl⟩, rfl, _, _, ⟨rfl, rfl⟩, he⟩ := he
  simp only [Compiles.set_iff, Compiles.pure_iff] at he
  obtain ⟨_, _, rfl, rfl, rfl⟩ := he
  refine ⟨rfl, ?_, append_growth h rfl b i fun f hf ↦ ?_⟩
  · rw [append_eq h.found b i]
  · rw [hi] at hf
    cases hf

theorem emit_growth (h : Coding fill fn u F) {i : Instr} (he : Emits (emit i) s u v s' u') (hs : s.fn = fn)
    (hi : i.callee = none) :
    s' = s ∧ v = .instr ⟨fn, F.instrs.size⟩ i.type ∧ Growth fill fn s.block u F u' (F.append s.block i).1 := by
  unfold emit at he
  simp only [Emits.bind_iff, Emits.get_iff] at he
  obtain ⟨_, _, _, ⟨rfl, rfl, rfl⟩, he⟩ := he
  exact emitAt_growth h he hs hi

theorem intConst_stage {t : Ssa.Ty} {n : Int} (he : Emits (intConst t n) s u v s' u') :
    u' = u ∧ v = .const (.ofInt t (Number.wordOfInt n)) (.made s.constants) ∧
      s' = { s with constants := s.constants + 1 } := by
  unfold intConst constant at he
  simp only [Emits.modifyGet_iff, Prod.mk.injEq] at he
  obtain ⟨⟨rfl, rfl⟩, rfl⟩ := he
  exact ⟨rfl, rfl, rfl⟩

theorem codeType_unit {world : Universe} {t : Ssa.Ty} (hu : KnowsInt32 u)
    (hc : Compiles (codeType world int32) u t u') :
    t = .i32 ∧ KnowsInt32 u' ∧ ∃ types journal, u' = { u with types, journal } := by
  unfold codeType at hc
  simp only [Compiles.bind_iff, Compiles.pure_iff] at hc
  obtain ⟨ct, _, hc, rfl, rfl⟩ := hc
  obtain ⟨n, hn⟩ : ∃ n, world.nestingLimit = n + 1 := ⟨_, rfl⟩
  rw [hn, compileType] at hc
  have hne : ¬ int32 = .missing := by decide
  simp only [Compiles.bind_iff, Compiles.get_iff, hne, if_false] at hc
  obtain ⟨_, _, ⟨rfl, rfl⟩, hc⟩ := hc
  cases hl : u.types.lookup int32 with
  | some ct' =>
    rw [hl, Compiles.pure_iff] at hc
    obtain ⟨rfl, rfl⟩ := hc
    exact ⟨hu _ hl, hu, _, _, rfl⟩
  | none =>
    rw [hl] at hc
    change Compiles (remember ⟨int32, .i32, []⟩) u ct _ at hc
    unfold remember at hc
    simp only [Compiles.bind_iff, Compiles.modify_iff, Compiles.pure_iff] at hc
    obtain ⟨_, _, rfl, rfl, rfl⟩ := hc
    refine ⟨rfl, ?_, _, _, rfl⟩
    intro ct hct
    simp only [List.lookup_cons, beq_self_eq_true] at hct
    cases hct
    rfl

theorem codeType_int32 {world : Universe} {t : Ssa.Ty} (h : Coding fill fn u F) (b : Nat)
    (hc : Compiles (codeType world int32) u t u') : t = .i32 ∧ Growth fill fn b u F u' F := by
  obtain ⟨rfl, hu, types, journal, rfl⟩ := codeType_unit h.int32 hc
  exact ⟨rfl, ⟨h.found, h.id, h.numbered, h.layouts, hu, h.filler, h.callee⟩,
    ⟨.refl fn _, rfl, rfl, rfl, rfl, rfl, rfl, rfl⟩, .refl _ F⟩

theorem sizeOf_scalar {t : Ssa.Ty} {l : Ssa.Layout} {n : Int} (ht : Ssa.scalarLayout? t = some l)
    (h : Coding fill fn u F) (b : Nat) (hc : Compiles (sizeOf t) u n u') : n = l.size ∧ Growth fill fn b u F u' F := by
  unfold sizeOf layoutOf at hc
  simp only [Compiles.bind_iff, Compiles.get_iff, Compiles.pure_iff] at hc
  obtain ⟨l', _, ⟨_, _, ⟨rfl, rfl⟩, hc⟩, rfl, rfl⟩ := hc
  obtain ⟨hl, hp⟩ := h.layouts.of u.module ht
  simp only [hl, Compiles.set_iff] at hc
  obtain ⟨_, _, rfl, hc⟩ := hc
  rw [Compiles.pure_iff] at hc
  obtain ⟨rfl, rfl⟩ := hc
  exact ⟨rfl, ⟨h.found, h.id, h.numbered, hp, h.int32, h.filler, h.callee⟩,
    ⟨.refl fn _, rfl, rfl, rfl, rfl, rfl, rfl, rfl⟩, .refl _ F⟩

/-- The call that clears `size` bytes at `p`; its constants are numbered from `n` on. -/
def clearing (fill : FuncId) (p : Value) (size : UInt64) (n : Nat) : Instr :=
  .call fill .void [some p, some (.const (.ofInt .i8 0) (.made n)), some (.const (.ofInt .i64 size) (.made (n + 1))),
    some (.const (.ofInt .i1 0) (.made (n + 2)))] ""

theorem clearAt_growth (h : Coding fill fn u F) {dst : Value} {size : Int} {x : Unit}
    (he : Emits (clearAt b dst size) s u x s' u') (hs : s.fn = fn) (hd : dst.type = .pointer .i32) :
    (∃ n, s' = { s with constants := n }) ∧ ∃ n, Growth fill fn b u F u'
      ((F.append b (.cast .bitcast dst .bytePointer "")).1.append b
        (clearing fill (.instr ⟨fn, F.instrs.size⟩ .bytePointer) (Number.wordOfInt size) n)).1 := by
  subst hs
  unfold clearAt onModule at he
  simp only [Emits.bind_iff, Emits.get_iff, Emits.set_iff, Emits.lift_iff, Emits.pure_iff, Compiles.bind_iff,
    Compiles.get_iff] at he
  obtain ⟨_, _, _, ⟨rfl, rfl, rfl⟩, _, _, _, ⟨rfl, rfl⟩, v, _, _, ⟨rfl, _, _, ⟨rfl, rfl⟩, he⟩, -, rfl, rfl⟩ := he
  refine ⟨⟨_, rfl⟩, s.constants, ?_⟩
  obtain ⟨hnum, hfill, hout, hkept⟩ := memset_spec h.numbered s.fn
  rw [h.filler] at hfill
  have hstart : Growth fill s.fn b u F { u with module := u.module.memset.1 } F :=
    ⟨⟨hkept _ _ h.found, h.id, hnum, h.layouts, h.int32, hfill.same,
      fun k i f hk hf ↦ ⟨(h.callee k i f hk hf).1, hfill⟩⟩, ⟨hout, rfl, rfl, rfl, rfl, rfl, rfl, rfl⟩, .refl _ F⟩
  have hcast := append_growth hstart.coding rfl b (.cast .bitcast dst .bytePointer "") nofun
  have hfill' : Filler (u.module.memset.1.append ⟨s.fn, b⟩ (.cast .bitcast dst .bytePointer "")).1 fill := by
    rw [append_eq hstart.coding.found b _]
    exact hfill.modify hstart.coding.found (append_id ..) (append_name ..)
  have hcall := append_growth hcast.coding rfl b
    (clearing fill (.instr ⟨s.fn, F.instrs.size⟩ .bytePointer) (Number.wordOfInt size) s.constants)
    fun f hf ↦ ⟨(Option.some.inj hf).symm, hfill'⟩
  have hmodule : u.module.appendMemset ⟨s.fn, b⟩ dst 0 (Number.wordOfInt size) (fun k ↦ .made (s.constants + k)) =
      (u.module.memset.1.append ⟨s.fn, b⟩ (.cast .bitcast dst .bytePointer "")).1.append ⟨s.fn, b⟩
        (clearing fill (.instr ⟨s.fn, F.instrs.size⟩ .bytePointer) (Number.wordOfInt size) s.constants) := by
    have hp : (u.module.memset.1.append ⟨s.fn, b⟩ (.cast .bitcast dst .bytePointer "")).2 =
        .instr ⟨s.fn, F.instrs.size⟩ .bytePointer := by
      rw [append_eq hstart.coding.found b _]
      rfl
    rw [← hp, ← h.filler]
    simp only [Module.appendMemset, Module.appendOr, Ssa.Instr.pointerCast?, hd]
    rfl
  rw [hmodule] at he
  simp only [Compiles.set_iff, Compiles.pure_iff] at he
  obtain ⟨_, _, rfl, -, rfl⟩ := he
  exact (hstart.trans hcast).trans hcall

end

end CilSsa.Lowering

