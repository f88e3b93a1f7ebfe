import CilSsa.Proofs.LocalNames
import CilSsa.Proofs.TypedUnits

namespace CilSsa.Metadata.Method

def Slotted (m : Method) (i : Nat) : Prop := ∃ t, m.receives[i]? = some t ∧ t.isByRef = false

end CilSsa.Metadata.Method

namespace CilSsa.Lowering

open CilSsa.Bytecode CilSsa.Metadata
open CilSsa.Ssa (FuncId Function Instr Module SlotName Spelled argumentName)

/-- The names in the functions of a unit's methods are good, and the functions in `pending` belong to their methods
alone. -/
structure Naming (world : Universe) (pending : List (FuncId × Method)) (u : CompilationUnit) : Prop where
  ids : ∀ (j : Nat) (F : Function), u.module.functions[j]? = some F → F.id = ⟨j⟩
  below : ∀ e ∈ u.methods, e.2.index < u.module.functions.size
  named : ∀ e ∈ u.methods, ∀ m, world.method? e.1 = some m → ∀ F, u.module.function? e.2 = some F →
    F.Named m.Slotted ∧ F.Listed
  pending : ∀ p ∈ pending, (p.2.id, p.1) ∈ u.methods ∧ ∀ e ∈ u.methods, e.2 = p.1 → e.1 = p.2.id

section

variable {α : Type} {world : Universe} {pending : List (FuncId × Method)} {u u' : CompilationUnit}
  {m : Method} {fn : FuncId} {F F' : Function}

theorem Naming.of_functions (h : Naming world pending u) (hf : u'.module.functions = u.module.functions)
    (hm : u'.methods = u.methods) : Naming world pending u' := by
  refine ⟨hf ▸ h.ids, hf ▸ hm ▸ h.below, fun e he m hem F hF ↦ h.named e (hm ▸ he) m hem F ?_, hm ▸ h.pending⟩
  rwa [Module.function?, hf] at hF

theorem Naming.tail {p : FuncId × Method} (h : Naming world (p :: pending) u) : Naming world pending u :=
  ⟨h.ids, h.below, h.named, fun q hq ↦ h.pending q (List.mem_cons_of_mem p hq)⟩

theorem Naming.modify (h : Naming world pending u) (hF : u.module.function? fn = some F) (hid : F'.id = F.id)
    (hkeep : ∀ e ∈ u.methods, e.2 = fn → ∀ m, world.method? e.1 = some m → F.Named m.Slotted ∧ F.Listed →
      F'.Named m.Slotted ∧ F'.Listed) :
    Naming world pending { u with module := u.module.modifyFunction fn fun _ ↦ F' } := by
  have hsize : (u.module.modifyFunction fn fun _ ↦ F').functions.size = u.module.functions.size := Array.size_modify
  refine ⟨fun j G hG ↦ ?_, hsize ▸ h.below, fun e he m hm G hG ↦ ?_, h.pending⟩
  · simp only [Module.modifyFunction] at hG
    rw [Array.getElem?_modify] at hG
    split at hG
    · rename_i hj
      obtain ⟨G', hG', rfl⟩ := Option.map_eq_some_iff.mp hG
      have hj' : u.module.functions[j]? = some F := hj ▸ hF
      exact hid.trans (h.ids j F hj')
    · exact h.ids j G hG
  · by_cases hefn : e.2 = fn
    · rw [hefn, function?_modify hF] at hG
      cases hG
      exact hkeep e he hefn m hm (h.named e he m hm F (hefn ▸ hF))
    · rw [function?_modify_ne _ hefn] at hG
      exact h.named e he m hm G hG

theorem Naming.withFunction (h : Naming world pending u) {g : Function} (hg : g.id = ⟨u.module.functions.size⟩) :
    Naming world pending { u with module := withFunction u.module g } := by
  have hsize : (Lowering.withFunction u.module g).functions.size = u.module.functions.size + 1 := Array.size_push ..
  have hold : ∀ {j : Nat} {G : Function}, j < u.module.functions.size →
    (Lowering.withFunction u.module g).functions[j]? = some G →
      u.module.functions[j]? = some G := by
    intro j G hj hG
    rwa [Lowering.withFunction, Array.getElem?_push, if_neg (by omega)] at hG
  refine ⟨fun j G hG ↦ ?_, fun e he ↦ ?_, fun e he m hm G hG ↦ h.named e he m hm G (hold (h.below e he) hG), h.pending⟩
  · by_cases hj : j < u.module.functions.size
    · exact h.ids j G (hold hj hG)
    · simp only [Lowering.withFunction, Array.getElem?_push] at hG
      split at hG
      · rename_i hj
        cases hG
        rw [hg, hj]
      · exact h.ids j G hG
  · exact Nat.lt_of_lt_of_le (h.below e he) (hsize ▸ Nat.le_succ _)

theorem Naming.append (h : Naming world pending u) (b : Nat) {i : Instr}
    (hi : i.name = "" ∨ Spelled i.name ∧ i.op = .alloca)
    (harg : ∀ e ∈ u.methods, e.2 = fn → ∀ m, world.method? e.1 = some m → ∀ j, i.name = argumentName j → m.Slotted j) :
    Naming world pending { u with module := (u.module.append ⟨fn, b⟩ i).1 } := by
  cases hF : u.module.function? fn with
  | none =>
    refine h.of_functions ?_ rfl
    simp only [Module.append, hF]
  | some F =>
    rw [append_eq hF]
    exact h.modify hF (append_id F b i) fun e he hefn m hm hkept ↦ ⟨hkept.1.append b hi (harg e he hefn m hm),
      hkept.2.append b i⟩

theorem Naming.addBlock (h : Naming world pending u) {name : String} (hname : Spelled name)
    (harg : ∀ i, name ≠ argumentName i) : Naming world pending { u with module := (u.module.addBlock fn name).1 } := by
  cases hF : u.module.function? fn with
  | none =>
    refine h.of_functions ?_ rfl
    simp only [Module.addBlock, hF]
  | some F =>
    have hadd : (u.module.addBlock fn name).1 = u.module.modifyFunction fn fun _ ↦ (F.addBlock name).1 := by
      simp only [Module.addBlock, hF]
    rw [hadd]
    exact h.modify hF (uniqueName_kept F _).2.2.1 fun e _ _ m _ hkept ↦
      ⟨hkept.1.addBlock hname harg, hkept.2.addBlock name⟩

instance stable_naming : Stable (Naming world pending) (Naming world pending) where
  fails := id
  same h hs := h.of_functions (by rw [hs.module]) hs.methods
  sameFailed h hs := h.of_functions (by rw [hs.module]) hs.methods

instance typeless_naming : Typeless (Naming world pending) (Naming world pending) where
  fails := id
  compiled h hs := h.of_functions hs.functions hs.methods
  abandoned _ h := h.of_functions rfl rfl

/-- Nothing that lowering makes is called like a parameter, but the slots of arguments. -/
instance extendable_naming : Extendable (Naming world pending) (Naming world pending) fn where
  append := by
    intro u b i hi h
    cases hi with
    | unnamed hnone =>
      refine h.append b (.inl hnone) fun e he hefn m hm j hj ↦ ?_
      exact absurd (hj.symm.trans hnone) (Spelled.argumentName j).ne_empty
    | slot hop hname =>
      exact h.append b (.inr ⟨.ofSlot hname, hop⟩) fun e he hefn m hm j hj ↦ absurd hj (hname.ne_argumentName j)
  memset h := by
    rcases memset_cases _ with hms | ⟨-, g, hid, -, -, hms⟩
    · exact hms ▸ h
    · rw [hms]
      exact h.withFunction hid

theorem naming_lowerBody {compile : Method → Compile FuncId} (hm : Found world m)
    (hmethods : ∀ id m', world.method? id = some m' → Spec (Naming world ((fn, m) :: pending)) (compile m')
      (fun _ ↦ Naming world ((fn, m) :: pending)) (Naming world ((fn, m) :: pending)))
    (body : Body) (hF : F.id = fn) :
    Spec (Naming world ((fn, m) :: pending)) (lowerBody world compile m body m.receives F)
      (fun _ ↦ Naming world ((fn, m) :: pending)) (Naming world ((fn, m) :: pending)) := by
  refine spec_lowerBodyWith (fun _ hu ↦ hu) hF (Typeless.spec_compileType _) (fun t i hti hbyref ↦ ?_)
    (fun u hu ↦ hu.addBlock .init (Ssa.ne_argumentName rfl (by decide)))
    (fun u n hu ↦ hu.addBlock (.offsetLabel n) (Ssa.ne_argumentName (toList_offsetLabel n) (by decide)))
    fun site hworld hcompile number sp ↦ ?_
  · refine safe_append fun u hu ↦ hu.append 0 (.inr ⟨.argumentName i, rfl⟩) fun e he hefn m' hm' j hj ↦ ?_
    -- The function is that of the method itself, whose argument `i` this is.
    rw [(hu.pending _ List.mem_cons_self).2 e he hefn] at hm'
    obtain rfl : m = m' := Option.some.inj (hm.symm.trans hm')
    obtain rfl : i = j := Ssa.argumentName_injective hj
    exact ⟨t, List.mem_zipIdx_iff_getElem?.mp hti, hbyref⟩
  · have : Supports (Naming world ((fn, m) :: pending)) (Naming world ((fn, m) :: pending)) site :=
      ⟨Typeless.spec_compileType _, fun id m' hm' ↦ hcompile ▸ hmethods id m' (hworld ▸ hm')⟩
    exact safe_lowerTraced number sp

theorem naming_verify (m : Method) (f : FuncId) (span : Trace.Span) :
    Spec (Naming world pending) (verify m f span) (fun _ ↦ Naming world pending) (Naming world pending) := by
  refine .of_get fun v ↦ .forget fun hv ↦ ?_
  split
  · exact .pure fun _ hu ↦ hu
  · refine (spec_endSpan span _ true).bind fun _ ↦ ?_
    exact Spec.bind (Q := fun _ ↦ Naming world pending) (.modify fun u hu ↦ hu.of_functions rfl rfl) fun _ ↦
    .throw fun _ hu ↦ hu

theorem naming_optimise (f : FuncId) (span : Trace.Span) :
    Spec (Naming world pending) (optimise f span) (fun _ ↦ Naming world pending) (Naming world pending) := by
  refine .of_get fun v ↦ .forget fun hv ↦ ?_
  split
  · exact .pure fun _ hu ↦ hu
  · rename_i F hF
    refine Spec.bind (Q := fun _ ↦ Naming world pending) (.set fun u _ ↦ ?_) fun _ ↦ .pure fun _ hu ↦ hu
    have hsame := Function.SameNames.covers.runPasses Passes.Pass.all F
    exact hv.modify hF (Passes.sameHeading_runPasses Passes.Pass.all F).id fun e _ _ m _ hkept ↦
      ⟨hsame.named hkept.1, hsame.listed hkept.2⟩

theorem naming_buildBody {compile : Method → Compile FuncId} (hm : Found world m)
    (hmethods : ∀ id m', world.method? id = some m' → Spec (Naming world ((fn, m) :: pending)) (compile m')
      (fun _ ↦ Naming world ((fn, m) :: pending)) (Naming world ((fn, m) :: pending))) (body : Body) :
    Spec (Naming world ((fn, m) :: pending)) (buildBody world compile m body m.receives fn)
      (fun _ ↦ Naming world ((fn, m) :: pending)) (Naming world ((fn, m) :: pending)) := by
  unfold buildBody
  refine (spec_beginSpan _ _).bind fun span ↦ spec_inside (.of_get fun v ↦ .forget fun hv ↦ ?_)
  split
  · exact .pure fun _ hu ↦ hu
  · rename_i F hF
    refine (spec_failing (fun h hs ↦ h.of_functions (by rw [hs.module]) hs.methods)
      (naming_lowerBody hm hmethods body (hv.ids _ F hF))).bind fun blocks ↦ ?_
    refine (naming_verify m fn span).bind fun _ ↦ .of_get fun v' ↦ .forget fun _ ↦ ?_
    dsimp only
    split
    · exact (naming_optimise fn span).bind fun _ ↦ spec_endSpan _ _ _
    · exact Spec.bind (Q := fun _ ↦ Naming world ((fn, m) :: pending)) (.pure fun _ hu ↦ hu) fun _ ↦ spec_endSpan _ _ _

theorem Naming.register (h : Naming world pending u) (m : Method) {g : Function}
    (hid : g.id = ⟨u.module.functions.size⟩) (hparams : ∀ p ∈ g.params, p.name = "") (hblocks : g.blocks = #[])
    (hinstrs : g.instrs = #[]) (j : Journal) : Naming world ((g.id, m) :: pending)
      { u with module := Lowering.withFunction u.module g, methods := (m.id, g.id) :: u.methods, journal := j } := by
  have hgrown := h.withFunction hid
  -- The function was no method's before, because all of these have smaller numbers.
  have hne : ∀ e ∈ u.methods, e.2 ≠ g.id := by
    intro e he heq
    have hlt := h.below e he
    rw [heq, hid] at hlt
    exact absurd hlt (Nat.lt_irrefl _)
  refine ⟨hgrown.ids, fun e he ↦ ?_, fun e he m' hm' F hF ↦ ?_, fun p hp ↦ ?_⟩
  · rcases List.mem_cons.mp he with rfl | he
    · dsimp only
      rw [hid, Lowering.withFunction, Array.size_push]
      exact Nat.lt_succ_self _
    · exact hgrown.below e he
  · rcases List.mem_cons.mp he with rfl | he
    · simp only [Module.function?, Lowering.withFunction, hid, Array.getElem?_push_size] at hF
      cases hF
      exact ⟨.empty hparams hblocks hinstrs, .empty hblocks⟩
    · exact hgrown.named e he m' hm' F hF
  · rcases List.mem_cons.mp hp with rfl | hp
    · refine ⟨List.mem_cons_self, fun e he heq ↦ ?_⟩
      rcases List.mem_cons.mp he with rfl | he
      · rfl
      · exact absurd heq (hne e he)
    · obtain ⟨hmem, hown⟩ := h.pending p hp
      refine ⟨List.mem_cons_of_mem _ hmem, fun e he heq ↦ ?_⟩
      rcases List.mem_cons.mp he with rfl | he
      · exact absurd heq.symm (hne _ hmem)
      · exact hown e he heq

theorem naming_register (m : Method) (sig : Ssa.Ty) : Spec (Naming world pending) (register m sig)
    (fun f ↦ Naming world ((f, m) :: pending)) (Naming world pending) := by
  refine .of_get fun v ↦ .forget fun hv ↦ ?_
  dsimp only
  unfold Module.addFunction
  split
  · exact .throw fun _ hu ↦ hu
  rename_i hadd
  split at hadd
  · split at hadd
    · cases hadd
    rename_i ret params _
    cases hadd
    refine Spec.bind (Q := fun _ ↦ Naming world ((⟨v.module.functions.size⟩, m) :: pending)) (.set fun u _ ↦ ?_) fun _ ↦
      .pure fun _ hu ↦ hu
    refine hv.register m (g := { id := ⟨v.module.functions.size⟩, signature := .func ret params, .. }) rfl ?_ rfl rfl _
    intro p hp
    obtain ⟨t, -, rfl⟩ := List.mem_map.mp hp
    rfl
  · cases hadd

theorem naming_compileMethod (hworld : Consistent world) (fuel : Nat) {m : Method} (hm : Found world m) :
    Spec (Naming world pending) (compileMethod world fuel m) (fun f u ↦ (m.id, f) ∈ u.methods ∧ Naming world pending u)
      (Naming world pending) := by
  induction fuel generalizing m pending with
  | zero => exact .throw fun _ hu ↦ hu
  | succ fuel ih =>
    rw [compileMethod]
    refine .of_get fun v ↦ ?_
    split
    · rename_i f hf
      refine .pure fun u hu ↦ ?_
      obtain ⟨rfl, hu⟩ := hu
      exact ⟨mem_of_lookup hf, hu⟩
    refine .forget fun _ ↦ ?_
    have hargs : Spec (Naming world pending) (argumentTypes m) (fun args u ↦ args = m.receives ∧ Naming world pending u)
        (Naming world pending) := by
      intro u hu
      exact ⟨(spec_argumentTypes_receives m u hu).1, (Typeless.spec_argumentTypes m u hu).2⟩
    refine hargs.bind fun args ↦ .of_and ?_
    rintro rfl
    have hregistered : ∀ f u, Naming world ((f, m) :: pending) u → (m.id, f) ∈ u.methods ∧ Naming world pending u :=
      fun f u hu ↦ ⟨(hu.pending _ List.mem_cons_self).1, hu.tail⟩
    refine (Typeless.spec_signature m _).bind fun sig ↦ (naming_register m sig).bind fun f ↦ ?_
    split
    · exact .pure (hregistered f)
    · rename_i body _
      have hmethods : ∀ id m', world.method? id = some m' → Spec (Naming world ((f, m) :: pending))
          (compileMethod world fuel m')
          (fun _ ↦ Naming world ((f, m) :: pending)) (Naming world ((f, m) :: pending)) := fun id m' hm' ↦
        (ih (hworld id m' hm')).imp (fun _ hu ↦ hu) fun _ _ hu ↦ hu.2
      exact ((naming_buildBody hm hmethods body).weaken fun _ hu ↦ hu.tail).bind fun _ ↦ .pure (hregistered f)

/-! ### Between requests -/

theorem forgetMethod_functions (w : CompilationUnit) (k : MethodId) :
    (w.forgetMethod k).module.functions = w.module.functions ∧ ∀ e ∈ (w.forgetMethod k).methods, e ∈ w.methods := by
  unfold CompilationUnit.forgetMethod
  split
  · exact ⟨rfl, fun _ he ↦ he⟩
  · refine ⟨?_, fun _ he ↦ List.mem_of_mem_filter he⟩
    dsimp only
    split <;> rfl

theorem Naming.rollBack (h : Naming world [] u) : Naming world [] u.rollBack := by
  refine rollBack_induction h (fun w k hw ↦ ?_) (fun w t hw ↦ ?_) fun w hw ↦ hw.of_functions rfl rfl
  · obtain ⟨hfunctions, hmethods⟩ := forgetMethod_functions w k
    refine ⟨hfunctions ▸ hw.ids, fun e he ↦ hfunctions ▸ hw.below e (hmethods e he), fun e he m hm F hF ↦ ?_, nofun⟩
    rw [Module.function?, hfunctions] at hF
    exact hw.named e (hmethods e he) m hm F hF
  · unfold CompilationUnit.forgetType
    split
    · exact hw
    · refine hw.of_functions ?_ rfl
      dsimp only
      split <;> rfl

theorem Naming.request {α : Type} {c : Compile α} {Q : α → CompilationUnit → Prop} (h : Naming world [] u)
    (hc : Spec (Naming world []) c (fun a v ↦ Q a v ∧ Naming world [] v) (Naming world [])) :
    Naming world [] (Lowering.request c u).2 := by
  unfold Lowering.request
  split
  · exact h
  · obtain ⟨hok, herror⟩ := hc { u with journal := {} } (h.of_functions rfl rfl)
    split
    · rename_i a v hrun
      exact (hok a v hrun).2.of_functions rfl rfl
    · rename_i e v hrun
      exact (herror e v hrun).rollBack

theorem Naming.getMethod (h : Naming world [] u) (hworld : Consistent world) (hm : Found world m) :
    Naming world [] (getMethod world m u).2 := h.request (naming_compileMethod hworld _ hm)

theorem Naming.functionAddress (h : Naming world [] u) (hworld : Consistent world) (hm : Found world m) :
    Naming world [] (u.functionAddress world m).2 := by
  have hget := h.getMethod hworld hm
  unfold CompilationUnit.functionAddress
  split
  · rename_i e u' hrun
    rw [hrun] at hget
    exact hget
  · rename_i f u' hrun
    rw [hrun] at hget
    exact hget.of_functions rfl rfl

theorem Naming.invokeFor (h : Naming world [] u) (hworld : Consistent world) (hm : Found world m) (fuel : Nat)
    (args : List UInt64) : Naming world [] (u.invokeFor fuel world m args).2 := by
  have hget := h.functionAddress hworld hm
  unfold CompilationUnit.invokeFor
  split
  · rename_i e u' hrun
    rw [hrun] at hget
    exact hget
  · rename_i address u' hrun
    rw [hrun] at hget
    exact hget.of_functions rfl rfl

theorem CompilationUnit.Reachable.naming (hworld : Consistent world) (h : u.Reachable world) : Naming world [] u := by
  induction h with
  | create => exact ⟨fun j F hF ↦ by simp [CompilationUnit.create] at hF, nofun, nofun, nofun⟩
  | type t _ ih =>
    exact ih.request (Q := fun _ _ ↦ True) ((Typeless.spec_compileType _ t).imp (fun _ hu ↦ hu) fun _ _
      hu ↦ ⟨trivial, hu⟩)
  | method hm _ ih => exact ih.getMethod hworld hm
  | address hm _ ih => exact ih.functionAddress hworld hm
  | invoke hm fuel args _ ih => exact ih.invokeFor hworld hm fuel args
  | close _ ih => exact ih.of_functions rfl rfl

theorem printFunction_eq {M : Module} (hF : M.function? fn = some F) :
    (M.printFunction fn).2 = (M.modifyFunction fn Function.renumber).functionText F.renumber := by
  have hrenumbered : (M.modifyFunction fn Function.renumber).function? fn = some F.renumber := by
    rw [Module.function?] at hF ⊢
    rw [Module.modifyFunction, Array.getElem?_modify, if_pos rfl, hF]
    rfl
  simp only [Module.printFunction, hrenumbered, Option.map_some, Option.getD_some]

/-- In the text of a method's function blocks and results have different local names, and so have the parameters; only
the slot of an argument that is no reference can have the name of a parameter. So all local names differ if all
arguments are references. -/
theorem local_names (hworld : Consistent world) (h : u.Reachable world) (hm : Found world m) {f : FuncId}
    {v : CompilationUnit} (hget : getMethod world m u = (.ok f, v)) : ∃ F, v.module.function? f = some F ∧
      (v.module.printFunction f).2 = (v.module.modifyFunction f Function.renumber).functionText F.renumber ∧
      F.renumber.Unambiguous m.Slotted ∧
      ((∀ t ∈ m.receives, t.isByRef = true) →
        (F.renumber.paramNames ++ (F.renumber.labelNames ++ F.renumber.resultNames)).Nodup) := by
  have hregistered : (m.id, f) ∈ v.methods ∧ Naming world [] v := by
    unfold Lowering.getMethod Lowering.request at hget
    split at hget
    · cases hget
    · have hstart : Naming world [] { u with journal := {} } := (h.naming hworld).of_functions rfl rfl
      obtain ⟨hok, -⟩ := naming_compileMethod hworld _ hm { u with journal := {} } hstart
      split at hget
      · rename_i w hrun
        cases hget
        obtain ⟨hmem, hw⟩ := hok f w hrun
        exact ⟨hmem, hw.of_functions rfl rfl⟩
      · cases hget
  obtain ⟨hmem, hv⟩ := hregistered
  obtain ⟨F, hF⟩ : ∃ F, v.module.function? f = some F := ⟨_, Array.getElem?_eq_getElem (hv.below _ hmem)⟩
  obtain ⟨hnamed, hlisted⟩ := hv.named _ hmem m hm F hF
  have hnames := hnamed.unambiguous hlisted
  refine ⟨F, hF, printFunction_eq hF, hnames, fun hrefs ↦ hnames.nodup fun i hi ↦ ?_⟩
  obtain ⟨t, ht, hbyref⟩ := hi
  rw [hrefs t (List.mem_of_getElem? ht)] at hbyref
  cases hbyref

end

def takingMethod : Method :=
  { returnMethod with id := .defined ⟨0, ""⟩ 0, name := "Take", params := [⟨"x", .prim .int32⟩] }

theorem takingMethod_compiles :
    getMethod (worldOf #[takingMethod]) takingMethod freshUnit =
    (.ok ⟨0⟩, (getMethod (worldOf #[takingMethod]) takingMethod freshUnit).2) :=
  Prod.ext (ok_of_toOption (by decide +kernel)) rfl

theorem takingMethod_found : Found (worldOf #[takingMethod]) takingMethod := rfl

/-- The number is put into a slot of the parameter's name. -/
theorem local_names_taking : Consistent (worldOf #[takingMethod]) ∧ freshUnit.Reachable (worldOf #[takingMethod]) ∧
    ∃ F, (getMethod (worldOf #[takingMethod]) takingMethod freshUnit).2.module.function? ⟨0⟩ = some F ∧
      F.renumber.Unambiguous takingMethod.Slotted := by
  have hreach : freshUnit.Reachable (worldOf #[takingMethod]) := .create "" {} false _ {} Trace.Tracing.nop 0
  obtain ⟨F, hF, -, hnames, -⟩ := local_names (worldOf_single rfl) hreach takingMethod_found takingMethod_compiles
  exact ⟨worldOf_single rfl, hreach, F, hF, hnames⟩

/-- The parameter and its slot are printed under one name. -/
theorem local_names_clash : ¬ ∀ (world : Universe) (u v : CompilationUnit) (m : Method) (f : FuncId) (F : Function),
    Consistent world → u.Reachable world → Found world m → getMethod world m u = (.ok f, v) →
    v.module.function? f = some F →
      (F.renumber.paramNames ++ (F.renumber.labelNames ++ F.renumber.resultNames)).Nodup := by
  intro h
  have hclash : ((getMethod (worldOf #[takingMethod]) takingMethod freshUnit).2.module.function? ⟨0⟩).map
      (fun F ↦ decide (F.renumber.paramNames ++ (F.renumber.labelNames ++ F.renumber.resultNames)).Nodup) =
      some false := by
    decide +kernel
  obtain ⟨F, hF, hnodup⟩ := Option.map_eq_some_iff.mp hclash
  exact of_decide_eq_false hnodup
    (h _ freshUnit _ takingMethod _ F (worldOf_single rfl) (.create "" {} false _ {} Trace.Tracing.nop 0)
    takingMethod_found
      takingMethod_compiles hF)

end CilSsa.Lowering

