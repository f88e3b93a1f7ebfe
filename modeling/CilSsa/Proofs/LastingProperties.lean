import CilSsa.Proofs.EngineCalls
import CilSsa.Proofs.Requests

namespace CilSsa.Lowering

open CilSsa.Bytecode CilSsa.Metadata
open CilSsa.Machine.Engine
open CilSsa.Ssa (FuncId Function Module memsetName)

/-- Declares the function of a method; gives what the method takes, and the function. -/
def declare (world : Universe) (m : Method) : Compile (List Ty × FuncId) := do
  let args ← argumentTypes m
  let sig ← signature world m args
  let f ← register m sig
  return (args, f)

/-- At most layouts were learnt, whatever else was asked of the engine. -/
structure SameUpToLearnt (u u' : CompilationUnit) : Prop where
  module : u'.module = u.module
  types : u'.types = u.types
  methods : u'.methods = u.methods
  layouts : Learnt u.module u.engine.layouts u'.engine.layouts

/-- The property `J` of units is about their types, methods and code, and about layouts only so far as these may be
learnt. It holds through whatever is registered, and as long as functions keep their names and signatures their code may
change. A compilation may fail where `J` holds: then `E` does. -/
class Lasting (world : Universe) (J E : CompilationUnit → Prop) : Prop where
  fails : ∀ {u}, J u → E u
  same : ∀ {u u'}, J u → SameUpToLearnt u u' → J u'
  sameFailed : ∀ {u u'}, E u → SameUpToLearnt u u' → E u'
  types : ∀ t, Spec J (compileType world world.nestingLimit t) (fun _ ↦ J) E
  declares : ∀ {m}, Found world m → Spec J (declare world m) (fun _ ↦ J) E
  rewrites : ∀ {u f F G}, J u → u.module.function? f = some F → G.id = F.id → G.name = F.name →
    G.signature = F.signature → J { u with module := u.module.modifyFunction f fun _ ↦ G }
  memset : ∀ {u}, J u → J { u with module := u.module.memset.1 }

section

variable {world : Universe} {J E : CompilationUnit → Prop} {u : CompilationUnit}

theorem declare_bind {α : Type} (m : Method) (k : List Ty × FuncId → Compile α) :
    declare world m >>= k = (do
    let args ← argumentTypes m
    let sig ← signature world m args
    let f ← register m sig
    k (args, f)) := by
  simp only [declare, bind_assoc, pure_bind]

theorem compileMethod_succ (fuel : Nat) (m : Method) : compileMethod world (fuel + 1) m = do
    match (← get).methods.lookup m.id with
    | some f => return f
    | none =>
      let (args, f) ← declare world m
      match m.body with
      | none => return f
      | some body =>
        buildBody world (compileMethod world fuel) m body args f
        return f := by
  rw [compileMethod]
  refine bind_congr fun u ↦ ?_
  cases u.methods.lookup m.id with
  | some f => rfl
  | none =>
    refine Eq.trans ?_ (declare_bind m _).symm
    rfl

theorem Learnt.trans {m : Module} {s s' s'' : Ssa.Layouts} (h : Learnt m s s') (h' : Learnt m s' s'') :
    Learnt m s s'' := by
  induction h' with
  | nothing => exact h
  | asked t _ ih => exact .asked t ih

theorem learnt_allows (m : Module) : Machine.Allows m fun e d ↦ Learnt m e.layouts d.layouts where
  refl _ := .nothing
  trans h h' := h.trans h'
  layouts _ t := .asked t .nothing
  grow _ _ _ _ := .nothing
  address _ _ := .nothing

/-! ### Declarations -/

/-- A method gets a new function without code, which is not called like the one that fills memory. -/
theorem spec_register_of {P : CompilationUnit → Prop} {Q : FuncId → CompilationUnit → Prop} {m : Method} {sig : Ssa.Ty}
    (hfails : ∀ u, P u → E u)
    (h : ∀ (u : CompilationUnit) (name : String) (ret : Ssa.Ty) (params : List Ssa.Ty) (j : Journal), P u →
      sig = .func ret params → name ≠ memsetName → Q ⟨u.module.functions.size⟩ { u with
        module := withFunction u.module
          ⟨⟨u.module.functions.size⟩, name, sig, params.map fun t ↦ ⟨"", t⟩, #[], #[], [], 0⟩
        methods := (m.id, ⟨u.module.functions.size⟩) :: u.methods
        journal := j }) : Spec P (register m sig) Q E := by
  refine .of_get fun v ↦ ?_
  obtain ⟨j, hcandidate⟩ := freeName_candidate (fun n ↦ (v.module.functionNamed? n).isSome) (functionName m)
    (v.module.liveFunctions.length + 1)
  dsimp only
  rw [hcandidate]
  refine .forget fun hv ↦ ?_
  have hname := functionName_ne_memset m j
  unfold Module.addFunction
  split
  · exact .throw hfails
  rename_i hadd
  split at hadd
  · rename_i ret params
    split at hadd
    · cases hadd
    · cases hadd
      exact Spec.bind (Q := fun _ u ↦ Q ⟨v.module.functions.size⟩ u)
        (.set fun _ _ ↦ h v _ ret params _ hv rfl hname) fun _ ↦ .pure fun _ hu ↦ hu
  · cases hadd

theorem spec_declare_keeps (hfails : ∀ u, J u → E u) (hcode : ∀ t, Spec J (codeType world t) (fun _ ↦ J) E) {m : Method}
    (hregister : ∀ sig, Spec J (register m sig) (fun _ ↦ J) E) : Spec J (declare world m) (fun _ ↦ J) E :=
  (spec_argumentTypes_keeps hfails m).bind fun args ↦ (spec_signature_keeps hfails hcode m args).bind fun sig ↦
    (hregister sig).bind fun _ ↦ .pure fun _ hu ↦ hu

/-! ### Methods -/

namespace Lasting

theorem stable (h : Lasting world J E) : Stable J E where
  fails := h.fails
  same hu hs := h.same hu ⟨hs.module, hs.types, hs.methods, hs.layouts⟩
  sameFailed hu hs := h.sameFailed hu ⟨hs.module, hs.types, hs.methods, hs.layouts⟩

theorem total (h : Lasting world J E) : Lasting world J fun _ ↦ True where
  fails _ := trivial
  same := h.same
  sameFailed _ _ := trivial
  types t := (h.types t).weaken fun _ _ ↦ trivial
  declares hm := (h.declares hm).weaken fun _ _ ↦ trivial
  rewrites := h.rewrites
  memset := h.memset

theorem addBlock (h : Lasting world J E) (hu : J u) (fn : FuncId) (name : String) :
    J { u with module := (u.module.addBlock fn name).1 } := by
  unfold Module.addBlock
  cases hF : u.module.function? fn with
  | none => exact hu
  | some F =>
    obtain ⟨-, -, hid, hname, hsig, -⟩ := uniqueName_kept F (if name = "" then "bb" else name)
    exact h.rewrites hu hF hid hname hsig

theorem growable (h : Lasting world J E) (fn : FuncId) : Growable J E fn where
  toStable := h.stable
  append {u} b i hu := by
    cases hF : u.module.function? fn with
    | none => simp only [Module.append, hF]; exact hu
    | some F =>
      rw [append_eq hF]
      exact h.rewrites hu hF (append_id F b i) (append_name F b i) (append_signature F b i)
  memset := h.memset

theorem codeType (h : Lasting world J E) (t : Ty) : Spec J (codeType world t) (fun _ ↦ J) E :=
  (h.types t).bind fun _ ↦ .pure fun _ hu ↦ hu

theorem verify (h : Lasting world J E) (m : Method) (f : FuncId) (span : Trace.Span) :
    Spec J (verify m f span) (fun _ ↦ J) E := by
  have hstable := h.stable
  refine .of_get fun v ↦ .forget fun _ ↦ ?_
  split
  · exact .pure fun _ hu ↦ hu
  · refine (spec_endSpan span _ true).bind fun _ ↦ ?_
    exact Spec.bind (Q := fun _ ↦ J) (.modify fun u hu ↦ h.same hu ⟨rfl, rfl, rfl, .nothing⟩) fun _ ↦
    .throw fun _ hu ↦ h.fails hu

theorem optimise (h : Lasting world J E) (f : FuncId) (span : Trace.Span) :
    Spec J (optimise f span) (fun _ ↦ J) E := by
  refine .of_get fun v ↦ .forget fun hv ↦ ?_
  split
  · exact .pure fun _ hu ↦ hu
  · rename_i F hF
    have hsame := Passes.sameHeading_runPasses Passes.Pass.all F
    exact Spec.bind (Q := fun _ ↦ J) (.set fun _ _ ↦ h.rewrites hv hF hsame.id hsame.name hsame.signature) fun _ ↦
      .pure fun _ hu ↦ hu

theorem buildBody (h : Lasting world J E) {compile : Method → Compile FuncId}
    (hmethods : ∀ id m, world.method? id = some m → Spec J (compile m) (fun _ ↦ J) E) (m : Method) (body : Body)
    (args : List Ty) (f : FuncId) : Spec J (buildBody world compile m body args f) (fun _ ↦ J) E := by
  have hstable := h.stable
  have hlower : ∀ F : Function, Spec J (lowerBody world compile m body args F) (fun _ ↦ J) E := fun F ↦
    have hgrow := h.growable F.id
    spec_lowerBody rfl h.types hmethods (fun _ name hu ↦ h.addBlock hu F.id name) fun _ name hu ↦
      h.addBlock hu F.id name
  unfold Lowering.buildBody
  refine (spec_beginSpan _ _).bind fun span ↦ spec_inside (.of_get fun v ↦ .forget fun _ ↦ ?_)
  split
  · exact .pure fun _ hu ↦ hu
  · refine (spec_failing (fun hu hs ↦ hstable.sameFailed hu hs) (hlower _)).bind fun blocks ↦ ?_
    refine (h.verify m f span).bind fun _ ↦ .of_get fun v' ↦ .forget fun _ ↦ ?_
    dsimp only
    split
    · exact (h.optimise f span).bind fun _ ↦ spec_endSpan _ _ _
    · exact Spec.bind (Q := fun _ ↦ J) (.pure fun _ hu ↦ hu) fun _ ↦ spec_endSpan _ _ _

theorem methods (h : Lasting world J E) (hworld : Consistent world) (fuel : Nat) {m : Method} (hm : Found world m) :
    Spec J (compileMethod world fuel m) (fun _ ↦ J) E := by
  induction fuel generalizing m with
  | zero => exact .throw fun _ hu ↦ h.fails hu
  | succ fuel ih =>
    rw [compileMethod_succ]
    refine .of_get fun v ↦ .forget fun _ ↦ ?_
    split
    · exact .pure fun _ hu ↦ hu
    · refine (h.declares hm).bind fun af ↦ ?_
      dsimp only
      split
      · exact .pure fun _ hu ↦ hu
      · exact (h.buildBody (fun id m hm ↦ ih (hworld id m hm)) m _ _ _).bind fun _ ↦ .pure fun _ hu ↦ hu

/-- A request leaves what lasts, unless it is taken back to where that fails. -/
theorem request {α : Type} {c : Compile α} (h : Lasting world J E) (hu : J u) (hc : Spec J c (fun _ ↦ J) E)
    (hback : ∀ v, E v → RolledBack u v.rollBack → J v.rollBack)
    (hrolled : ∀ e, (request c u).1 = .error e → RolledBack u (request c u).2) : J (request c u).2 := by
  unfold Lowering.request at hrolled ⊢
  split
  · exact hu
  · rename_i hopen
    rw [if_neg hopen] at hrolled
    have hopened : J { u with journal := {} } := h.same hu ⟨rfl, rfl, rfl, .nothing⟩
    obtain ⟨hok, herror⟩ := hc _ hopened
    split
    · rename_i a v hrun
      exact h.same (hok a v hrun) ⟨rfl, rfl, rfl, .nothing⟩
    · rename_i e v hrun
      rw [hrun] at hrolled
      exact hback v (herror e v hrun) (hrolled e rfl)

theorem functionAddress (h : Lasting world J E) {m : Method} (hget : J (getMethod world m u).2) :
    J (u.functionAddress world m).2 := by
  unfold CompilationUnit.functionAddress
  split
  · rename_i e u' hrun
    rw [hrun] at hget
    exact hget
  · rename_i f u' hrun
    rw [hrun] at hget
    exact h.same hget ⟨rfl, rfl, rfl, addressFound_moves (learnt_allows u'.module) _ _ u'.engine⟩

theorem invokeFor (h : Lasting world J E) {m : Method} (hget : J (u.functionAddress world m).2) (fuel : Nat)
    (args : List UInt64) : J (u.invokeFor fuel world m args).2 := by
  unfold CompilationUnit.invokeFor
  split
  · rename_i e u' hrun
    rw [hrun] at hget
    exact hget
  · rename_i address u' hrun
    rw [hrun] at hget
    exact h.same hget ⟨rfl, rfl, rfl, callAddress_moves (learnt_allows u'.module) (fun _ _ _ ↦ .nothing)
      (fun _ _ ↦ .nothing) (fun _ _ ↦ .nothing) (fun _ ↦ .nothing) _ _ _ u'.engine⟩

end Lasting

/-- What lasts, and is left by requests that are taken back, holds of every unit that requests lead to. -/
theorem CompilationUnit.Reachable.lasting (h : Lasting world J E) (hworld : Consistent world)
    (hempty : ∀ {u}, u.module.functions = #[] → u.types = [] → u.methods = [] → u.engine.layouts = {} → J u)
    (hback : ∀ {u v}, J u → E v → RolledBack u v.rollBack → J v.rollBack) (hr : u.Reachable world) : J u := by
  induction hr with
  | create => exact hempty rfl rfl rfl rfl
  | type t hr ih =>
    exact h.request ih (h.types t) (fun _ hv ↦ hback ih hv) fun e he ↦ (((hr.orderly hworld).getType t).2 e he).1
  | method hm hr ih =>
    exact h.request ih (h.methods hworld _ hm) (fun _ hv ↦ hback ih hv)
      ((hr.orderly hworld).getMethod hworld hm).2
  | address hm hr ih =>
    exact h.functionAddress (h.request ih (h.methods hworld _ hm) (fun _ hv ↦ hback ih hv)
      ((hr.orderly hworld).getMethod hworld hm).2)
  | invoke hm fuel args hr ih =>
    exact h.invokeFor (h.functionAddress (h.request ih (h.methods hworld _ hm) (fun _ hv ↦ hback ih hv)
      ((hr.orderly hworld).getMethod hworld hm).2)) fuel args
  | close _ ih => exact h.same ih ⟨rfl, rfl, rfl, .nothing⟩

end

end CilSsa.Lowering

