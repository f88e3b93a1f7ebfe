import CilSsa.Proofs.QuietCode
import CilSsa.Proofs.Counterparts

namespace CilSsa.Lowering

open CilSsa.Bytecode CilSsa.Metadata
open CilSsa.Ssa (BlockId Const FuncId Function Instr Value)

section

variable {α : Type} {world : Universe} {fn g : FuncId} {F : Function} {u u' : CompilationUnit}

theorem Houses.of_functions (h : Houses fn F u) (hf : u'.module.functions = u.module.functions)
    (hl : u'.module.liveFunctions = u.module.liveFunctions) : Houses fn F u' :=
  ⟨⟨fun j g hg ↦ h.numbered.ids j g (hf ▸ hg), fun j hj ↦ hf ▸ h.numbered.live j (hl ▸ hj)⟩,
    by rw [Ssa.Module.function?, hf]; exact h.found⟩

theorem Houses.modify (h : Houses fn F u) (hne : g ≠ fn) {G G' : Function} (hG : u.module.function? g = some G)
    (hid : G'.id = G.id) : Houses fn F { u with module := u.module.modifyFunction g fun _ ↦ G' } :=
  ⟨h.numbered.modify hG hid, (function?_modify_ne _ hne.symm).trans h.found⟩

theorem Houses.withFunction (h : Houses fn F u) {G : Function} (hG : G.id = ⟨u.module.functions.size⟩) :
    Houses fn F { u with module := withFunction u.module G } :=
  ⟨h.numbered.withFunction hG, withFunction_kept _ _ _ _ h.found⟩

def openUnit (f : Function) : CompilationUnit := { freshUnit with module := withFunction freshUnit.module f }

theorem openUnit_houses {f : Function} (hf : f.id = ⟨0⟩) : Houses f.id f (openUnit f) := by
  refine ⟨Numbered.withFunction ⟨fun j g hg ↦ ?_, fun j hj ↦ ?_⟩ hf, hf ▸ rfl⟩
  · cases hg
  · cases hj

theorem growable_houses (hne : g ≠ fn) : Growable (Houses fn F) (fun _ ↦ True) g where
  append := by
    intro u b i h
    cases hG : u.module.function? g with
    | none => 
      have : (u.module.append ⟨g, b⟩ i).1 = u.module := by simp only [Ssa.Module.append, hG]
      rw [this]
      exact h
    | some G =>
      rw [append_eq hG]
      exact h.modify hne hG (append_id G b i)
  memset h := ⟨(memset_spec h.numbered fn).1, (memset_spec h.numbered fn).2.2.2 _ _ h.found⟩

instance typeless_houses : Typeless (Houses fn F) (fun _ ↦ True) where
  fails _ := trivial
  compiled h hs := h.of_functions hs.functions hs.liveFunctions
  abandoned _ _ := trivial

theorem leaves_compileType (world : Universe) (fuel : Nat) (t : Ty) : Leaves fn (compileType world fuel t) := fun _ ↦
  Typeless.spec_compileType fuel t

theorem leaves_codeType (t : Ty) : Leaves fn (codeType world t) := fun F ↦
  (leaves_compileType world _ t F).bind fun _ ↦ .pure fun _ hu ↦ hu

theorem spec_register_houses (m : Method) (sig : Ssa.Ty) :
    Spec (Houses fn F) (register m sig) (fun g u ↦ g ≠ fn ∧ Houses fn F u) fun _ ↦ True := by
  refine spec_register_of (fun _ _ ↦ trivial) fun u _ _ _ _ hu _ _ ↦ ⟨?_, (hu.withFunction rfl).of_functions rfl rfl⟩
  rintro rfl
  exact Nat.lt_irrefl _ (Array.getElem?_eq_some_iff.mp hu.found).1

theorem leaves_verify (m : Method) (f : FuncId) (span : Trace.Span) : Leaves fn (verify m f span) := by
  refine fun F ↦ .of_get fun v ↦ .forget fun hv ↦ ?_
  split
  · exact .pure fun _ hu ↦ hu
  · refine (spec_endSpan span _ true).bind fun _ ↦ ?_
    exact Spec.bind (Q := fun _ ↦ Houses fn F) (.modify fun u hu ↦ hu.of_functions rfl rfl) fun _ ↦
    .throw fun _ _ ↦ trivial

theorem spec_optimise_houses (hne : g ≠ fn) (span : Trace.Span) :
    Spec (Houses fn F) (optimise g span) (fun _ ↦ Houses fn F) fun _ ↦ True := by
  refine .of_get fun v ↦ .forget fun hv ↦ ?_
  split
  · exact .pure fun _ hu ↦ hu
  · rename_i G hG
    refine Spec.bind (Q := fun _ ↦ Houses fn F) (.set fun u _ ↦ ?_) fun _ ↦ .pure fun _ hu ↦ hu
    exact hv.modify hne hG (Passes.sameHeading_runPasses Passes.Pass.all G).id

theorem leaves_buildBody {compile : Method → Compile FuncId} (hmethods : ∀ m, Leaves fn (compile m)) (hne : g ≠ fn)
    (m : Method) (body : Body) (args : List Ty) : Leaves fn (buildBody world compile m body args g) := by
  intro F
  have hgrow : Growable (Houses fn F) (fun _ ↦ True) g := growable_houses hne
  have hadd : ∀ u name, Houses fn F u → Houses fn F { u with module := (u.module.addBlock g name).1 } := by
    intro u name hu
    unfold Ssa.Module.addBlock
    cases hG : u.module.function? g with
    | none => exact hu
    | some G => exact hu.modify hne hG (uniqueName_kept G _).2.2.1
  unfold buildBody
  refine (spec_beginSpan _ _).bind fun span ↦ spec_inside (.of_get fun v ↦ .forget fun hv ↦ ?_)
  split
  · exact .pure fun _ hu ↦ hu
  · rename_i G hG
    have hlower := @spec_lowerBody _ _ _ _ _ _ _ compile m body args G
      (hv.numbered.ids _ G hG) (fun t ↦ leaves_compileType world _ t F) (fun _ m _ ↦ hmethods m F) hadd hadd
    refine (spec_failing (fun h _ ↦ h) hlower).bind fun blocks ↦ (leaves_verify m g span F).bind fun _ ↦ ?_
    refine .of_get fun v' ↦ .forget fun _ ↦ ?_
    dsimp only
    split
    · exact (spec_optimise_houses hne span).bind fun _ ↦ spec_endSpan _ _ _
    · exact Spec.bind (Q := fun _ ↦ Houses fn F) (.pure fun _ hu ↦ hu) fun _ ↦ spec_endSpan _ _ _

theorem leaves_compileMethod (world : Universe) (fuel : Nat) (m : Method) : Leaves fn (compileMethod world fuel m) := by
  induction fuel generalizing m with
  | zero => exact fun F ↦ .throw fun _ _ ↦ trivial
  | succ fuel ih =>
    intro F
    rw [compileMethod]
    refine .of_get fun v ↦ .forget fun _ ↦ ?_
    split
    · exact .pure fun _ hu ↦ hu
    refine (Typeless.spec_argumentTypes m).bind fun args ↦ (Typeless.spec_signature m args).bind fun sig ↦ ?_
    refine (spec_register_houses m sig).bind fun g ↦ .of_and fun hne ↦ ?_
    split
    · exact .pure fun _ hu ↦ hu
    · exact (leaves_buildBody ih hne m _ args F).bind fun _ ↦ .pure fun _ hu ↦ hu

end

end CilSsa.Lowering

