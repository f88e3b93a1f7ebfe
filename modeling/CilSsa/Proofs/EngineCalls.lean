import CilSsa.Proofs.EngineGrowth

namespace CilSsa.Machine

open CilSsa.Ssa CilSsa.Text

/-! ### Runs that end -/

/-- How a run from some frames ends, and with which engine. -/
inductive Ends (m : Module) : List Frame → Engine → Outcome → Engine → Prop
  | returned {frames : List Frame} {e d : Engine} {r : Returned} :
      (step m frames).run.run e = (.ok (.returned r), d) → Ends m frames e (.returned r) d
  | stopped {frames : List Frame} {e d : Engine} {s : Stop} :
      (step m frames).run.run e = (.error s, d) → Ends m frames e (.stopped s) d
  | running {frames frames' : List Frame} {e c d : Engine} {out : Outcome} :
      (step m frames).run.run e = (.ok (.running frames'), c) → Ends m frames' c out d → Ends m frames e out d

theorem ends_iff {m : Module} {frames : List Frame} {e d : Engine} {out : Outcome} :
    Ends m frames e out d ↔ ∃ fuel, run m fuel frames e = (out, d) ∧ out ≠ .outOfFuel := by
  constructor
  · intro h
    induction h with
    | returned h => exact ⟨1, by rw [run, h], by rintro ⟨⟩⟩
    | stopped h => exact ⟨1, by rw [run, h], by rintro ⟨⟩⟩
    | running h _ ih =>
      obtain ⟨fuel, hrun, hout⟩ := ih
      exact ⟨fuel + 1, by rw [run, h]; exact hrun, hout⟩
  · rintro ⟨fuel, hrun, hout⟩
    induction fuel generalizing frames e with
    | zero => exact absurd (Prod.mk.inj hrun).1.symm hout
    | succ fuel ih =>
      rw [run] at hrun
      rcases hstep : (step m frames).run.run e with ⟨s | ⟨frames' | r⟩, c⟩ <;> rw [hstep] at hrun
      · cases hrun
        exact .stopped hstep
      · exact .running hstep (ih hrun)
      · cases hrun
        exact .returned hstep

theorem Ends.unique {m : Module} {frames : List Frame} {e d d' : Engine} {out out' : Outcome}
    (h : Ends m frames e out d) (h' : Ends m frames e out' d') : out = out' ∧ d = d' := by
  induction h with
  | returned h =>
    cases h' with
    | returned h' =>
      cases h.symm.trans h'
      exact ⟨rfl, rfl⟩
    | stopped h' | running h' _ => cases h.symm.trans h'
  | stopped h =>
    cases h' with
    | stopped h' =>
      cases h.symm.trans h'
      exact ⟨rfl, rfl⟩
    | returned h' | running h' _ => cases h.symm.trans h'
  | running h _ ih =>
    cases h' with
    | returned h' | stopped h' => cases h.symm.trans h'
    | running h' hrest =>
      cases h.symm.trans h'
      exact ih hrest

def EngineError.bare : EngineError → EngineError
  | .fault f => .fault ⟨f.code, "", []⟩
  | .layout _ => .layout (.unsized .untyped)
  | e => e

theorem Stop.error_bare (s : Stop) : s.error.bare = s.bare.error := by
  cases s <;> rfl

def Outcome.bare : Outcome → Outcome
  | .stopped s => .stopped s.bare
  | out => out

namespace Engine

variable {m m' : Module} {f : FuncId} {args : List UInt64} {e d : Engine} {out out' o : Outcome}

/-- How the run of a function's body ends, but for texts, and with which engine. -/
def Executes (m : Module) (f : FuncId) (args : List UInt64) (e : Engine) (o : Outcome) (d : Engine) : Prop :=
  ∃ fuel out, execute m fuel f args e = (out, d) ∧ out ≠ .outOfFuel ∧ out.bare = o

/-- What a call at an address gives but for texts, a pattern or why there is none, and the engine it leaves. -/
def Calls (m : Module) (address : UInt64) (args : List UInt64) (e : Engine)
    (r : Except EngineError UInt64) (d : Engine) : Prop :=
  ∃ fuel r', callAddress m fuel address args e = (r', d) ∧ r' ≠ .error .outOfFuel ∧ r'.mapError .bare = r

theorem executes_iff : Executes m f args e o d ↔
    (∃ fr c out, (enter m [] 0 f args).run.run e = (.ok fr, c) ∧ Ends m [fr] c out d ∧ out.bare = o) ∨
      ∃ s, (enter m [] 0 f args).run.run e = (.error s, d) ∧ o = .stopped s.bare := by
  unfold Executes execute
  rcases (enter m [] 0 f args).run.run e with ⟨s | fr, c⟩
  · constructor
    · rintro ⟨fuel, out, h, -, rfl⟩
      cases h
      exact .inr ⟨s, rfl, rfl⟩
    · rintro (⟨_, _, _, h, -⟩ | ⟨_, h, rfl⟩) <;> cases h
      exact ⟨0, _, rfl, nofun, rfl⟩
  · constructor
    · rintro ⟨fuel, out, h, hout, rfl⟩
      exact .inl ⟨fr, c, out, rfl, ends_iff.mpr ⟨fuel, h, hout⟩, rfl⟩
    · rintro (⟨_, _, out, h, hends, rfl⟩ | ⟨_, h, -⟩) <;> cases h
      obtain ⟨fuel, hrun, hout⟩ := ends_iff.mp hends
      exact ⟨fuel, out, hrun, hout, rfl⟩

/-! ### Calls at an address -/

/-- The function that a call at an address is to execute and the type that it returns, or why there is none. -/
def callee? (m : Module) (address : UInt64) (args : List UInt64) (e : Engine) : Except EngineError (FuncId × Ty) :=
  if e.closed then .error .closed else match e.functionAt? address with
  | none => .error (.fault ⟨.badAddress, "no function at 0x" ++ hexDigits address.toNat, []⟩)
  | some f => match m.function? f with
    | none => .error .meaningless
    | some fn =>
      if args.length ≠ fn.params.length then .error (.argumentCount fn.name fn.params.length args.length)
      else .ok (f, fn.ret)

variable {address : UInt64} {t : Ty} {r : Except EngineError UInt64}

theorem callAddress_eq (m : Module) (fuel : Nat) (address : UInt64) (args : List UInt64) (e : Engine) :
    (∃ err, callee? m address args e = .error err ∧ callAddress m fuel address args e = (.error err, e)) ∨
      ∃ f t, callee? m address args e = .ok (f, t) ∧ callAddress m fuel address args e =
        conclude m t (execute m fuel f args e).1 (execute m fuel f args e).2 := by
  unfold callee? callAddress ifOpen
  by_cases hclosed : e.closed = true
  · rw [if_pos hclosed, if_pos hclosed]
    exact .inl ⟨_, rfl, rfl⟩
  rw [if_neg hclosed, if_neg hclosed]
  dsimp only
  cases e.functionAt? address with
  | none => exact .inl ⟨_, rfl, rfl⟩
  | some f =>
    dsimp only
    cases m.function? f with
    | none => exact .inl ⟨_, rfl, rfl⟩
    | some fn =>
      dsimp only
      by_cases hargs : args.length ≠ fn.params.length
      · rw [if_pos hargs, if_pos hargs]
        exact .inl ⟨_, rfl, rfl⟩
      · rw [if_neg hargs, if_neg hargs]
        exact .inr ⟨_, _, rfl, rfl⟩

theorem callAddress_refused {err : EngineError} (h : callee? m address args e = .error err) (fuel : Nat) :
    callAddress m fuel address args e = (.error err, e) := by
  rcases callAddress_eq m fuel address args e with ⟨err', h', hcall⟩ | ⟨f, t, h', -⟩ <;> rw [h] at h' <;> cases h'
  exact hcall

theorem callAddress_called (h : callee? m address args e = .ok (f, t)) (fuel : Nat) :
    callAddress m fuel address args e = conclude m t (execute m fuel f args e).1 (execute m fuel f args e).2 := by
  rcases callAddress_eq m fuel address args e with ⟨err', h', -⟩ | ⟨f', t', h', hcall⟩ <;> rw [h] at h' <;> cases h'
  exact hcall

theorem ne_outOfFuel_of_refused {err : EngineError} (h : callee? m address args e = .error err) : err ≠ .outOfFuel := by
  rintro rfl
  unfold callee? at h
  split at h
  · cases h
  split at h
  · cases h
  split at h
  · cases h
  split at h <;> cases h

theorem request_ne_outOfFuel {α : Type} (c : Run α) (e : Engine) : (request c e).1 ≠ .error .outOfFuel := by
  intro h
  unfold request ifOpen at h
  split at h
  · cases h
  · dsimp only at h
    generalize c.run.run e = r at h
    rcases r with ⟨s | a, d⟩
    · cases s <;> cases h
    · cases h

/-! ### What calls change -/

section

variable {R : Engine → Engine → Prop} (h : Allows m R)

include h

theorem request_moves {α : Type} {c : Run α} (hc : Moves R c) (e : Engine) : R e (request c e).2 := by
  have hrun := hc e
  unfold request ifOpen
  split
  · exact h.refl e
  · dsimp only
    split <;> rename_i hr <;> rw [hr] at hrun <;> exact hrun

theorem addressFound_moves (name : String) (found : Option Function) (e : Engine) :
    R e (addressFound m name found e).2 := by
  unfold addressFound ifOpen
  split
  · exact h.refl e
  · split
    · exact h.refl e
    · split
      · exact h.refl e
      · exact request_moves h (addressOf_moves h _) e

/-- A relation that holds through all that runs do, and where the heap grows or the stack is cleared, holds through
calls. -/
theorem callAddress_moves (hw : AllowsWrites R) (hr : AllowsRelease R)
    (hheap : ∀ e stop, R e { e with memory := { e.memory with heap := e.memory.heap.grow stop } })
    (hclear : ∀ e, R e { e with memory := e.memory.clearStack }) (fuel : Nat) (address : UInt64) (args : List UInt64)
    (e : Engine) : R e (callAddress m fuel address args e).2 := by
  have hreserve : ∀ size align, Moves R (reserveHeap size align) := by
    intro size align
    refine Moves.of_get fun e ↦ ?_
    split
    · exact hheap e _
    · exact h.refl e
    · exact h.refl e
  rcases callAddress_eq m fuel address args e with ⟨err, -, hcall⟩ | ⟨f, t, -, hcall⟩ <;> rw [hcall]
  · exact h.refl e
  have hrun := execute_moves h hw hr fuel f args e
  generalize execute m fuel f args e = r at hrun ⊢
  obtain ⟨out, c⟩ := r
  refine h.trans hrun ?_
  cases out with
  | returned r =>
    unfold conclude
    dsimp only
    split
    · exact h.refl c
    · unfold keepAggregate Layouts.alignOf
      refine h.trans (h.layouts c t) ?_
      dsimp only
      split
      · exact h.refl _
      · exact request_moves h (h.bind (hreserve _ _) fun a ↦ h.bind (writeBytes_moves h hw _ _) fun _ ↦ h.pure _) _
  | stopped s => exact hclear c
  | outOfFuel => exact hclear c

end

theorem conclude_outOfFuel : (conclude m t out e).1 = .error .outOfFuel ↔ out = .outOfFuel := by
  cases out with
  | returned r =>
    refine iff_of_false ?_ nofun
    unfold conclude
    dsimp only
    split
    · nofun
    unfold keepAggregate
    generalize e.layouts.alignOf m t = found
    rcases found with ⟨_ | n, s⟩
    · nofun
    · exact request_ne_outOfFuel _ _
  | stopped s => exact iff_of_false (by cases s <;> nofun) nofun
  | outOfFuel => exact iff_of_true rfl rfl

theorem conclude_bare (m : Module) (t : Ty) (out : Outcome) (e : Engine) : (conclude m t out.bare e).2 =
    (conclude m t out e).2 ∧ (conclude m t out.bare e).1.mapError EngineError.bare =
    (conclude m t out e).1.mapError EngineError.bare := by
  cases out with
  | returned | outOfFuel => exact ⟨rfl, rfl⟩
  | stopped s => cases s <;> exact ⟨rfl, rfl⟩

theorem calls_iff : Calls m address args e r d ↔
    (∃ err, callee? m address args e = .error err ∧ r = .error err.bare ∧ d = e) ∨
      ∃ f t o c, callee? m address args e = .ok (f, t) ∧ Executes m f args e o c ∧
        (conclude m t o c).1.mapError EngineError.bare = r ∧ (conclude m t o c).2 = d := by
  constructor
  · rintro ⟨fuel, r', hrun, hr, rfl⟩
    cases hcallee : callee? m address args e with
    | error err =>
      rw [callAddress_refused hcallee] at hrun
      cases hrun
      exact .inl ⟨err, rfl, rfl, rfl⟩
    | ok found =>
      obtain ⟨f, t⟩ := found
      rw [callAddress_called hcallee] at hrun
      rcases hexec : execute m fuel f args e with ⟨out, c⟩
      rw [hexec] at hrun
      dsimp only at hrun
      obtain ⟨hengine, hresult⟩ := conclude_bare m t out c
      rw [hrun] at hengine hresult
      refine .inr ⟨f, t, _, c, rfl, ⟨fuel, out, hexec, fun hout ↦ hr ?_, rfl⟩, hresult, hengine⟩
      exact (congrArg Prod.fst hrun).symm.trans (conclude_outOfFuel.mpr hout)
  · rintro (⟨err, hcallee, rfl, rfl⟩ | ⟨f, t, o, c, hcallee, ⟨fuel, out, hrun, hout, rfl⟩, rfl, rfl⟩)
    · exact ⟨0, _, callAddress_refused hcallee 0, fun h ↦ ne_outOfFuel_of_refused hcallee (Except.error.inj h), rfl⟩
    · obtain ⟨hengine, hresult⟩ := conclude_bare m t out c
      have hcall := callAddress_called hcallee fuel
      rw [hrun] at hcall
      exact ⟨fuel, _, hcall.trans (Prod.ext rfl hengine.symm), fun h ↦ hout (conclude_outOfFuel.mp h), hresult.symm⟩

theorem Executes.unique {o' : Outcome} {d' : Engine} (h : Executes m f args e o d) (h' : Executes m f args e o' d') :
    o = o' ∧ d = d' := by
  rw [executes_iff] at h h'
  rcases h with ⟨fr, c, out, henter, hends, rfl⟩ | ⟨s, henter, rfl⟩ <;>
    rcases h' with ⟨fr', c', out', henter', hends', rfl⟩ | ⟨s', henter', rfl⟩ <;> cases henter.symm.trans henter'
  · obtain ⟨rfl, rfl⟩ := hends.unique hends'
    exact ⟨rfl, rfl⟩
  · exact ⟨rfl, rfl⟩

theorem Calls.unique {r' : Except EngineError UInt64} {d' : Engine} (h : Calls m address args e r d)
    (h' : Calls m address args e r' d') : r = r' ∧ d = d' := by
  rw [calls_iff] at h h'
  rcases h with ⟨x, hx, rfl, rfl⟩ | ⟨f, t, o, c, hf, hexec, rfl, rfl⟩ <;>
    rcases h' with ⟨x', hx', rfl, rfl⟩ | ⟨f', t', o', c', hf', hexec', rfl, rfl⟩
  · cases hx.symm.trans hx'
    exact ⟨rfl, rfl⟩
  · cases hx.symm.trans hf'
  · cases hf.symm.trans hx'
  · cases hf.symm.trans hf'
    obtain ⟨rfl, rfl⟩ := hexec.unique hexec'
    exact ⟨rfl, rfl⟩

end Engine

end CilSsa.Machine

