import CilSsa.Lowering.Request
import CilSsa.Proofs.Isolation
import CilSsa.Proofs.SlotRefinement

namespace CilSsa.Machine

open CilSsa.Ssa CilSsa.SlotMachine

theorem functionAddress_inj {i j : Nat} (hi : i < 2 ^ 40) (hj : j < 2 ^ 40)
    (h : functionAddress i = functionAddress j) : i = j := by
  have h' := congrArg UInt64.toNat h
  simp only [functionAddress, functionBase, functionStep, UInt64.toNat_add, UInt64.toNat_mul, Nat.toUInt64,
    UInt64.toNat_ofNat', UInt64.reduceToNat] at h'
  omega

section

variable {m : Module} {e : Engine} {F : Function}

theorem functionAt?_eq {i : Nat} {f : FuncId} (hfew : e.addressed.length < 2 ^ 40) (hi : e.addressed[i]? = some f) :
    e.functionAt? (functionAddress i) = some f := by
  have hlt : i < e.addressed.length := (List.getElem?_eq_some_iff.mp hi).1
  unfold Engine.functionAt?
  cases hfind : (List.range e.addressed.length).findSome? fun j ↦
      if functionAddress j = functionAddress i then e.addressed[j]? else none with
  | none =>
    have := List.findSome?_eq_none_iff.mp hfind i (List.mem_range.mpr hlt)
    rw [if_pos rfl, hi] at this
    cases this
  | some g =>
    obtain ⟨j, hj, hg⟩ := List.exists_of_findSome?_eq_some hfind
    split at hg
    · rename_i haddress
      rw [List.mem_range] at hj
      rw [functionAddress_inj (by omega) (by omega) haddress, hi] at hg
      exact hg.symm
    · cases hg

/-- What giving out an address leaves alone. -/
structure Addresses (e e' : Engine) (f : FuncId) (a : UInt64) : Prop where
  found : e'.functionAt? a = some f
  limits : e'.limits = e.limits
  memory : e'.memory = e.memory
  layouts : e'.layouts = e.layouts
  closed : e'.closed = e.closed

theorem addressFound_open (m : Module) (name : String) (hopen : e.closed = false) (hfew : e.addressed.length < 2 ^ 32)
    (hF : F.isDeclaration = false) : ∃ a e', Engine.addressFound m name (some F) e = (.ok a, e') ∧
    Addresses e e' F.id a := by
  cases hidx : e.addressed.idxOf? F.id with
  | some i =>
    have hrun : (addressOf F.id).run.run e = (.ok (functionAddress i), e) := by
      unfold addressOf
      rw [run_bind_ok run_get, hidx]
      rfl
    refine ⟨functionAddress i, e, ?_, functionAt?_eq (by omega) ?_, rfl, rfl, rfl, rfl⟩
    · simp [Engine.addressFound, Engine.ifOpen, Engine.request, hopen, hF, hrun]
    · obtain ⟨hlt, hi, -⟩ := List.findIdx?_eq_some_iff_getElem.mp hidx
      rw [List.getElem?_eq_getElem hlt, eq_of_beq hi]
  | none =>
    let e' : Engine := { e with addressed := e.addressed ++ [F.id] }
    have hrun : (addressOf F.id).run.run e = (.ok (functionAddress e.addressed.length), e') := by
      unfold addressOf
      rw [run_bind_ok run_get, hidx]
      rfl
    refine ⟨functionAddress e.addressed.length, e', ?_, functionAt?_eq ?_ ?_, rfl, rfl, rfl, rfl⟩
    · simp [Engine.addressFound, Engine.ifOpen, Engine.request, hopen, hF, hrun]
    · simp only [e', List.length_append, List.length_singleton]
      omega
    · simp [e']

theorem enter_run {B : Ssa.Block} (hF : m.function? F.id = some F) (hB : F.blocks[0]? = some B) (he : Idle e)
    (args : List UInt64) : (enter m [] 0 F.id args).run.run e = if e.limits.maxDepth ≤ 0 then
      (.error (.fault ⟨.stackOverflow, "call depth limit " ++ toString e.limits.maxDepth ++ " reached", []⟩), e)
    else (.ok (entryFrame F args B), e) := by
  unfold enter
  simp only [hF]
  rw [run_bind_ok run_get]
  by_cases hdepth : e.limits.maxDepth ≤ 0
  · simp only [Int.ofNat_zero, hdepth, if_true]
    rfl
  · simp only [Int.ofNat_zero, hdepth, if_false, hB, he.top]
    rfl

/-! ### What stays idle -/

/-- What no call changes of an engine. -/
structure Engine.Stays (e d : Engine) : Prop where
  limits : d.limits = e.limits
  closed : d.closed = e.closed
  bottom : d.memory.stack.base = e.memory.stack.base
  layouts : e.layouts.Plain → d.layouts.Plain

theorem Engine.Stays.of_memory (e : Engine) {mem : Memory} (h : mem.stack.base = e.memory.stack.base) :
    e.Stays { e with memory := mem } := ⟨rfl, rfl, h, fun hl ↦ hl⟩

theorem Engine.Stays.allows (m : Module) : Allows m Engine.Stays where
  refl _ := ⟨rfl, rfl, rfl, fun h ↦ h⟩
  trans h h' := ⟨h'.limits.trans h.limits, h'.closed.trans h.closed, h'.bottom.trans h.bottom, h'.layouts ∘ h.layouts⟩
  layouts _ t := ⟨rfl, rfl, rfl, fun h ↦ h.learn m t⟩
  grow e _ _ _ := .of_memory e rfl
  address _ _ := ⟨rfl, rfl, rfl, fun h ↦ h⟩

theorem addressFound_stays (m : Module) (name : String) (found : Option Function) (e : Engine) :
    e.Stays (Engine.addressFound m name found e).2 :=
  Engine.addressFound_moves (Engine.Stays.allows m) name found e

theorem callAddress_stays (m : Module) (fuel : Nat) (a : UInt64) (args : List UInt64) (e : Engine) :
    e.Stays (Engine.callAddress m fuel a args e).2 :=
  Engine.callAddress_moves (Engine.Stays.allows m)
    (fun e a bs ↦ .of_memory e (Memory.SameRegions.write e.memory a bs).stack)
    (fun e _ ↦ .of_memory e (Region.base_release ..)) (fun e _ ↦ .of_memory e rfl)
    (fun e ↦ .of_memory e (Region.base_release ..)) fuel a args e

theorem request_snd {α : Type} {P : Engine → Prop} {c : Run α} (h : P e) (hc : P (c.run.run e).2) :
    P (Engine.request c e).2 := by
  unfold Engine.request Engine.ifOpen
  split
  · exact h
  · dsimp only
    split <;> rename_i hrun <;> rwa [hrun] at hc

theorem copyOut_stack (e : Engine) (bs : Text.Bytes) (align : Nat) :
    ((Engine.copyOut bs align).run.run e).2.memory.stack.top = e.memory.stack.top := by
  unfold Engine.copyOut
  refine run_bind_snd (P := fun d ↦ d.memory.stack.top = e.memory.stack.top) ?_ fun a d hd ↦ ?_
  · rcases reserveHeap_run e bs.length align with ⟨_, hrun⟩ | ⟨_, _, -, hrun⟩ <;> rw [hrun]
  have htop : d.memory.stack.top = e.memory.stack.top := by
    rcases reserveHeap_run e bs.length align with ⟨_, hrun⟩ | ⟨_, _, -, hrun⟩ <;> rw [hrun] at hd <;> cases hd
    rfl
  have hneed : ((needBytes [] a bs.length).run.run d).2 = d := needBytes_same d a _
  have hwrite : ((writeBytes [] a bs).run.run d).2.memory.stack.top = e.memory.stack.top := by
    unfold writeBytes
    refine run_bind_snd (P := fun c ↦ c.memory.stack.top = e.memory.stack.top) (by rw [hneed, htop]) fun _ c hc ↦ ?_
    rw [hc] at hneed
    obtain rfl : c = d := hneed
    exact (Memory.stack_top_write ..).trans htop
  exact run_bind_snd (P := fun c ↦ c.memory.stack.top = e.memory.stack.top) hwrite fun _ c hc ↦ by rwa [hc] at hwrite

theorem keepAggregate_stack (m : Module) (t : Ty) (bs : Text.Bytes) (e : Engine) :
    (Engine.keepAggregate m t bs e).2.memory.stack.top = e.memory.stack.top := by
  unfold Engine.keepAggregate Layouts.alignOf
  generalize e.layouts.of m t = found
  rcases found with ⟨_ | l, s⟩
  · rfl
  have hcopy := copyOut_stack { e with layouts := s } bs l.align
  have hrequest := request_snd (P := fun d ↦ d.memory.stack.top = e.memory.stack.top) (c := Engine.copyOut bs l.align)
    (e := { e with layouts := s }) rfl hcopy
  exact hrequest

theorem callAddress_stack (m : Module) (fuel : Nat) (a : UInt64) (args : List UInt64) (h : e.memory.stack.top = 0) :
    (Engine.callAddress m fuel a args e).2.memory.stack.top = 0 := by
  rcases Engine.callAddress_eq m fuel a args e with ⟨_, -, hcall⟩ | ⟨f, t, -, hcall⟩ <;> rw [hcall]
  · exact h
  rcases hexec : Engine.execute m fuel f args e with ⟨r | s | _, c⟩
  · have htop := (execute_returned hexec).1.trans h
    unfold Engine.conclude
    dsimp only
    split
    · exact htop
    · exact (keepAggregate_stack ..).trans htop
  · exact (Region.top_release ..).trans (Nat.zero_min _)
  · exact (Region.top_release ..).trans (Nat.zero_min _)

theorem addressFound_memory (m : Module) (name : String) (found : Option Function) (e : Engine) :
    (Engine.addressFound m name found e).2.memory = e.memory := by
  unfold Engine.addressFound Engine.ifOpen
  dsimp only
  split
  · rfl
  split
  · rfl
  split
  · rfl
  rename_i f hdecl
  refine request_snd (P := fun d ↦ d.memory = e.memory) rfl ?_
  unfold addressOf
  rw [run_bind_ok run_get]
  split <;> rfl

end

end CilSsa.Machine

namespace CilSsa.Lowering

open CilSsa.Machine CilSsa.Metadata CilSsa.SlotMachine
open CilSsa.Ssa (Function)

/-- What a call gives for the outcome of its run. -/
inductive Answers : Outcome → Except InvokeError UInt64 → Prop
  | returned {v : UInt64} : Answers (.returned ⟨v, []⟩) (.ok v)
  | aggregate {r : Returned} {a : Except InvokeError UInt64} : r.aggregate ≠ [] → Answers (.returned r) a
  | stopped {s : Stop} : Answers (.stopped s) (.error (.engine s.error))
  | outOfFuel : Answers .outOfFuel (.error (.engine .outOfFuel))

theorem Answers.ok {v : UInt64} {a : Except InvokeError UInt64} (h : Answers (.returned ⟨v, []⟩) a) : a = .ok v := by
  cases h with
  | returned => rfl
  | aggregate hne => exact absurd rfl hne

theorem Answers.fault {f : Fault} {a : Except InvokeError UInt64} (h : Answers (.stopped (.fault f)) a) :
    a = .error (.engine (.fault f)) := by
  cases h
  rfl

theorem Answers.value {out : Outcome} {v : UInt64} (h : Answers out (.ok v)) :
    ∃ r, out = .returned r ∧ (r.aggregate = [] → v = r.pattern) := by
  cases h with
  | returned => exact ⟨_, rfl, fun _ ↦ rfl⟩
  | aggregate hne => exact ⟨_, rfl, fun heq ↦ absurd heq hne⟩

section

variable {F : Function} {B : Ssa.Block} {args : List UInt64}

def ends (module : Ssa.Module) (F : Function) (B : Ssa.Block) (args : List UInt64) (fuel : Nat)
    (e : Engine) : Outcome :=
  if e.limits.maxDepth ≤ 0 then
    .stopped (.fault ⟨.stackOverflow, "call depth limit " ++ toString e.limits.maxDepth ++ " reached", []⟩)
  else (run module fuel [entryFrame F args B] e).1

theorem callAddress_answers {module : Ssa.Module} {e : Engine} {a : UInt64} (hopen : e.closed = false)
    (ha : e.functionAt? a = some F.id) (hF : module.function? F.id = some F) (hB : F.blocks[0]? = some B) (he : Idle e)
    (hargs : args.length = F.params.length) (fuel : Nat) :
    Answers (ends module F B args fuel e) ((Engine.callAddress module fuel a args e).1.mapError .engine) := by
  have hne : ¬ args.length ≠ F.params.length := not_not_intro hargs
  unfold ends Engine.callAddress Engine.ifOpen Engine.execute
  simp only [hopen, ha, hF, hne, enter_run hF hB he, Bool.false_eq_true, if_false]
  by_cases hdepth : e.limits.maxDepth ≤ 0
  · rw [if_pos hdepth, if_pos hdepth]
    exact .stopped
  · rw [if_neg hdepth, if_neg hdepth]
    dsimp only
    rcases run module fuel [entryFrame F args B] e with ⟨⟨v, bytes⟩ | s | _, e'⟩
    · cases bytes with
      | nil => exact .returned
      | cons b bs => exact .aggregate (List.cons_ne_nil b bs)
    · exact .stopped
    · exact .outOfFuel

variable {u u' : CompilationUnit} {world : Universe} {m : Method}

theorem invokeFor_answers (hg : getMethod world m u = (.ok F.id, u')) (hF : u'.module.function? F.id = some F)
    (hcalled : u'.module.functionCalled? F.name = some F) (hopen : u'.engine.closed = false)
    (hfew : u'.engine.addressed.length < 2 ^ 32) (he : Idle u'.engine) (hB : F.blocks[0]? = some B)
    (hargs : args.length = F.params.length) :
    ∃ e, Idle e ∧ e.limits = u'.engine.limits ∧
      ∀ fuel, Answers (ends u'.module F B args fuel e) (u.invokeFor fuel world m args).1 := by
  have hdecl : F.isDeclaration = false := by
    obtain ⟨hlt, -⟩ := Array.getElem?_eq_some_iff.mp hB
    simp only [Function.isDeclaration, Array.isEmpty_eq_false_iff]
    exact Array.ne_empty_of_size_pos hlt
  obtain ⟨a, e, haddress, ha⟩ := addressFound_open u'.module F.name hopen hfew hdecl
  have hfunction : u.functionAddress world m = (.ok a, { u' with engine := e }) := by
    simp only [CompilationUnit.functionAddress, hg, hF, Option.map_some, Option.getD_some, hcalled,
      CompilationUnit.onEngine, haddress]
    rfl
  have hidle : Idle e := ⟨by rw [ha.memory, he.bottom], by rw [ha.memory, he.top], by rw [ha.layouts]; exact he.layouts⟩
  refine ⟨e, hidle, ha.limits, fun fuel ↦ ?_⟩
  simp only [CompilationUnit.invokeFor, hfunction, CompilationUnit.onEngine]
  exact callAddress_answers (ha.closed.trans hopen) ha.found hF hB hidle hargs fuel

end

end CilSsa.Lowering

