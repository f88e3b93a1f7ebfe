import CilSsa.Proofs.LayoutWalk
import CilSsa.Proofs.MachineRuns

namespace CilSsa.Ssa.Layouts

def Recalls (s s' : Layouts) : Prop := ∀ t a, s.memo.lookup t = some a → s'.memo.lookup t = some a

section

variable {m m' : Module} {s s' s'' : Layouts} {t : Ty}

theorem Recalls.refl (s : Layouts) : Recalls s s := fun _ _ h ↦ h

theorem Recalls.trans (h : Recalls s s') (h' : Recalls s' s'') : Recalls s s'' := fun t a ha ↦ h' t a (h t a ha)

theorem Recalls.remember (h : Recalls s s') (hnew : s.memo.lookup t = none) (answer : Except LayoutError Layout) :
    Recalls s (s'.remember t answer) := by
  intro r a ha
  unfold Layouts.remember
  split
  · exact h r a ha
  · rw [List.lookup_cons]
    split
    · rename_i heq
      rw [eq_of_beq heq, hnew] at ha
      cases ha
    · exact h r a ha

theorem walk_recalls (m : Module) (s : Layouts) : Walk m (Recalls s) (fun _ _ ↦ True) fun _ _ _ ↦ True where
  exhausted _ := trivial
  known _ _ := trivial
  cyclic _ _ := trivial
  plain _ _ _ := trivial
  bodyless _ _ _ := trivial
  deeper _ _ _ _ := trivial
  struct _ _ := trivial
  failed _ _ _ := trivial
  remember hs hnew hs' _ :=
    hs'.remember (Option.eq_none_iff_forall_ne_some.mpr fun a ha ↦ Option.some_ne_none a ((hs _ a ha).symm.trans hnew))
    _

theorem recalls_of (m : Module) (t : Ty) (s : Layouts) : Recalls s (s.of m t).2 :=
  ((walk_recalls m s).compute trivial (.refl s)).1

theorem of_recalled {a : Except LayoutError Layout} (h : s.memo.lookup t = some a) : s.of m t = (a, s) := by
  unfold Layouts.of compute
  rw [h]

theorem of_remembered {l : Layout} (h : (s.of m t).1 = .ok l) : (s.of m t).2.memo.lookup t = some (.ok l) := by
  unfold Layouts.of compute at h ⊢
  cases hlookup : s.memo.lookup t with
  | some a =>
    simp only [hlookup] at h ⊢
    rw [h]
  | none =>
    simp only [hlookup, List.contains_nil, Bool.false_eq_true, if_false] at h ⊢
    unfold Layouts.remember
    rw [h]
    exact List.lookup_cons_self

theorem fieldOffset_again {index : Int} {o : Nat} (h : s.fieldOffset m t index = (.ok o, s')) (hr : Recalls s' s'') :
    s''.fieldOffset m t index = (.ok o, s'') := by
  unfold Layouts.fieldOffset at h ⊢
  cases hl : (s.of m t).1 with
  | error err =>
    simp only [hl] at h
    cases (Prod.mk.inj h).1
  | ok l =>
    simp only [hl, Prod.mk.injEq] at h
    obtain ⟨ho, rfl⟩ := h
    rw [of_recalled (hr t _ (of_remembered hl))]
    exact Prod.ext ho rfl

theorem compute_structs (h : m'.structs = m.structs) (fuel : Nat) (path : List Ty) (t : Ty) (s : Layouts) :
    compute m' fuel path t s = compute m fuel path t s := by
  have hfields : ∀ t, m'.fields? t = m.fields? t := fun t ↦ by unfold Module.fields?; rw [h]
  induction fuel generalizing path t s with
  | zero => rfl
  | succ fuel ih =>
    have hmembers : ∀ path, compute m' fuel path = compute m fuel path := fun path ↦ funext fun t ↦
      funext fun s ↦ ih path t s
    unfold compute
    simp only [hfields, hmembers]

theorem of_structs (h : m'.structs = m.structs) (s : Layouts) (t : Ty) : s.of m' t = s.of m t := by
  rw [Layouts.of, Layouts.of, nesting, nesting, h, compute_structs h]

end

end CilSsa.Ssa.Layouts

namespace CilSsa.Machine

open CilSsa.Ssa CilSsa.Number CilSsa.Text

theorem Region.place?_eq_some_iff {r : Region} {a : UInt64} {n : Int} {o : Nat} : r.place? a n = some o ↔
    r.base ≤ a ∧ 0 ≤ n ∧ o = (a - r.base).toNat ∧ (o : Int) + n ≤ r.top := by
  unfold Region.place?
  rw [← UInt64.not_lt]
  constructor
  · intro h
    split at h
    · cases h
    rename_i hin
    dsimp only at h
    split at h
    · cases h
    cases h
    exact ⟨fun hlt ↦ hin (.inl hlt), by omega, rfl, by omega⟩
  · rintro ⟨hge, hn, rfl, htop⟩
    rw [if_neg (not_or.mpr ⟨hge, by omega⟩)]
    dsimp only
    rw [if_neg (by omega)]

theorem Region.stop_lt {r : Region} {size limit : Int} {align stop : Nat} {a : UInt64}
    (h : r.room size align limit = .ok (a, stop)) : stop < 2 ^ 63 := by
  unfold Region.room at h
  dsimp only at h
  split at h
  · cases h
  split at h
  · cases h
  cases h
  have : wrapInt (alignUp r.top align + size) < 2 ^ 63 := by
    rw [wrapInt, Int.bmod_def]
    omega
  omega

theorem Region.room_above {r : Region} {size limit : Int} {align stop : Nat} {a : UInt64}
    (h : r.room size align limit = .ok (a, stop)) :
    a = r.base + (alignUp r.top align).toUInt64 ∧ r.top ≤ stop ∧ (stop : Int) ≤ limit := by
  unfold Region.room at h
  dsimp only at h
  split at h
  · cases h
  split at h
  · cases h
  cases h
  exact ⟨rfl, by omega, by omega⟩

section

variable {α β : Type} {R : Engine → Engine → Prop}

def Moves (R : Engine → Engine → Prop) (c : Run α) : Prop := ∀ e, R e (c.run.run e).2

/-- A relation between engines that holds through questions about layouts, growth of the stack and new addresses. -/
structure Allows (m : Module) (R : Engine → Engine → Prop) : Prop where
  refl : ∀ e, R e e
  trans : ∀ {e d c}, R e d → R d c → R e c
  layouts : ∀ e t, R e { e with layouts := (e.layouts.of m t).2 }
  grow : ∀ e stop, e.memory.stack.top ≤ stop → stop < 2 ^ 63 →
    R e { e with memory := { e.memory with stack := e.memory.stack.grow stop } }
  address : ∀ e f, R e { e with addressed := e.addressed ++ [f] }

def AllowsWrites (R : Engine → Engine → Prop) : Prop := ∀ e a bs, R e { e with memory := e.memory.write a bs }

def AllowsRelease (R : Engine → Engine → Prop) : Prop :=
  ∀ e mark, R e { e with memory := { e.memory with stack := e.memory.stack.release mark } }

theorem Moves.of_get {f : Engine → Run β} (hf : ∀ e, R e ((f e).run.run e).2) : Moves R (get >>= f : Run β) := by
  intro e
  rw [run_bind_ok (run_get (e := e))]
  exact hf e

variable {m : Module} {trace : List String} (h : Allows m R)

include h

namespace Allows

theorem pure (a : α) : Moves R (pure a) := h.refl

theorem raise (code : FaultCode) (detail : String) : Moves R (raise trace code detail : Run α) := h.refl

theorem meaningless : Moves R (meaningless : Run α) := h.refl

theorem bind {c : Run α} {f : α → Run β} (hc : Moves R c) (hf : ∀ a, Moves R (f a)) : Moves R (c >>= f) := by
  intro e
  have hfirst := hc e
  rcases hrun : c.run.run e with ⟨s | a, d⟩ <;> rw [hrun] at hfirst
  · rwa [run_bind_error hrun]
  · rw [run_bind_ok hrun]
    exact h.trans hfirst (hf a d)

theorem get : Moves R (get : Run Engine) := h.refl

theorem mapM {f : α → Run β} (hf : ∀ a, Moves R (f a)) (as : List α) : Moves R (as.mapM f) := by
  induction as with
  | nil => exact h.pure _
  | cons a as ih =>
    rw [List.mapM_cons]
    exact h.bind (hf a) fun b ↦ h.bind ih fun bs ↦ h.pure _

end Allows

theorem addressOf_moves (f : FuncId) : Moves R (addressOf f) := by
  refine Moves.of_get fun e ↦ ?_
  split
  · exact h.refl e
  · exact h.address e f

theorem sizeOf_moves (t : Ty) : Moves R (sizeOf m trace t) := by
  refine Moves.of_get fun e ↦ ?_
  have hlayouts : R e { e with layouts := (e.layouts.sizeOf m t).2 } := h.layouts e t
  generalize e.layouts.sizeOf m t = found at hlayouts ⊢
  rcases found with ⟨_ | n, s⟩ <;> exact hlayouts

theorem takeStack_moves (t : Ty) (count size : Int) (align : Nat) : Moves R (takeStack trace t count size align) := by
  refine Moves.of_get fun e ↦ ?_
  split
  · rename_i hroom
    exact h.grow e _ (Region.room_above hroom).2.1 (Region.stop_lt hroom)
  · exact h.refl e
  · exact h.refl e

theorem stackAlloc_moves (t : Ty) (count : Int) : Moves R (stackAlloc m trace t count) :=
  h.bind (sizeOf_moves h t) fun _ ↦ h.bind h.get fun _ ↦ takeStack_moves h t count _ _

theorem readBytes_moves (a : UInt64) (n : Int) : Moves R (readBytes trace a n) := by
  refine Moves.of_get fun e ↦ ?_
  split <;> exact h.refl e

theorem needBytes_moves (a : UInt64) (n : Int) : Moves R (needBytes trace a n) := by
  refine Moves.of_get fun e ↦ ?_
  split <;> exact h.refl e

theorem readPattern_moves (a : UInt64) (n : Nat) : Moves R (readPattern trace a n) := by
  refine h.bind (readBytes_moves h a n) fun bs ↦ ?_
  split <;> exact h.refl

theorem writeBytes_moves (hw : AllowsWrites R) (a : UInt64) (bs : Bytes) : Moves R (writeBytes trace a bs) :=
  h.bind (needBytes_moves h a _) fun _ ↦ fun e ↦ hw e a bs

theorem writePattern_moves (hw : AllowsWrites R) (a : UInt64) (n : Nat) (v : UInt64) :
    Moves R (writePattern trace a n v) := by
  refine h.bind (needBytes_moves h a _) fun _ ↦ ?_
  split
  · exact writeBytes_moves h hw a _
  · exact h.meaningless

theorem load_moves (a : UInt64) (t : Ty) (hw : t.isStruct = true → AllowsWrites R) : Moves R (load m trace a t) := by
  unfold load
  cases t with
  | int bits => exact h.bind (readPattern_moves h a _) fun _ ↦ h.pure _
  | float | double | pointer => exact readPattern_moves h a _
  | struct id name =>
    exact h.bind (sizeOf_moves h _) fun _ ↦ h.bind (readBytes_moves h a _) fun bs ↦
      h.bind (stackAlloc_moves h _ _) fun c ↦ h.bind (writeBytes_moves h (hw rfl) c bs) fun _ ↦ h.pure c
  | untyped => exact h.meaningless
  | void | func => exact h.raise _ _

theorem store_moves (hw : AllowsWrites R) (a : UInt64) (t : Ty) (v : UInt64) : Moves R (store m trace a t v) := by
  unfold store
  cases t with
  | int | float | double | pointer => exact writePattern_moves h hw a _ _
  | struct id name =>
    exact h.bind (sizeOf_moves h _) fun _ ↦ h.bind (readBytes_moves h v _) fun bs ↦ writeBytes_moves h hw a bs
  | untyped => exact h.meaningless
  | void | func => exact h.raise _ _

theorem operand_moves (fr : Frame) (o : Option Value) : Moves R (operand m trace fr o) := by
  unfold operand
  cases o with
  | none => exact h.raise _ _
  | some v =>
    cases v with
    | instr id t =>
      dsimp only
      split
      · exact h.pure _
      · exact h.raise _ _
    | param fn i t =>
      dsimp only
      split
      · exact h.pure _
      · exact h.meaningless
    | func f t => exact addressOf_moves h f
    | const c o => exact h.pure _

theorem fieldOffset_moves (t : Ty) (index : Int) (p : UInt64) : Moves R (do
    let e ← get
    let (r, layouts) := e.layouts.fieldOffset m t index
    set { e with layouts }
    match r with
    | .ok o => return p + o.toUInt64
    | .error err => raise trace .badValue err.message) := by
  refine Moves.of_get fun e ↦ ?_
  have hlayouts : R e { e with layouts := (e.layouts.fieldOffset m t index).2 } := h.layouts e t
  generalize e.layouts.fieldOffset m t index = found at hlayouts ⊢
  rcases found with ⟨_ | o, s⟩ <;> exact hlayouts

theorem slots_moves (t : Ty) (count : Int) : Moves R (do
    if count < 0 then raise trace .badValue ("alloca count " ++ toString count)
    stackAlloc m trace t count) := by
  dsimp only
  split
  · exact h.bind (h.raise _ _) fun _ ↦ stackAlloc_moves h t count
  · exact stackAlloc_moves h t count

/-- An instruction writes to memory only if it is a store, or loads a struct. -/
theorem compute_moves (i : Instr) (ops : List UInt64)
    (hw : i.op = .store ∨ i.op = .load ∧ i.type.isStruct = true → AllowsWrites R) :
    Moves R (compute m trace i ops) := by
  unfold compute
  split
  · exact slots_moves h _ _
  · rename_i hop
    exact load_moves h _ _ fun ht ↦ hw (.inr ⟨hop, ht⟩)
  · rename_i hop
    exact h.bind (store_moves h (hw (.inl hop)) _ _ _) fun _ ↦ h.pure _
  · split
    · exact fieldOffset_moves h _ _ _
    · exact h.meaningless
  · exact h.pure _
  · exact h.pure _
  · exact h.pure _
  · exact h.raise _ _
  · split
    · split
      · split
        · exact h.pure _
        · exact h.raise _ _
      · exact h.meaningless
    · split
      · split
        · split
          · exact h.pure _
          · exact h.raise _ _
        · exact h.meaningless
      · exact h.meaningless

theorem fill_moves (hw : AllowsWrites R) (ops : List UInt64) : Moves R (fill trace ops) := by
  unfold fill
  split
  · have hrest : ∀ (p v : UInt64) (n : Int), Moves R (do
        needBytes trace p n
        writeBytes trace p (List.replicate n.toNat v.toUInt8)) :=
      fun p v n ↦ h.bind (needBytes_moves h p n) fun _ ↦ writeBytes_moves h hw p _
    dsimp only
    split
    · exact h.bind (h.raise _ _) fun _ ↦ hrest _ _ _
    · exact hrest _ _ _
  · exact h.meaningless

theorem enter_moves (depth : Nat) (f : FuncId) (args : List UInt64) : Moves R (enter m trace depth f args) := by
  unfold enter
  cases m.function? f with
  | none => exact h.meaningless
  | some fn =>
    refine Moves.of_get fun e ↦ ?_
    dsimp only
    split
    · exact h.refl e
    · cases fn.blocks[0]? <;> exact h.refl e

theorem goto_moves (fr : Frame) (target : Option (Option BlockId)) : Moves R (goto m fr target) := by
  unfold goto
  split
  · split
    · exact h.pure _
    · exact h.meaningless
  · exact h.meaningless

theorem returnedBytes_moves (t : Ty) (v : UInt64) : Moves R (returnedBytes m trace t v) := by
  unfold returnedBytes
  split
  · exact h.bind (sizeOf_moves h t) fun _ ↦ readBytes_moves h v _
  · exact h.pure _

theorem receive_moves (hw : AllowsWrites R) (t : Ty) (r : Returned) : Moves R (receive m trace t r) := by
  unfold receive
  split
  · exact h.pure _
  · exact h.bind (stackAlloc_moves h t 1) fun c ↦ h.bind (writeBytes_moves h hw c _) fun _ ↦ h.pure c

theorem resume_moves (hw : AllowsWrites R) (callers : List Frame) (r : Returned) : Moves R (resume m callers r) := by
  unfold resume
  cases callers with
  | nil => exact h.pure _
  | cons caller outer =>
    dsimp only
    split
    · exact h.meaningless
    · exact h.bind (receive_moves h hw _ r) fun _ ↦ h.pure _

theorem leave_moves (hw : AllowsWrites R) (hr : AllowsRelease R) (fr : Frame) (callers : List Frame) (v : UInt64) :
    Moves R (leave m trace fr callers v) := by
  exact h.bind (returnedBytes_moves h _ v) fun bytes ↦ h.bind (fun e ↦ hr e fr.mark) fun _ ↦ resume_moves h hw callers _

/-- What a step does, a relation holds through that holds through each thing that steps do. -/
theorem step_moves (hw : AllowsWrites R) (hr : AllowsRelease R) (frames : List Frame) : Moves R (step m frames) := by
  unfold step
  dsimp only
  split
  · exact h.meaningless
  split
  · exact h.raise _ _
  split
  · exact h.meaningless
  refine h.bind (h.mapM (operand_moves h _) _) fun ops ↦ ?_
  split
  · exact h.bind (goto_moves h _ _) fun _ ↦ h.pure _
  · split
    · exact h.bind (goto_moves h _ _) fun _ ↦ h.pure _
    · exact h.meaningless
  · exact leave_moves h hw hr _ _ _
  · split
    · exact h.meaningless
    · split
      · exact h.bind (fill_moves h hw _) fun _ ↦ h.pure _
      · exact h.bind (enter_moves h _ _ _) fun _ ↦ h.pure _
  · exact h.bind (compute_moves h _ _ fun _ ↦ hw) fun _ ↦ h.pure _

theorem run_moves (hw : AllowsWrites R) (hr : AllowsRelease R) (fuel : Nat) (frames : List Frame) (e : Engine) :
    R e (run m fuel frames e).2 := by
  induction fuel generalizing frames e with
  | zero => exact h.refl e
  | succ fuel ih =>
    have hstep := step_moves h hw hr frames e
    rw [run]
    generalize (step m frames).run.run e = found at hstep ⊢
    rcases found with ⟨s | progress, d⟩
    · exact hstep
    · cases progress with
      | running frames' => exact h.trans hstep (ih frames' d)
      | returned r => exact hstep

theorem execute_moves (hw : AllowsWrites R) (hr : AllowsRelease R) (fuel : Nat) (f : FuncId) (args : List UInt64)
    (e : Engine) : R e (Engine.execute m fuel f args e).2 := by
  have hmoves : Moves R (enter m [] 0 f args) := enter_moves h 0 f args
  have henter := hmoves e
  unfold Engine.execute
  rcases hrun : (enter m [] 0 f args).run.run e with ⟨s | fr, c⟩ <;> rw [hrun] at henter
  · exact henter
  · exact h.trans henter (run_moves h hw hr fuel [fr] c)

end

/-! ### What an engine keeps -/

/-- `d` remembers the layouts of `e`, and its functions have the addresses that they have in `e`. -/
structure Engine.Extends (e d : Engine) : Prop where
  layouts : e.layouts.Recalls d.layouts
  addressed : e.addressed <+: d.addressed

theorem Engine.Extends.allows (m : Module) : Allows m Engine.Extends where
  refl _ := ⟨.refl _, List.prefix_rfl⟩
  trans h h' := ⟨h.layouts.trans h'.layouts, h.addressed.trans h'.addressed⟩
  layouts _ t := ⟨Layouts.recalls_of m t _, List.prefix_rfl⟩
  grow _ _ _ _ := ⟨.refl _, List.prefix_rfl⟩
  address _ _ := ⟨.refl _, List.prefix_append _ _⟩

theorem Engine.Extends.writes : AllowsWrites Engine.Extends := fun _ _ _ ↦ ⟨.refl _, List.prefix_rfl⟩

theorem Engine.Extends.release : AllowsRelease Engine.Extends := fun _ _ ↦ ⟨.refl _, List.prefix_rfl⟩

def Memory.Separate (mem : Memory) : Prop := mem.heap.base.toNat + mem.heap.top ≤ mem.stack.base.toNat

/-- The regions are where they were, and as much of the heap is in use. -/
structure Memory.SameRegions (mem mem' : Memory) : Prop where
  heap : mem'.heap.base = mem.heap.base
  top : mem'.heap.top = mem.heap.top
  stack : mem'.stack.base = mem.stack.base

theorem Memory.SameRegions.write (mem : Memory) (a : UInt64) (bs : Bytes) : mem.SameRegions (mem.write a bs) := by
  unfold Memory.write
  split
  · exact ⟨rfl, rfl, Region.base_write ..⟩
  · split
    · exact ⟨Region.base_write .., Region.top_write .., rfl⟩
    · exact ⟨rfl, rfl, rfl⟩

theorem Memory.SameRegions.allows (m : Module) : Allows m fun e d ↦ e.memory.SameRegions d.memory where
  refl _ := ⟨rfl, rfl, rfl⟩
  trans h h' := ⟨h'.heap.trans h.heap, h'.top.trans h.top, h'.stack.trans h.stack⟩
  layouts _ _ := ⟨rfl, rfl, rfl⟩
  grow _ _ _ _ := ⟨rfl, rfl, rfl⟩
  address _ _ := ⟨rfl, rfl, rfl⟩

theorem Memory.SameRegions.writes : AllowsWrites fun e d ↦ e.memory.SameRegions d.memory := fun _ a bs ↦ .write _ a bs

theorem Memory.SameRegions.release : AllowsRelease fun e d ↦ e.memory.SameRegions d.memory :=
  fun _ _ ↦ ⟨rfl, rfl, Region.base_release ..⟩

/-! ### Two runs side by side -/

def Stop.bare : Stop → Stop
  | .fault f => .fault ⟨f.code, "", []⟩
  | .meaningless => .meaningless

/-- Both give something, as `Q` has it, or both stop for the same reason and leave engines as `E` has it. -/
inductive Both {α β : Type} (Q : α → β → Engine → Engine → Prop) (E : Engine → Engine → Prop) :
    Except Stop α × Engine → Except Stop β × Engine → Prop
  | ok {a : α} {a' : β} {d d' : Engine} : Q a a' d d' → Both Q E (.ok a, d) (.ok a', d')
  | error {s s' : Stop} {d d' : Engine} : s'.bare = s.bare → E d d' → Both Q E (.error s, d) (.error s', d')

section

variable {α α' β β' : Type} {Q : α → α' → Engine → Engine → Prop} {S : β → β' → Engine → Engine → Prop}
  {E : Engine → Engine → Prop} {e e' : Engine}

theorem Both.bind {c : Run α} {c' : Run α'} {f : α → Run β} {f' : α' → Run β'}
    (h : Both Q E (c.run.run e) (c'.run.run e')) (hf : ∀ a a' d d', Q a a' d d' →
    Both S E ((f a).run.run d) ((f' a').run.run d')) : Both S E ((c >>= f).run.run e) ((c' >>= f').run.run e') := by
  rcases hc : c.run.run e with ⟨s | a, d⟩ <;> rcases hc' : c'.run.run e' with ⟨s' | a', d'⟩ <;> rw [hc, hc'] at h
  · cases h with
    | error hs hd =>
      rw [run_bind_error hc, run_bind_error hc']
      exact .error hs hd
  · cases h
  · cases h
  · cases h with
    | ok hq =>
      rw [run_bind_ok hc, run_bind_ok hc']
      exact hf a a' d d' hq

theorem Both.same (r : Except Stop α × Engine) : Both (fun a a' d d' ↦ a' = a ∧ d' = d) (fun d d' ↦ d' = d) r r := by
  rcases r with ⟨s | a, d⟩
  · exact .error rfl rfl
  · exact .ok ⟨rfl, rfl⟩

theorem Both.moves {R : Engine → Engine → Prop} {c : Run α} (h : Moves R c) (e : Engine) :
    Both (fun a a' d d' ↦ a' = a ∧ d' = d ∧ R e d) (fun d d' ↦ d' = d) (c.run.run e) (c.run.run e) := by
  have he := h e
  generalize c.run.run e = r at he ⊢
  rcases r with ⟨s | a, d⟩
  · exact .error rfl rfl
  · exact .ok ⟨rfl, rfl, he⟩

theorem Both.and {P : α → Engine → Prop} {r : Except Stop α × Engine} {r' : Except Stop α' × Engine} (h : Both Q E r r')
    (hp : ∀ a d, r = (.ok a, d) → P a d) : Both (fun a a' d d' ↦ Q a a' d d' ∧ P a d) E r r' := by
  cases h with
  | ok h => exact .ok ⟨h, hp _ _ rfl⟩
  | error hs hd => exact .error hs hd

theorem Both.raise {ts ts' : List String} {code : FaultCode} {text text' : String} (h : E e e') :
    Both Q E ((raise ts code text : Run α).run.run e) ((raise ts' code text' : Run α').run.run e') :=
  .error rfl h

theorem Both.meaningless (h : E e e') :
    Both Q E ((Machine.meaningless : Run α).run.run e) ((Machine.meaningless : Run α').run.run e') :=
  .error rfl h

end

end CilSsa.Machine

