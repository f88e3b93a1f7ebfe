import CilSsa.Proofs.EngineCalls
import CilSsa.Proofs.LayoutAnswers
import Mathlib.Logic.Relation

namespace CilSsa.Machine

open CilSsa.Ssa CilSsa.Text Relation

def Engine.Knows (m : Module) (e : Engine) : Prop := Layouts.Exactly m .host e.layouts

/-- Regions with the same bytes in use. What lies behind them may differ. -/
structure Region.Same (r r' : Region) : Prop where
  base : r'.base = r.base
  bytes : r'.bytes = r.bytes

namespace Region.Same

variable {r r' : Region}

theorem top (h : r.Same r') : r'.top = r.top := by
  rw [← length_bytes, h.bytes, length_bytes]

theorem place? (h : r.Same r') (a : UInt64) (n : Int) : r'.place? a n = r.place? a n := by
  unfold Region.place?
  rw [h.base, h.top]

theorem room (h : r.Same r') (size : Int) (align : Nat) (limit : Int) : r'.room size align limit =
    r.room size align limit := by
  unfold Region.room
  rw [h.base, h.top]

theorem read (h : r.Same r') {o n : Nat} (hend : o + n ≤ r.top) : r'.read o n = r.read o n := by
  rw [read_eq _ hend, read_eq _ (h.top ▸ hend), h.bytes]

theorem grow (h : r.Same r') {stop : Nat} (hstop : r.top ≤ stop) : (r.grow stop).Same (r'.grow stop) := by
  refine ⟨h.base, ?_⟩
  rw [bytes_grow _ hstop, bytes_grow _ (h.top ▸ hstop), h.bytes, h.top]

theorem release (h : r.Same r') (mark : Nat) : (r.release mark).Same (r'.release mark) := by
  refine ⟨h.base, ?_⟩
  rw [bytes_release, bytes_release, h.bytes]

theorem write (h : r.Same r') {o : Nat} {bs : Bytes} (hend : o + bs.length ≤ r.top) :
    (r.write o bs).Same (r'.write o bs) := by
  refine ⟨?_, ?_⟩
  · rw [base_write, base_write, h.base]
  · rw [bytes_write _ _ _ hend, bytes_write _ _ _ (h.top ▸ hend), h.bytes]

theorem of_empty (hbase : r'.base = r.base) (h : r.top = 0) (h' : r'.top = 0) : r.Same r' := by
  refine ⟨hbase, ?_⟩
  rw [List.length_eq_zero_iff.mp (r'.length_bytes.trans h'), List.length_eq_zero_iff.mp (r.length_bytes.trans h)]

end Region.Same

/-- Memory with the same bytes in use. -/
structure Memory.Same (mem mem' : Memory) : Prop where
  heap : mem.heap.Same mem'.heap
  stack : mem.stack.Same mem'.stack

namespace Memory.Same

variable {mem mem' : Memory}

theorem read? (h : mem.Same mem') (a : UInt64) (n : Int) : mem'.read? a n = mem.read? a n := by
  unfold Memory.read?
  rw [h.stack.place?, h.heap.place?]
  cases hs : mem.stack.place? a n with
  | some o =>
    obtain ⟨-, hn, -, hend⟩ := Region.place?_eq_some_iff.mp hs
    exact congrArg some (h.stack.read (by omega))
  | none =>
    cases hh : mem.heap.place? a n with
    | some o =>
      obtain ⟨-, hn, -, hend⟩ := Region.place?_eq_some_iff.mp hh
      exact congrArg some (h.heap.read (by omega))
    | none => rfl

theorem maps (h : mem.Same mem') (a : UInt64) (n : Int) : mem'.maps a n = mem.maps a n := by
  unfold Memory.maps
  rw [h.stack.place?, h.heap.place?]

theorem write (h : mem.Same mem') (a : UInt64) (bs : Bytes) : (mem.write a bs).Same (mem'.write a bs) := by
  unfold Memory.write
  rw [h.stack.place?, h.heap.place?]
  cases hs : mem.stack.place? a bs.length with
  | some o =>
    obtain ⟨-, -, -, hend⟩ := Region.place?_eq_some_iff.mp hs
    exact ⟨h.heap, h.stack.write (by omega)⟩
  | none =>
    cases hh : mem.heap.place? a bs.length with
    | some o =>
      obtain ⟨-, -, -, hend⟩ := Region.place?_eq_some_iff.mp hh
      exact ⟨h.heap.write (by omega), h.stack⟩
    | none => exact h

theorem release (h : mem.Same mem') (mark : Nat) :
    Memory.Same { mem with stack := mem.stack.release mark } { mem' with stack := mem'.stack.release mark } :=
  ⟨h.heap, h.stack.release mark⟩

end Memory.Same

/-- Engines with the same bytes in use and the same bounds. -/
structure Engine.Alike (m : Module) (e e' : Engine) : Prop where
  memory : e.memory.Same e'.memory
  limits : e'.limits = e.limits
  closed : e'.closed = e.closed
  knows : e.Knows m
  knows' : e'.Knows m

section

variable {α β : Type} {m : Module} {trace : List String} {e e' : Engine} {t : Ty}

/-- A computation that gives the same on such engines, and leaves such engines. -/
def Steady (m : Module) (c : Run α) : Prop := ∀ e e', e.Alike m e' →
  Both (fun a a' d d' ↦ a' = a ∧ d.Alike m d') (Engine.Alike m) (c.run.run e) (c.run.run e')

namespace Steady

theorem pure (a : α) : Steady m (pure a : Run α) := fun _ _ h ↦ .ok ⟨rfl, h⟩

theorem raise (code : FaultCode) (detail : String) : Steady m (raise trace code detail : Run α) := fun _ _ h ↦ .raise h

theorem meaningless : Steady m (meaningless : Run α) := fun _ _ h ↦ .meaningless h

theorem bind {c : Run α} {f : α → Run β} (hc : Steady m c) (hf : ∀ a, Steady m (f a)) : Steady m (c >>= f) := by
  intro e e' h
  refine (hc e e' h).bind ?_
  rintro _ a d d' ⟨rfl, hd⟩
  exact hf _ d d' hd

theorem of_get {f : Engine → Run β} (hf : ∀ e e', e.Alike m e' →
    Both (fun a a' d d' ↦ a' = a ∧ d.Alike m d') (Engine.Alike m) ((f e).run.run e) ((f e').run.run e')) :
    Steady m (get >>= f : Run β) := by
  intro e e' h
  rw [run_bind_ok (run_get (e := e)), run_bind_ok (run_get (e := e'))]
  exact hf e e' h

theorem modify {g : Memory → Memory} (hg : ∀ mem mem' : Memory, mem.Same mem' → (g mem).Same (g mem')) :
    Steady m (modify fun e ↦ { e with memory := g e.memory } : Run Unit) :=
  fun _ _ h ↦ .ok ⟨rfl, hg _ _ h.memory, h.limits, h.closed, h.knows, h.knows'⟩

theorem mapM {f : α → Run β} {as : List α} (hf : ∀ a ∈ as, Steady m (f a)) : Steady m (as.mapM f) := by
  induction as with
  | nil => exact pure _
  | cons a as ih =>
    rw [List.mapM_cons]
    exact (hf a List.mem_cons_self).bind fun b ↦ (ih fun a ha ↦ hf a (List.mem_cons_of_mem _ ha)).bind fun bs ↦ pure _

end Steady

theorem Engine.Alike.layout (h : e.Alike m e') (t : Ty) :
    (∃ l s s', e.layouts.of m t = (.ok l, s) ∧ e'.layouts.of m t = (.ok l, s') ∧
      Engine.Alike m { e with layouts := s } { e' with layouts := s' }) ∨
    ∃ x x' s s', e.layouts.of m t = (.error x, s) ∧ e'.layouts.of m t = (.error x', s') ∧
      Engine.Alike m { e with layouts := s } { e' with layouts := s' } := by
  obtain ⟨hs, ha⟩ := Layouts.of_exact (t := t) h.knows
  obtain ⟨hs', ha'⟩ := Layouts.of_exact (t := t) h.knows'
  have hsame := ha.same ha'
  generalize e.layouts.of m t = r at hs hsame ⊢
  generalize e'.layouts.of m t = r' at hs' hsame ⊢
  rcases r with ⟨x | l, s⟩ <;> rcases r' with ⟨x' | l', s'⟩
  · exact .inr ⟨x, x', s, s', rfl, rfl, h.memory, h.limits, h.closed, hs, hs'⟩
  · cases hsame
  · cases hsame
  · cases hsame
    exact .inl ⟨_, s, s', rfl, rfl, h.memory, h.limits, h.closed, hs, hs'⟩

theorem sizeOf_steady (t : Ty) : Steady m (sizeOf m trace t) := by
  refine Steady.of_get fun e e' h ↦ ?_
  unfold Layouts.sizeOf
  rcases h.layout t with ⟨l, s, s', hl, hl', hd⟩ | ⟨x, x', s, s', hl, hl', hd⟩
  · rw [hl, hl']
    exact .ok ⟨rfl, hd⟩
  · rw [hl, hl']
    exact .error rfl hd

theorem takeStack_steady (t : Ty) (count size : Int) (align : Nat) : Steady m (takeStack trace t count size align) := by
  refine Steady.of_get fun e e' h ↦ ?_
  rw [h.memory.stack.room, h.limits]
  split
  · rename_i hroom
    exact .ok ⟨rfl, ⟨h.memory.heap, h.memory.stack.grow (Region.room_above hroom).2.1⟩, rfl, h.closed,
    h.knows, h.knows'⟩
  · exact .raise h
  · exact .meaningless h

theorem stackAlloc_steady (t : Ty) (count : Int) : Steady m (stackAlloc m trace t count) := by
  refine (sizeOf_steady t).bind fun size ↦ Steady.of_get fun e e' h ↦ ?_
  have halign : (e'.layouts.alignOf m t).1.toOption = (e.layouts.alignOf m t).1.toOption := by
    unfold Layouts.alignOf
    rcases h.layout t with ⟨l, s, s', hl, hl', -⟩ | ⟨x, x', s, s', hl, hl', -⟩
    · rw [hl, hl']
    · rw [hl, hl']
      rfl
  rw [halign]
  exact takeStack_steady t count _ _ e e' h

theorem readBytes_steady (a : UInt64) (n : Int) : Steady m (readBytes trace a n) := by
  refine Steady.of_get fun e e' h ↦ ?_
  rw [h.memory.read?]
  split
  · exact .ok ⟨rfl, h⟩
  · exact .raise h

theorem needBytes_steady (a : UInt64) (n : Int) : Steady m (needBytes trace a n) := by
  refine Steady.of_get fun e e' h ↦ ?_
  rw [h.memory.maps]
  split
  · exact .ok ⟨rfl, h⟩
  · exact .raise h

theorem readPattern_steady (a : UInt64) (n : Nat) : Steady m (readPattern trace a n) := by
  refine (readBytes_steady a n).bind fun bs ↦ ?_
  split
  · exact .pure _
  · exact .meaningless

theorem writeBytes_steady (a : UInt64) (bs : Bytes) : Steady m (writeBytes trace a bs) :=
  (needBytes_steady a _).bind fun _ ↦ .modify fun _ _ h ↦ h.write a bs

theorem writePattern_steady (a : UInt64) (n : Nat) (v : UInt64) : Steady m (writePattern trace a n v) := by
  refine (needBytes_steady a _).bind fun _ ↦ ?_
  split
  · exact writeBytes_steady a _
  · exact .meaningless

theorem load_steady (a : UInt64) (t : Ty) : Steady m (load m trace a t) := by
  unfold load
  cases t with
  | int bits => exact (readPattern_steady a _).bind fun _ ↦ .pure _
  | float | double | pointer => exact readPattern_steady a _
  | struct id name =>
    exact (sizeOf_steady _).bind fun _ ↦ (readBytes_steady a _).bind fun bs ↦ (stackAlloc_steady _ _).bind fun c ↦
      (writeBytes_steady c bs).bind fun _ ↦ .pure c
  | untyped => exact .meaningless
  | void | func => exact .raise _ _

theorem store_steady (a : UInt64) (t : Ty) (v : UInt64) : Steady m (store m trace a t v) := by
  unfold store
  cases t with
  | int | float | double | pointer => exact writePattern_steady a _ _
  | struct id name => exact (sizeOf_steady _).bind fun _ ↦ (readBytes_steady v _).bind fun bs ↦ writeBytes_steady a bs
  | untyped => exact .meaningless
  | void | func => exact .raise _ _

/-- Only the address of a function depends on what an engine has been asked before. -/
theorem operand_steady (fr : Frame) {o : Option Value} (ho : ∀ f t, o ≠ some (.func f t)) :
    Steady m (operand m trace fr o) := by
  unfold operand
  cases o with
  | none => exact .raise _ _
  | some v =>
    cases v with
    | instr id t =>
      dsimp only
      split
      · exact .pure _
      · exact .raise _ _
    | param fn i t =>
      dsimp only
      split
      · exact .pure _
      · exact .meaningless
    | func f t => exact absurd rfl (ho f t)
    | const c o => exact .pure _

theorem fieldOffset_steady (t : Ty) (index : Int) (p : UInt64) : Steady m (do
    let e ← get
    let (r, layouts) := e.layouts.fieldOffset m t index
    set { e with layouts }
    match r with
    | .ok o => return p + o.toUInt64
    | .error err => raise trace .badValue err.message) := by
  refine Steady.of_get fun e e' h ↦ ?_
  unfold Layouts.fieldOffset
  rcases h.layout t with ⟨l, s, s', hl, hl', hd⟩ | ⟨x, x', s, s', hl, hl', hd⟩
  · rw [hl, hl']
    dsimp only
    split
    · exact .ok ⟨rfl, hd⟩
    · exact .error rfl hd
  · rw [hl, hl']
    exact .error rfl hd

theorem slots_steady (t : Ty) (count : Int) : Steady m (do
    if count < 0 then raise trace .badValue ("alloca count " ++ toString count)
    stackAlloc m trace t count) := by
  dsimp only
  split
  · exact (Steady.raise _ _).bind fun _ ↦ stackAlloc_steady t count
  · exact stackAlloc_steady t count

theorem compute_steady (i : Instr) (ops : List UInt64) : Steady m (compute m trace i ops) := by
  unfold compute
  split
  · exact slots_steady _ _
  · exact load_steady _ _
  · exact (store_steady _ _ _).bind fun _ ↦ .pure _
  · split
    · exact fieldOffset_steady _ _ _
    · exact .meaningless
  · exact .pure _
  · exact .pure _
  · exact .pure _
  · exact .raise _ _
  · split
    · split
      · split
        · exact .pure _
        · exact .raise _ _
      · exact .meaningless
    · split
      · split
        · split
          · exact .pure _
          · exact .raise _ _
        · exact .meaningless
      · exact .meaningless

theorem fill_steady (ops : List UInt64) : Steady m (fill trace ops) := by
  unfold fill
  split
  · have hrest : ∀ (p v : UInt64) (n : Int), Steady m (do
        needBytes trace p n
        writeBytes trace p (List.replicate n.toNat v.toUInt8)) :=
      fun p v n ↦ (needBytes_steady p n).bind fun _ ↦ writeBytes_steady p _
    dsimp only
    split
    · exact (Steady.raise _ _).bind fun _ ↦ hrest _ _ _
    · exact hrest _ _ _
  · exact .meaningless

theorem enter_steady (depth : Nat) (f : FuncId) (args : List UInt64) : Steady m (enter m trace depth f args) := by
  unfold enter
  cases m.function? f with
  | none => exact .meaningless
  | some fn =>
    refine Steady.of_get fun e e' h ↦ ?_
    dsimp only
    rw [h.limits, h.memory.stack.top]
    split
    · exact .raise h
    · cases fn.blocks[0]? with
      | none => exact .raise h
      | some b => exact .ok ⟨rfl, h⟩

theorem goto_steady (fr : Frame) (target : Option (Option BlockId)) : Steady m (goto m fr target) := by
  unfold goto
  split
  · split
    · exact .pure _
    · exact .meaningless
  · exact .meaningless

theorem returnedBytes_steady (t : Ty) (v : UInt64) : Steady m (returnedBytes m trace t v) := by
  unfold returnedBytes
  split
  · exact (sizeOf_steady t).bind fun _ ↦ readBytes_steady v _
  · exact .pure _

theorem receive_steady (t : Ty) (r : Returned) : Steady m (receive m trace t r) := by
  unfold receive
  split
  · exact .pure _
  · exact (stackAlloc_steady t 1).bind fun c ↦ (writeBytes_steady c _).bind fun _ ↦ .pure c

theorem resume_steady (callers : List Frame) (r : Returned) : Steady m (resume m callers r) := by
  unfold resume
  cases callers with
  | nil => exact .pure _
  | cons caller outer =>
    dsimp only
    split
    · exact .meaningless
    · exact (receive_steady _ r).bind fun _ ↦ .pure _

theorem leave_steady (fr : Frame) (callers : List Frame) (v : UInt64) : Steady m (leave m trace fr callers v) :=
  (returnedBytes_steady _ v).bind fun _ ↦
    (Steady.modify fun _ _ h ↦ h.release fr.mark).bind fun _ ↦ resume_steady callers _

/-- The instruction that the innermost frame is at does not read the address of a function. -/
def Addressless (m : Module) (frames : List Frame) : Prop := ∀ fr ∈ frames.head?, ∀ k ∈ fr.rest.head?, ∀ i,
  m.instr? ⟨fr.block.fn, k⟩ = some i → ∀ f t, some (.func f t) ∉ i.operands

theorem step_steady {frames : List Frame} (hf : Addressless m frames) : Steady m (step m frames) := by
  unfold step
  dsimp only
  split
  · exact .meaningless
  split
  · exact .raise _ _
  rename_i hrest
  split
  · exact .meaningless
  rename_i i hi
  refine Steady.bind (Steady.mapM fun o ho ↦ operand_steady _ fun f t heq ↦ ?_) fun ops ↦ ?_
  · exact hf _ rfl _ (by rw [hrest]; rfl) i hi f t (heq ▸ ho)
  split
  · exact (goto_steady _ _).bind fun _ ↦ .pure _
  · split
    · exact (goto_steady _ _).bind fun _ ↦ .pure _
    · exact .meaningless
  · exact leave_steady _ _ _
  · split
    · exact .meaningless
    · split
      · exact (fill_steady _).bind fun _ ↦ .pure _
      · exact (enter_steady _ _ _).bind fun _ ↦ .pure _
  · exact (compute_steady _ _).bind fun _ ↦ .pure _

end

end CilSsa.Machine

