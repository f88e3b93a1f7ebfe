import CilSsa.Proofs.FrameRuns

namespace CilSsa.Machine

open CilSsa.Ssa CilSsa.Number CilSsa.Text Relation

/-! ### Engines between requests -/

/-- What no request and no part of one changes. -/
structure Engine.Kept (m : Module) (limits : Limits) (e : Engine) : Prop where
  bounds : e.limits = limits
  usable : e.closed = false
  heap : e.memory.heap.base = heapBase
  size : e.memory.heap.top < 2 ^ 63
  bound : (e.memory.heap.top : Int) ≤ max 0 limits.heapSize
  stack : e.memory.stack.base = stackBase
  knows : e.Knows m

/-- An engine that no call is running on. -/
structure Engine.Rested (m : Module) (limits : Limits) (e : Engine) : Prop extends e.Kept m limits where
  idle : e.memory.stack.top = 0

/-- The engines that requests lead to from a new one. -/
inductive Engine.Reachable (m : Module) (limits : Limits) : Engine → Prop
  | fresh : Reachable m limits { limits }
  | functionAddress {e : Engine} (name : String) : Reachable m limits e →
      Reachable m limits (e.functionAddress m name).2
  | call {e : Engine} (fuel : Nat) (name : String) (args : List UInt64) : Reachable m limits e →
      (Engine.call m fuel name args e).1 ≠ .error .outOfFuel → Reachable m limits (Engine.call m fuel name args e).2
  | callAddress {e : Engine} (fuel : Nat) (address : UInt64) (args : List UInt64) : Reachable m limits e →
      (Engine.callAddress m fuel address args e).1 ≠ .error .outOfFuel →
      Reachable m limits (Engine.callAddress m fuel address args e).2
  | alloc {e : Engine} {size : Int} : Reachable m limits e → 0 ≤ size → Reachable m limits (Engine.alloc size e).2
  | read {e : Engine} (address : UInt64) (n : Int) : Reachable m limits e →
      Reachable m limits (Engine.read address n e).2
  | write {e : Engine} (address : UInt64) (bs : Bytes) : Reachable m limits e →
      Reachable m limits (Engine.write address bs e).2
  | readValue {e : Engine} (address : UInt64) {t : Ty} : Reachable m limits e → t.isStruct = false →
      Reachable m limits (Engine.readValue m address t e).2

def Layouts.Narrow (m : Module) (t : Ty) : Prop := ∀ l, Layouts.LaidOut m .host t l → l.size < 2 ^ 63

section

variable {α : Type} {m : Module} {limits : Limits} {trace : List String} {e e' c d : Engine} {t : Ty}

theorem Engine.Kept.of_same (h : e.Kept m limits) (hlimits : d.limits = e.limits) (hclosed : d.closed = e.closed)
    (hmemory : e.memory.SameRegions d.memory) (hknows : d.Knows m) : d.Kept m limits :=
  ⟨hlimits.trans h.bounds, hclosed.trans h.usable, hmemory.heap.trans h.heap, hmemory.top ▸ h.size,
    hmemory.top ▸ h.bound, hmemory.stack.trans h.stack, hknows⟩

theorem Engine.Kept.allows (m : Module) (limits : Limits) : Allows m fun e d ↦ e.Kept m limits → d.Kept m limits where
  refl _ h := h
  trans h h' := h' ∘ h
  layouts _ _ h := h.of_same rfl rfl ⟨rfl, rfl, rfl⟩ (Layouts.of_exact h.knows).1
  grow _ _ _ _ h := h.of_same rfl rfl ⟨rfl, rfl, rfl⟩ h.knows
  address _ _ h := h.of_same rfl rfl ⟨rfl, rfl, rfl⟩ h.knows

theorem Engine.Kept.writes : AllowsWrites fun e d ↦ e.Kept m limits → d.Kept m limits :=
  fun _ _ _ h ↦ h.of_same rfl rfl (.write ..) h.knows

theorem Engine.Kept.release : AllowsRelease fun e d ↦ e.Kept m limits → d.Kept m limits :=
  fun _ _ h ↦ h.of_same rfl rfl ⟨rfl, rfl, Region.base_release ..⟩ h.knows

theorem request_open (h : e.closed = false) (c : Run α) :
    Engine.request c e = ((c.run.run e).1.mapError Stop.error, (c.run.run e).2) := by
  unfold Engine.request Engine.ifOpen
  rw [if_neg (by simp [h])]
  dsimp only
  generalize c.run.run e = r
  rcases r with ⟨s | a, d⟩ <;> rfl

theorem addressOf_rested (h : e.Rested m limits) (f : FuncId) : ((addressOf f).run.run e).2.Rested m limits := by
  unfold addressOf
  rw [run_bind_ok run_get]
  split
  · exact h
  · exact ⟨h.of_same rfl rfl ⟨rfl, rfl, rfl⟩ h.knows, h.idle⟩

theorem functionAddress_rested (h : e.Rested m limits) (name : String) :
    (Engine.functionAddress m name e).2.Rested m limits := by
  unfold Engine.functionAddress Engine.addressFound Engine.ifOpen
  rw [if_neg (by simp [h.usable])]
  dsimp only
  split
  · exact h
  · split
    · exact h
    · rw [request_open h.usable]
      exact addressOf_rested h _

theorem reserveHeap_run (e : Engine) (size : Int) (align : Nat) :
    (∃ x, (Engine.reserveHeap size align).run.run e = (.error x, e)) ∨
      ∃ a stop, e.memory.heap.room size align e.limits.heapSize = .ok (a, stop) ∧
        (Engine.reserveHeap size align).run.run e =
          (.ok a, { e with memory := { e.memory with heap := e.memory.heap.grow stop } }) := by
  unfold Engine.reserveHeap
  rw [run_bind_ok run_get]
  split
  · rename_i a stop hroom
    exact .inr ⟨a, stop, hroom, rfl⟩
  · exact .inl ⟨_, rfl⟩
  · exact .inl ⟨_, rfl⟩

theorem grow_rested (h : e.Rested m limits) {size : Int} {align stop : Nat} {a : UInt64}
    (hroom : e.memory.heap.room size align e.limits.heapSize = .ok (a, stop)) :
    Engine.Rested m limits { e with memory := { e.memory with heap := e.memory.heap.grow stop } } := by
  obtain ⟨-, hgrows, hlimit⟩ := Region.room_above hroom
  have htop := Region.top_grow e.memory.heap stop
  rw [h.bounds] at hlimit
  refine ⟨⟨h.bounds, h.usable, h.heap, ?_, ?_, h.stack, h.knows⟩, h.idle⟩
  · exact htop.trans_lt (Region.stop_lt hroom)
  · show ((e.memory.heap.grow stop).top : Int) ≤ _
    rw [htop]
    exact hlimit.trans (le_max_right _ _)

theorem write_rested (h : e.Rested m limits) (a : UInt64) (bs : Bytes) :
    Engine.Rested m limits { e with memory := e.memory.write a bs } :=
  ⟨h.of_same rfl rfl (.write ..) h.knows, (Memory.stack_top_write ..).trans h.idle⟩

theorem readBytes_same (e : Engine) (a : UInt64) (n : Int) : ((readBytes trace a n).run.run e).2 = e := by
  unfold readBytes
  rw [run_bind_ok run_get]
  split <;> rfl

theorem needBytes_same (e : Engine) (a : UInt64) (n : Int) : ((needBytes trace a n).run.run e).2 = e := by
  unfold needBytes
  rw [run_bind_ok run_get]
  split <;> rfl

theorem run_bind_snd {β : Type} {P : Engine → Prop} {c : Run α} {f : α → Run β} (hc : P (c.run.run e).2)
    (hf : ∀ a d, c.run.run e = (.ok a, d) → P ((f a).run.run d).2) : P ((c >>= f).run.run e).2 := by
  rcases hrun : c.run.run e with ⟨s | a, d⟩
  · rw [run_bind_error hrun]
    rwa [hrun] at hc
  · rw [run_bind_ok hrun]
    exact hf a d hrun

theorem writeBytes_rested (h : e.Rested m limits) (a : UInt64) (bs : Bytes) :
    ((writeBytes trace a bs).run.run e).2.Rested m limits := by
  have hneed : ((needBytes trace a bs.length).run.run e).2 = e := needBytes_same e a bs.length
  unfold writeBytes
  refine run_bind_snd (by rw [hneed]; exact h) fun _ d hrun ↦ ?_
  rw [hrun] at hneed
  obtain rfl : d = e := hneed
  exact write_rested h a bs

theorem readPattern_same (e : Engine) (a : UInt64) (n : Nat) : ((readPattern trace a n).run.run e).2 = e := by
  have hread : ((readBytes trace a n).run.run e).2 = e := readBytes_same e a n
  unfold readPattern
  refine run_bind_snd (P := (· = e)) hread fun bs d hrun ↦ ?_
  rw [hrun] at hread
  obtain rfl : d = e := hread
  split <;> rfl

theorem load_same (e : Engine) (a : UInt64) (ht : t.isStruct = false) : ((load m trace a t).run.run e).2 = e := by
  unfold load
  cases t with
  | int bits =>
    have hread : ((readPattern trace a (byteWidth bits)).run.run e).2 = e := readPattern_same e a _
    refine run_bind_snd (P := (· = e)) hread fun v d hrun ↦ ?_
    rw [hrun] at hread
    exact hread
  | float | double | pointer => exact readPattern_same e a _
  | struct => cases ht
  | untyped | void | func => rfl

/-! ### What a call leaves -/

/-- The heap has grown by a copy of a struct, which `v` is the address of. -/
def Engine.Copied (m : Module) (t : Ty) (v : UInt64) (e d : Engine) : Prop := t.isStruct = true ∧ ∃ l,
  Layouts.LaidOut m .host t l ∧ v = heapBase + (Region.alignUp e.memory.heap.top l.align).toUInt64 ∧
    d.memory.heap.top = Region.alignUp e.memory.heap.top l.align + l.size

theorem Region.alignUp_lt (n align : Nat) : Region.alignUp n align < n + align + 1 := by
  unfold Region.alignUp
  split
  · omega
  · have := Nat.div_mul_le_self (n + align - 1) align
    omega

theorem Region.room_modest {r : Region} {n align stop : Nat} {limit : Int} {a : UInt64} (hn : n < 2 ^ 63)
    (halign : align ≤ max n 1) (h : r.room n align limit = .ok (a, stop)) : ∃ start,
    start = Region.alignUp r.top align ∧
      r.top ≤ start ∧ start < 2 ^ 63 ∧ a = r.base + start.toUInt64 ∧ stop = start + n := by
  have hstop := Region.stop_lt h
  have hlt := Region.alignUp_lt r.top align
  have hle := Region.le_alignUp r.top align
  unfold Region.room at h
  dsimp only at h
  split at h
  · cases h
  split at h
  · cases h
  rename_i hnot
  cases h
  have hsum : Region.alignUp r.top align < 2 ^ 63 ∧ (wrapInt (Region.alignUp r.top align + n)).toNat = Region.alignUp
      r.top align + n := by
    generalize Region.alignUp r.top align = start at *
    rw [wrapInt, Int.bmod_def] at hnot hstop ⊢
    split at hnot <;> rename_i hhalf
    · rw [if_pos hhalf] at hstop ⊢
      omega
    · omega
  exact ⟨_, rfl, hle, hsum.1, rfl, hsum.2⟩

theorem writeBytes_mapped {a : UInt64} {bs : Bytes} (h : e.memory.maps a bs.length = true) :
    (writeBytes trace a bs).run.run e = (.ok (), { e with memory := e.memory.write a bs }) := by
  have hneed : (needBytes trace a bs.length).run.run e = (.ok (), e) := by
    unfold needBytes
    rw [run_bind_ok run_get, if_pos h]
    rfl
  unfold writeBytes
  rw [run_bind_ok hneed]
  rfl

def Engine.copyOut (bs : Bytes) (align : Nat) : Run UInt64 := do
  let address ← Engine.reserveHeap bs.length align
  writeBytes [] address bs
  return address

/-- The copy stands behind what was on the heap, unless nothing changes there. -/
theorem copyOut_heap (h : e.Rested m limits) {bs : Bytes} {align : Nat} (hsize : bs.length < 2 ^ 63)
    (halign : align ≤ max bs.length 1) {r : Except Stop UInt64} (hrun : (Engine.copyOut bs align).run.run e = (r, d)) :
    d.Rested m limits ∧ (∀ x, r = .error x → d.memory.heap.top = e.memory.heap.top) ∧ ∀ v, r = .ok v →
      v = heapBase + (Region.alignUp e.memory.heap.top align).toUInt64 ∧
        d.memory.heap.top = Region.alignUp e.memory.heap.top align + bs.length := by
  unfold Engine.copyOut at hrun
  rcases reserveHeap_run e bs.length align with ⟨x, hreserve⟩ | ⟨a, stop, hroom, hreserve⟩
  · rw [run_bind_error hreserve] at hrun
    cases hrun
    exact ⟨h, fun _ _ ↦ rfl, nofun⟩
  rw [run_bind_ok hreserve] at hrun
  have hgrown := grow_rested h hroom
  obtain ⟨_, rfl, -, -, rfl, rfl⟩ := Region.room_modest hsize halign hroom
  have htop := Region.top_grow e.memory.heap (Region.alignUp e.memory.heap.top align + bs.length)
  have hsmall := hgrown.size
  generalize hheap : e.memory.heap.grow (Region.alignUp e.memory.heap.top align + bs.length) = heap at *
  have hbase : heap.base = heapBase := by
    rw [← hheap]
    exact h.heap
  have hplace : heap.place? (e.memory.heap.base + (Region.alignUp e.memory.heap.top align).toUInt64) bs.length =
      some (Region.alignUp e.memory.heap.top align) := by
    rw [h.heap, ← hbase]
    refine Region.place?_eq ?_ (by rw [htop])
    have : heapBase.toNat = 65536 := rfl
    rw [hbase]
    change heap.top < 2 ^ 63 at hsmall
    omega
  have hmaps : ({ e.memory with heap } : Memory).maps
      (e.memory.heap.base + (Region.alignUp e.memory.heap.top align).toUInt64) bs.length = true := by
    unfold Memory.maps
    rw [hplace, Option.isSome_some, Bool.or_true]
  have hwrite := write_rested hgrown (e.memory.heap.base + (Region.alignUp e.memory.heap.top align).toUInt64) bs
  have hkept := Memory.SameRegions.write ({ e.memory with heap } : Memory)
    (e.memory.heap.base + (Region.alignUp e.memory.heap.top align).toUInt64) bs
  rw [run_bind_ok (writeBytes_mapped hmaps)] at hrun
  cases hrun
  refine ⟨hwrite, nofun, fun v hv ↦ ?_⟩
  cases hv
  exact ⟨by rw [h.heap], hkept.top.trans htop⟩

theorem keepAggregate_heap (h : e.Rested m limits) (hn : Layouts.Narrow m t) {bs : Bytes} (hstruct : t.isStruct = true)
    {l : Layout} (hl : Layouts.LaidOut m .host t l) (hlength : bs.length = l.size) {r : Except EngineError UInt64}
    (hrun : Engine.keepAggregate m t bs e = (r, d)) : d.Rested m limits ∧
      (∀ x, r = .error x → d.memory.heap.top = e.memory.heap.top) ∧ ∀ v, r = .ok v → Engine.Copied m t v e d := by
  unfold Engine.keepAggregate Layouts.alignOf at hrun
  obtain ⟨hknows, hexact⟩ := Layouts.of_exact (t := t) h.knows
  generalize e.layouts.of m t = found at hrun hknows hexact
  rcases found with ⟨x | l', s⟩
  · cases hrun
    exact ⟨⟨h.of_same rfl rfl ⟨rfl, rfl, rfl⟩ hknows, h.idle⟩, fun _ _ ↦ rfl, nofun⟩
  obtain rfl : l = l' := hl.unique hexact
  have hsize := hn l hl
  have halign : l.align ≤ max l.size 1 := hl.modest
  have hlearnt : Engine.Rested m limits { e with layouts := s } := ⟨h.of_same rfl rfl ⟨rfl, rfl, rfl⟩ hknows, h.idle⟩
  have hopen : Engine.closed { e with layouts := s } = false := h.usable
  change Engine.request (Engine.copyOut bs l.align) { e with layouts := s } = _ at hrun
  rw [request_open hopen] at hrun
  rcases hcopy : (Engine.copyOut bs l.align).run.run { e with layouts := s } with ⟨x | v, c⟩
  · rw [hcopy] at hrun
    cases hrun
    obtain ⟨hrested, hfail, -⟩ := copyOut_heap hlearnt (hlength ▸ hsize) (hlength ▸ halign) hcopy
    exact ⟨hrested, fun _ _ ↦ hfail x rfl, nofun⟩
  · rw [hcopy] at hrun
    cases hrun
    obtain ⟨hrested, -, hplace⟩ := copyOut_heap hlearnt (hlength ▸ hsize) (hlength ▸ halign) hcopy
    refine ⟨hrested, nofun, fun v hv ↦ ?_⟩
    cases hv
    obtain ⟨ha, htop⟩ := hplace v rfl
    exact ⟨hstruct, l, hl, ha, hlength ▸ htop⟩

/-- A module in which this holds of all that functions return, and of all that they keep on the stack. -/
structure Module.Narrow (m : Module) : Prop where
  returns : ∀ f F, m.function? f = some F → Layouts.Narrow m F.ret
  slots : ∀ id i, m.instr? id = some i → Layouts.Narrow m i.allocated

theorem clearStack_rested (h : e.Kept m limits) : Engine.Rested m limits { e with memory := e.memory.clearStack } := by
  refine ⟨h.of_same rfl rfl ⟨rfl, rfl, Region.base_release ..⟩ h.knows, ?_⟩
  show (e.memory.stack.release 0).top = 0
  rw [Region.top_release, Nat.zero_min]

/-- After a call the stack is empty, and the heap ends where it did but for the copy of an aggregate. -/
theorem callAddress_heap (hm : Module.Narrow m) (h : e.Rested m limits) (fuel : Nat) (address : UInt64)
    (args : List UInt64) {r : Except EngineError UInt64} (hrun : Engine.callAddress m fuel address args e = (r, d)) :
    d.Rested m limits ∧
      (∀ x, r = .error x → d.memory.heap.top = e.memory.heap.top) ∧ ∀ v, r = .ok v →
        d.memory.heap.top = e.memory.heap.top ∨
          ∃ f F, e.functionAt? address = some f ∧ m.function? f = some F ∧ Engine.Copied m F.ret v e d := by
  rcases Engine.callAddress_eq m fuel address args e with ⟨x, -, hcall⟩ | ⟨f, t, hcallee, hcall⟩ <;> rw [hrun] at hcall
  · cases hcall
    exact ⟨h, fun _ _ ↦ rfl, nofun⟩
  obtain ⟨F, hat, hF, rfl⟩ : ∃ F, e.functionAt? address = some f ∧ m.function? f = some F ∧ t = F.ret := by
    unfold Engine.callee? at hcallee
    split at hcallee
    · cases hcallee
    split at hcallee
    · cases hcallee
    split at hcallee
    · cases hcallee
    split at hcallee
    · cases hcallee
    · cases hcallee
      exact ⟨_, by assumption, by assumption, rfl⟩
  have hkept := execute_moves (Engine.Kept.allows m limits) Engine.Kept.writes Engine.Kept.release fuel
    f args e h.toKept
  have hregions := execute_moves (Memory.SameRegions.allows m) Memory.SameRegions.writes
    Memory.SameRegions.release fuel f args e
  rcases hexec : Engine.execute m fuel f args e with ⟨out, c⟩
  rw [hexec] at hcall hkept hregions
  dsimp only at hcall hkept hregions
  cases out with
  | returned res =>
    obtain ⟨htop, hfits⟩ := execute_returned hexec
    replace hfits := hfits h.knows
    have hrested : c.Rested m limits := ⟨hkept, htop.trans h.idle⟩
    rw [hF] at hfits
    unfold Engine.conclude at hcall
    dsimp only at hcall
    split at hcall
    · cases hcall
      exact ⟨hrested, nofun, fun _ _ ↦ .inl hregions.top⟩
    · rename_i hne
      obtain ⟨hstruct, l, hl, hlength⟩ := hfits (by simpa using hne)
      obtain ⟨hd, hfail, hcopy⟩ := keepAggregate_heap hrested (hm.returns f F hF) hstruct hl hlength hcall.symm
      refine ⟨hd, fun x hx ↦ (hfail x hx).trans hregions.top, fun v hv ↦ .inr ⟨f, F, hat, hF, ?_⟩⟩
      obtain ⟨hs, l', hl', hv', htop'⟩ := hcopy v hv
      rw [hregions.top] at hv' htop'
      exact ⟨hs, l', hl', hv', htop'⟩
  | stopped s =>
    cases hcall
    exact ⟨clearStack_rested hkept, fun _ _ ↦ hregions.top, nofun⟩
  | outOfFuel =>
    cases hcall
    exact ⟨clearStack_rested hkept, fun _ _ ↦ hregions.top, nofun⟩

theorem Engine.Reachable.rested (hm : Module.Narrow m) (h : Engine.Reachable m limits e) : e.Rested m limits := by
  induction h with
  | fresh => exact ⟨⟨rfl, rfl, rfl, Nat.two_pow_pos 63, le_max_left _ _, rfl, ⟨rfl, nofun⟩⟩, rfl⟩
  | functionAddress name _ ih => exact functionAddress_rested ih name
  | @call e fuel name args _ _ ih =>
    have haddress := functionAddress_rested ih name
    unfold Engine.call
    rcases hfound : Engine.functionAddress m name e with ⟨x | a, c⟩ <;> rw [hfound] at haddress
    · exact haddress
    · exact (callAddress_heap hm haddress fuel a args Prod.mk.eta.symm).1
  | callAddress fuel address args _ _ ih => exact (callAddress_heap hm ih fuel address args Prod.mk.eta.symm).1
  | @alloc e size _ _ ih =>
    unfold Engine.alloc
    rw [request_open ih.usable]
    rcases reserveHeap_run e size 8 with ⟨x, hrun⟩ | ⟨a, stop, hroom, hrun⟩ <;> rw [hrun]
    · exact ih
    · exact grow_rested ih hroom
  | read address n _ ih =>
    unfold Engine.read
    rw [request_open ih.usable, readBytes_same]
    exact ih
  | write address bs _ ih =>
    unfold Engine.write
    rw [request_open ih.usable]
    exact writeBytes_rested ih address bs
  | readValue address _ ht ih =>
    unfold Engine.readValue
    rw [request_open ih.usable, load_same _ _ ht]
    exact ih

theorem Engine.Reachable.separate (hm : Module.Narrow m) (h : Engine.Reachable m limits e)
    (hroom : limits.heapSize ≤ 2 ^ 40 - 2 ^ 16) : e.memory.Separate := by
  have hrested := h.rested hm
  have hbound := hrested.bound
  have hheap : heapBase.toNat = 2 ^ 16 := rfl
  have hstack : stackBase.toNat = 2 ^ 40 := rfl
  unfold Memory.Separate
  rw [hrested.heap, hrested.stack, hheap, hstack]
  omega

/-! ### What is on the stack at first -/

/-- From `v` to its end the stack is zero, and none of that was in use in `e`. -/
def Engine.Fresh (e d : Engine) (v : UInt64) : Prop := e.memory.stack.top ≤ (v - stackBase).toNat ∧
  ∀ n : Nat, (v - stackBase).toNat + n ≤ d.memory.stack.top → d.memory.read? v n = some (List.replicate n 0)

theorem slice_zeros {l : Bytes} {k o n : Nat} (hl : l.length ≤ o) (hn : o + n ≤ l.length + k) :
    slice (l ++ List.replicate k 0) o n = List.replicate n 0 := by
  obtain ⟨p, rfl⟩ := Nat.exists_eq_add_of_le hl
  have hskip : slice (l ++ List.replicate k 0) (l.length + p) n = slice (List.replicate k 0) p n := by
    unfold slice
    rw [List.drop_append, List.drop_of_length_le (Nat.le_add_right _ _), List.nil_append, Nat.add_sub_cancel_left]
  rw [hskip]
  exact slice_replicate 0 (by omega)

theorem sizeOf_inv (h : e.Knows m) {size : Nat} (hrun : (sizeOf m trace t).run.run e = (.ok size, c)) :
    ∃ l, Layouts.LaidOut m .host t l ∧ size = l.size ∧ c.memory = e.memory ∧ c.limits = e.limits ∧ c.Knows m := by
  have hmoves : Moves (fun e d ↦ e.Knows m → d.Knows m) (sizeOf m trace t) := sizeOf_moves (Engine.Knows.allows m) t
  have hknows := hmoves e h
  rw [hrun] at hknows
  unfold sizeOf Layouts.sizeOf at hrun
  rw [run_bind_ok run_get] at hrun
  have hexact := (Layouts.of_exact (t := t) h).2
  generalize e.layouts.of m t = found at hrun hexact
  rcases found with ⟨x | l, s⟩ <;> cases hrun
  exact ⟨l, hexact, rfl, rfl, rfl, hknows⟩

theorem Engine.Knows.alignOf {l : Layout} (h : e.Knows m) (hl : Layouts.LaidOut m .host t l) :
    (e.layouts.alignOf m t).1.toOption.getD 1 = l.align := by
  have hexact := (Layouts.of_exact (t := t) h).2
  unfold Layouts.alignOf
  generalize e.layouts.of m t = found at hexact
  rcases found with ⟨x | l', s⟩
  · exact absurd hl (hexact l)
  · rw [hl.unique hexact]
    rfl

theorem stackAlloc_inv (h : e.Knows m) {count : Int} {v : UInt64}
    (hrun : (stackAlloc m trace t count).run.run e = (.ok v, d)) : ∃ l stop, Layouts.LaidOut m .host t l ∧
      e.memory.stack.room (wrapInt (l.size * count)) l.align e.limits.stackSize = .ok (v, stop) ∧
      d.memory = { e.memory with stack := e.memory.stack.grow stop } := by
  obtain ⟨size, c, hsize, hrest⟩ := run_bind_inv hrun
  obtain ⟨l, hl, rfl, hmemory, hlimits, hknows⟩ := sizeOf_inv h hsize
  rw [run_bind_ok run_get, hknows.alignOf hl] at hrest
  unfold takeStack at hrest
  rw [run_bind_ok run_get, hmemory, hlimits] at hrest
  split at hrest
  rotate_left
  · cases hrest
  · cases hrest
  rename_i a stop hroom
  cases hrest
  exact ⟨l, stop, hl, hroom, rfl⟩

theorem stackAlloc_fresh (h : e.Kept m limits) (hn : Layouts.Narrow m t) {count : Int} {v : UInt64}
    (hrun : (stackAlloc m trace t count).run.run e = (.ok v, d)) : e.Fresh d v := by
  obtain ⟨l, stop, hl, hroom, hmemory⟩ := stackAlloc_inv h.knows hrun
  have hsize := hn l hl
  have halign : l.align ≤ max l.size 1 := hl.modest
  have hstop := Region.stop_lt hroom
  obtain ⟨rfl, hgrows, -⟩ := Region.room_above hroom
  have hle := Region.le_alignUp e.memory.stack.top l.align
  have hlt := Region.alignUp_lt e.memory.stack.top l.align
  generalize Region.alignUp e.memory.stack.top l.align = start at *
  have hstart : (start.toUInt64).toNat = start := by
    rw [Nat.toUInt64, UInt64.toNat_ofNat']
    omega
  have hoffset : (e.memory.stack.base + start.toUInt64 - stackBase).toNat = start := by
    rw [h.stack, UInt64.add_comm, UInt64.add_sub_cancel, hstart]
  unfold Engine.Fresh
  rw [hoffset, hmemory]
  refine ⟨hle, fun n hbelow ↦ ?_⟩
  have htop := Region.top_grow e.memory.stack stop
  dsimp only at hbelow ⊢
  rw [htop] at hbelow
  have hbase : (e.memory.stack.grow stop).base = e.memory.stack.base := rfl
  rw [← hbase]
  have hgrown : start + n ≤ ({ e.memory with stack := e.memory.stack.grow stop } : Memory).stack.top := by
    rw [htop]
    exact hbelow
  refine (Memory.read?_stack ?_ hgrown).trans ?_
  · have : stackBase.toNat = 1099511627776 := rfl
    rw [hbase, h.stack, htop]
    omega
  · rw [Region.bytes_grow _ hgrows]
    refine congrArg some (slice_zeros ?_ ?_) <;> rw [Region.length_bytes] <;> omega

theorem slots_inv {count : Int} {v : UInt64} (h : (do
    if count < 0 then raise trace .badValue ("alloca count " ++ toString count)
    stackAlloc m trace t count).run.run e = (.ok v, d)) : (stackAlloc m trace t count).run.run e = (.ok v, d) := by
  dsimp only at h
  split at h
  · cases h
  · exact h

/-- The states that a call goes through. -/
inductive Engine.During (m : Module) (f : FuncId) (args : List UInt64) (e : Engine) : List Frame → Engine → Prop
  | entered {fr : Frame} {c : Engine} : (enter m [] 0 f args).run.run e = (.ok fr, c) → During m f args e [fr] c
  | step {frames frames' : List Frame} {c d : Engine} : During m f args e frames c →
      (step m frames).run.run c = (.ok (.running frames'), d) → During m f args e frames' d

variable {f : FuncId} {args : List UInt64} {frames callers : List Frame} {fr : Frame} {i : Instr}
  {k : Nat} {pr : Progress}

theorem Engine.During.kept (h : Engine.During m f args e frames c) (he : e.Kept m limits) : c.Kept m limits := by
  induction h with
  | entered henter =>
    have hmoves : Moves (fun e d ↦ e.Kept m limits → d.Kept m limits) (enter m [] 0 f args) :=
      enter_moves (Engine.Kept.allows m limits) 0 f args
    have := hmoves e he
    rwa [henter] at this
  | @step frames frames' c d _ hstep ih =>
    have := step_moves (Engine.Kept.allows m limits) Engine.Kept.writes Engine.Kept.release frames c ih
    rwa [hstep] at this

theorem alloca_fresh (h : c.Kept m limits) (hn : Layouts.Narrow m i.allocated) (hk : fr.rest.head? = some k)
    (hi : m.instr? ⟨fr.block.fn, k⟩ = some i) (hop : i.op = .alloca)
    (hstep : (step m (fr :: callers)).run.run c = (.ok pr, d)) :
    ∃ v, pr = .running (fr.advance i v :: callers) ∧ c.Fresh d v := by
  obtain ⟨rest, hrest⟩ := List.head?_eq_some_iff.mp hk
  unfold step at hstep
  dsimp only at hstep
  rw [hrest] at hstep
  dsimp only at hstep
  rw [hi] at hstep
  obtain ⟨ops, c', hops, hact⟩ := run_bind_inv hstep
  rw [hop] at hact
  obtain ⟨v, d', hv, hend⟩ := run_bind_inv hact
  cases hend
  refine ⟨v, rfl, ?_⟩
  have hworks : c.Works m c' := .of_run (fun R ha _ ↦ ha.mapM (operand_moves ha fr) i.operands) hops
  have hkept : c'.Kept m limits := hworks _ (Engine.Kept.allows m limits) Engine.Kept.writes h
  have hfresh : c'.Fresh d v := by
    unfold compute at hv
    rw [hop] at hv
    dsimp only at hv
    exact stackAlloc_fresh hkept hn (slots_inv hv)
  exact ⟨hworks.rises.trans hfresh.1, hfresh.2⟩

/-! ### What a call depends on -/

theorem copyOut_steady (bs : Bytes) (align : Nat) : Steady m (Engine.copyOut bs align) := by
  have hreserve : Steady m (Engine.reserveHeap bs.length align) := by
    refine Steady.of_get fun e e' h ↦ ?_
    rw [h.memory.heap.room, h.limits]
    split
    · rename_i hroom
      exact .ok ⟨rfl, ⟨h.memory.heap.grow (Region.room_above hroom).2.1, h.memory.stack⟩, h.limits, h.closed,
      h.knows, h.knows'⟩
    · exact .raise h
    · exact .meaningless h
  exact hreserve.bind fun a ↦ (writeBytes_steady a bs).bind fun _ ↦ .pure a

/-- Two answers to a request that are the same but for texts, and leave the same bytes in use. -/
def SameAnswer (r r' : Except EngineError UInt64 × Engine) : Prop :=
  r'.1.mapError EngineError.bare = r.1.mapError EngineError.bare ∧ r.2.memory.Same r'.2.memory

theorem keepAggregate_same (h : e.Alike m e') (hopen : e.closed = false) (t : Ty) (bs : Bytes) :
    SameAnswer (Engine.keepAggregate m t bs e) (Engine.keepAggregate m t bs e') := by
  unfold Engine.keepAggregate Layouts.alignOf
  rcases h.layout t with ⟨l, s, s', hl, hl', hd⟩ | ⟨x, x', s, s', hl, hl', hd⟩ <;> rw [hl, hl']
  · change SameAnswer (Engine.request (Engine.copyOut bs l.align) { e with layouts := s })
      (Engine.request (Engine.copyOut bs l.align) { e' with layouts := s' })
    rw [request_open (e := { e with layouts := s }) hopen,
      request_open (e := { e' with layouts := s' }) (h.closed.trans hopen)]
    have hboth := copyOut_steady bs l.align _ _ hd
    generalize (Engine.copyOut bs l.align).run.run { e with layouts := s } = r at hboth ⊢
    generalize (Engine.copyOut bs l.align).run.run { e' with layouts := s' } = r' at hboth ⊢
    cases hboth with
    | ok hq =>
      obtain ⟨rfl, hq⟩ := hq
      exact ⟨rfl, hq.memory⟩
    | error hbare hd => exact ⟨congrArg Except.error (by rw [Stop.error_bare, Stop.error_bare, hbare]), hd.memory⟩
  · exact ⟨rfl, h.memory⟩

theorem conclude_same {r r' : Outcome × Engine} (h : SameRun m r r') (hopen : r.2.closed = false) (t : Ty) :
    SameAnswer (Engine.conclude m t r.1 r.2) (Engine.conclude m t r'.1 r'.2) := by
  obtain ⟨out, e⟩ := r
  obtain ⟨out', e'⟩ := r'
  obtain ⟨hbare, he⟩ := h
  dsimp only at hbare he hopen ⊢
  cases out with
  | returned r =>
    cases out' <;> cases hbare
    unfold Engine.conclude
    dsimp only
    split
    · exact ⟨rfl, he.memory⟩
    · exact keepAggregate_same he hopen t r.aggregate
  | stopped s =>
    cases out' with
    | stopped s' =>
      refine ⟨congrArg Except.error ?_, he.memory.release 0⟩
      rw [Stop.error_bare, Stop.error_bare, Outcome.stopped.inj hbare]
    | returned | outOfFuel => cases hbare
  | outOfFuel =>
    cases out' <;> cases hbare
    exact ⟨rfl, he.memory.release 0⟩

theorem Engine.Rested.alike (h : e.Rested m limits) (h' : e'.Rested m limits)
    (hheap : e'.memory.heap.bytes = e.memory.heap.bytes) : e.Alike m e' := by
  exact ⟨⟨⟨h'.heap.trans h.heap.symm, hheap⟩, .of_empty (h'.stack.trans h.stack.symm) h.idle h'.idle⟩,
    h'.bounds.trans h.bounds.symm, h'.usable.trans h.usable.symm, h.knows, h'.knows⟩

/-- Where no function's address is a value, a call gives the same on engines at rest with the same heap. -/
theorem calls_same {f : FuncId} {address address' : UInt64} {args : List UInt64} {r : Except EngineError UInt64}
    (h : e.Rested m limits) (h' : e'.Rested m limits) (hheap : e'.memory.heap.bytes = e.memory.heap.bytes)
    (hat : e.functionAt? address = some f) (hat' : e'.functionAt? address' = some f)
    (hfree : ∀ g, ReflTransGen m.Leads f g → m.Addressless g) (hcall : Engine.Calls m address args e r d) :
    ∃ d', Engine.Calls m address' args e' r d' ∧ d'.memory.heap.bytes = d.memory.heap.bytes := by
  have halike := h.alike h' hheap
  have hcallee : Engine.callee? m address' args e' = Engine.callee? m address args e := by
    unfold Engine.callee?
    rw [hat, hat', h.usable, h'.usable]
  obtain ⟨fuel, r', hrun, hr, rfl⟩ := hcall
  rcases Engine.callAddress_eq m fuel address args e with ⟨x, hx, hcall⟩ | ⟨g, t, hg, hcall⟩ <;> rw [hrun] at hcall
  · cases hcall
    exact ⟨e', ⟨fuel, _, Engine.callAddress_refused (hcallee.trans hx) fuel, hr, rfl⟩, halike.memory.heap.bytes⟩
  obtain rfl : f = g := by
    unfold Engine.callee? at hg
    rw [h.usable, hat] at hg
    dsimp only at hg
    rw [if_neg Bool.false_ne_true] at hg
    split at hg
    · cases hg
    split at hg
    · cases hg
    · cases hg
      rfl
  have hcall' := Engine.callAddress_called (hcallee.trans hg) fuel
  have hsame := execute_same (S := ReflTransGen m.Leads f) (fun _ _ hf hl ↦ hf.tail hl) hfree fuel .refl args halike
  have hopen := execute_moves (Engine.Kept.allows m limits) Engine.Kept.writes Engine.Kept.release fuel
    f args e h.toKept
  obtain ⟨hresult, hmemory⟩ := conclude_same hsame hopen.usable t
  rw [← hcall] at hresult hmemory
  refine ⟨_, ⟨fuel, _, hcall', fun hout ↦ hr ?_, hresult⟩, hmemory.heap.bytes⟩
  have hout' := Engine.conclude_outOfFuel.mp hout
  have hbare := hsame.1
  rw [hout'] at hbare
  have hends : (Engine.execute m fuel f args e).1 = .outOfFuel := by
    cases hfirst : (Engine.execute m fuel f args e).1 with
    | outOfFuel => rfl
    | returned | stopped =>
      rw [hfirst] at hbare
      cases hbare
  exact (congrArg Prod.fst hcall).trans (Engine.conclude_outOfFuel.mpr hends)

/-- Calls are isolated from each other. After each that ends the stack is empty, and the heap ends where it did but for
the copy of an aggregate that is returned. What a call gives, and the heap that it leaves, depend on the function, the
arguments, the heap and the bounds, if neither the function nor any that it leads to reads the address of a function.
And room on the stack is zero when it is given, at whatever depth. -/
theorem calls_isolated (hm : Module.Narrow m) (h : Engine.Reachable m limits e) :
    (∀ address args r d, Engine.Calls m address args e r d → d.memory.stack.top = 0 ∧
      (∀ x, r = .error x → d.memory.heap.top = e.memory.heap.top) ∧
      ∀ v, r = .ok v → d.memory.heap.top = e.memory.heap.top ∨
        ∃ f F, e.functionAt? address = some f ∧ m.function? f = some F ∧ Engine.Copied m F.ret v e d) ∧
    (∀ e' f address address', Engine.Reachable m limits e' → e'.memory.heap.bytes = e.memory.heap.bytes →
      e.functionAt? address = some f → e'.functionAt? address' = some f →
      (∀ g, ReflTransGen m.Leads f g → m.Addressless g) → ∀ args r bytes,
      (∃ d, Engine.Calls m address args e r d ∧ d.memory.heap.bytes = bytes) ↔
        ∃ d, Engine.Calls m address' args e' r d ∧ d.memory.heap.bytes = bytes) ∧
    ∀ f args fr callers c k i pr d, Engine.During m f args e (fr :: callers) c → fr.rest.head? = some k →
      m.instr? ⟨fr.block.fn, k⟩ = some i → i.op = .alloca → (step m (fr :: callers)).run.run c = (.ok pr, d) →
      ∃ v, pr = .running (fr.advance i v :: callers) ∧ c.Fresh d v := by
  have hrested := h.rested hm
  refine ⟨fun address args r d hcall ↦ ?_, fun e' f address address' h' hheap hat hat' hfree args r bytes ↦ ?_,
    fun f args fr callers c k i pr d hduring hk hi hop hstep ↦ ?_⟩
  · obtain ⟨fuel, r', hrun, -, rfl⟩ := hcall
    obtain ⟨hd, hfail, hok⟩ := callAddress_heap hm hrested fuel address args hrun
    refine ⟨hd.idle, fun x hx ↦ ?_, fun v hv ↦ ?_⟩
    · cases r' with
      | error y => exact hfail y rfl
      | ok v => cases hx
    · cases r' with
      | error y => cases hv
      | ok w =>
        cases hv
        exact hok v rfl
  · have hrested' := h'.rested hm
    constructor
    · rintro ⟨d, hcall, rfl⟩
      obtain ⟨d', hcall', hmemory⟩ := calls_same hrested hrested' hheap hat hat' hfree hcall
      exact ⟨d', hcall', hmemory⟩
    · rintro ⟨d, hcall, rfl⟩
      obtain ⟨d', hcall', hmemory⟩ := calls_same hrested' hrested hheap.symm hat' hat hfree hcall
      exact ⟨d', hcall', hmemory⟩
  · exact alloca_fresh (hduring.kept hrested.toKept) (hm.slots _ i hi) hk hi hop hstep

end

/-! ### A slot where another was -/

theorem mem_of_lists {m : Module} {f : FuncId} {F : Function} {i : Instr} (hF : m.function? f = some F)
    (h : m.Lists f i) : i ∈ F.instrs := by
  obtain ⟨b, B, k, -, -, hi⟩ := h
  rw [Module.instr?, hF, Option.bind_some] at hi
  exact Array.mem_of_getElem? hi

def Engine.afterAddresses (m : Module) (names : List String) : Engine :=
  names.foldl (fun e name ↦ (Engine.functionAddress m name e).2) { limits := .ofRequest 0 0 0 }

theorem reachable_afterAddresses (m : Module) (names : List String) :
    Engine.Reachable m (.ofRequest 0 0 0) (.afterAddresses m names) := by
  unfold Engine.afterAddresses
  generalize hfresh : ({ limits := .ofRequest 0 0 0 } : Engine) = e
  have he : Engine.Reachable m (.ofRequest 0 0 0) e := hfresh ▸ .fresh
  clear hfresh
  induction names generalizing e with
  | nil => exact he
  | cons name names ih => exact ih _ (.functionAddress name he)

theorem operand_found {m : Module} {trace : List String} {fr : Frame} {id : InstrId} {v : UInt64}
    (hv : fr.values[id]? = some v) (t : Ty) (e : Engine) :
    (operand m trace fr (some (.instr id t))).run.run e = (.ok v, e) := by
  unfold operand
  simp only [hv]
  rfl

theorem step_returns {m : Module} {fr : Frame} {i : Instr} {id : InstrId} {t : Ty} {k : Nat} {v : UInt64} {F : Function}
    (e : Engine) (hrest : fr.rest = [k]) (hi : m.instr? ⟨fr.block.fn, k⟩ = some i) (hop : i.op = .ret)
    (hops : i.operands = [some (.instr id t)]) (hv : fr.values[id]? = some v) (hF : m.function? fr.fn = some F)
    (hret : F.ret.isStruct = false) :
    (step m [fr]).run.run e = (.ok (.returned ⟨v, []⟩), e.released fr.mark) := by
  have hreads : (i.operands.mapM (operand m [fr.name] fr)).run.run e = (.ok [v], e) := by
    rw [hops, List.mapM_cons, run_bind_ok (operand_found hv t e)]
    rfl
  unfold step
  simp only [List.map_cons, List.map_nil, hrest, hi]
  rw [run_bind_ok hreads]
  simp only [hop, List.headD_cons, leave, returnedBytes, resume, hF, Option.map_some, Option.getD_some, hret]
  rfl

theorem step_to_next {m : Module} {fr : Frame} {i : Instr} {k : Nat} {rest : List Nat} {ops : List UInt64} {v : UInt64}
    {e d : Engine} (hrest : fr.rest = k :: rest) (hi : m.instr? ⟨fr.block.fn, k⟩ = some i)
    (hop : i.op = .alloca ∨ i.op = .load ∨ i.op = .store)
    (hops : (i.operands.mapM (operand m [fr.name] fr)).run.run e = (.ok ops, e))
    (hv : ((compute m [fr.name] i ops).run.run e).1.toOption = some v)
    (hd : ((compute m [fr.name] i ops).run.run e).2 = d) :
    (step m [fr]).run.run e = (.ok (.running [fr.advance i v]), d) := by
  have hcompute : (compute m [fr.name] i ops).run.run e = (.ok v, d) := by
    rw [← hd]
    generalize (compute m [fr.name] i ops).run.run e = r at hv ⊢
    obtain ⟨x, c⟩ := r
    cases x <;> cases hv
    rfl
  unfold step
  simp only [List.map_cons, List.map_nil, hrest, hi]
  rw [run_bind_ok hops]
  rcases hop with hop | hop | hop <;> rw [hop] <;> exact run_bind_ok hcompute

/-- A module where `spill` writes what it is given to a slot, and `peek` reads a slot that nothing was written to. -/
def spilling : Module :=
  let spill : Function := { id := ⟨0⟩, name := "spill", signature := .func .void [.i64], params := [⟨"", .i64⟩] }
  let spill := ((spill.addBlock "entry").1.append 0 (.alloca .i64 "slot")).1
  let spill := (spill.append 0 (.store (some (.param ⟨0⟩ 0 .i64)) (some (.instr ⟨⟨0⟩, 0⟩ (.pointer .i64))))).1
  let peek : Function := { id := ⟨1⟩, name := "peek", signature := .func .i64 [], params := [] }
  let peek := ((peek.addBlock "entry").1.append 0 (.alloca .i64 "slot")).1
  let peek := (peek.append 0 (.load (.instr ⟨⟨1⟩, 0⟩ (.pointer .i64)) "found")).1
  { name := "m"
    functions := #[(spill.append 0 .retVoid).1, (peek.append 0 (.ret (some (.instr ⟨⟨1⟩, 1⟩ .i64)))).1]
    liveFunctions := [0, 1] }

theorem spilling_narrow : Module.Narrow spilling := by
  have hall : ∀ F ∈ spilling.functions, ∀ t ∈ F.ret :: F.instrs.toList.map (·.allocated),
      t ∈ [.void, .untyped, .i64] := by
    decide
  have hnarrow : ∀ t : Ty, t ∈ [.void, .untyped, .i64] → Layouts.Narrow spilling t := by
    intro t ht l hl
    simp only [List.mem_cons, List.not_mem_nil, or_false] at ht
    obtain rfl | rfl | rfl := ht
    · obtain ⟨_ | n, hl⟩ := hl <;> cases hl
    · obtain ⟨_ | n, hl⟩ := hl <;> cases hl
    · obtain rfl := hl.unique ⟨1, rfl⟩
      decide
  refine ⟨fun f F hF ↦ hnarrow _ (hall F (Array.mem_of_getElem? hF) _ List.mem_cons_self), fun id i hi ↦ ?_⟩
  obtain ⟨F, hF, hi⟩ := Option.bind_eq_some_iff.mp hi
  refine hnarrow _ (hall F (Array.mem_of_getElem? hF) _ (List.mem_cons_of_mem _ (List.mem_map_of_mem ?_)))
  exact Array.mem_toList_iff.mpr (Array.mem_of_getElem? hi)

def spillingInstr (n k : Nat) : Instr := (spilling.instr? ⟨⟨n⟩, k⟩).getD .retVoid

def spillingFrame (n : Nat) (name : String) (args : List UInt64) : Frame :=
  { fn := ⟨n⟩, name, args, block := ⟨⟨n⟩, 0⟩, rest := [0, 1, 2], mark := 0 }

def unspilled : Engine := .afterAddresses spilling ["spill", "peek"]

def slotTaken (n : Nat) (name : String) : Engine :=
    ((compute spilling [name] (spillingInstr n 0) []).run.run unspilled).2

def spilled : Engine :=
  ((compute spilling ["spill"] (spillingInstr 0 1) [7, 0x10000000000]).run.run (slotTaken 0 "spill")).2

theorem spill_calls : Engine.Calls spilling 0x7F0000000010 [7] unspilled (.ok 0) (spilled.released 0) := by
  let fr := (spillingFrame 0 "spill" [7]).advance (spillingInstr 0 0) 0x10000000000
  have htake : (step spilling [spillingFrame 0 "spill" [7]]).run.run unspilled = (.ok (.running [fr]),
    slotTaken 0 "spill") :=
    step_to_next rfl rfl (.inl rfl) rfl (by decide +kernel) rfl
  have hslot : fr.values[(⟨⟨0⟩, 0⟩ : InstrId)]? = some 0x10000000000 := Std.HashMap.getElem?_insert_self
  have hops : ((spillingInstr 0 1).operands.mapM (operand spilling ["spill"] fr)).run.run (slotTaken 0 "spill") =
      (.ok [7, 0x10000000000], slotTaken 0 "spill") := by
    have hlast : ([some (.instr ⟨⟨0⟩, 0⟩ (.pointer .i64))].mapM (operand spilling ["spill"] fr)).run.run
      (slotTaken 0 "spill") =
        (.ok [0x10000000000], slotTaken 0 "spill") := by
      rw [List.mapM_cons, run_bind_ok (operand_found hslot _ _)]
      rfl
    have hfirst : (operand spilling ["spill"] fr (some (.param ⟨0⟩ 0 .i64))).run.run (slotTaken 0 "spill") =
        (.ok 7, slotTaken 0 "spill") := rfl
    rw [show (spillingInstr 0 1).operands = [some (.param ⟨0⟩ 0 .i64), some (.instr ⟨⟨0⟩, 0⟩ (.pointer .i64))] from rfl,
      List.mapM_cons, run_bind_ok hfirst, run_bind_ok hlast]
    rfl
  have hput : (step spilling [fr]).run.run (slotTaken 0 "spill") =
    (.ok (.running [fr.advance (spillingInstr 0 1) 0]), spilled) :=
    step_to_next rfl rfl (.inr (.inr rfl)) hops (by decide +kernel) rfl
  exact Engine.calls_iff.mpr (.inr ⟨⟨0⟩, .void, .returned ⟨0, []⟩, spilled.released 0, by decide,
    Engine.executes_iff.mpr (.inl ⟨_, _, _, rfl, .running htake (.running hput (.returned rfl)), rfl⟩), rfl, rfl⟩)

theorem peek_calls : Engine.Calls spilling 0x7F0000000020 [] unspilled (.ok 0) ((slotTaken 1 "peek").released 0) := by
  let fr := (spillingFrame 1 "peek" []).advance (spillingInstr 1 0) 0x10000000000
  have htake : (step spilling [spillingFrame 1 "peek" []]).run.run unspilled = (.ok (.running [fr]),
    slotTaken 1 "peek") :=
    step_to_next rfl rfl (.inl rfl) rfl (by decide +kernel) rfl
  have hslot : fr.values[(⟨⟨1⟩, 0⟩ : InstrId)]? = some 0x10000000000 := Std.HashMap.getElem?_insert_self
  have hops : ((spillingInstr 1 1).operands.mapM (operand spilling ["peek"] fr)).run.run (slotTaken 1 "peek") =
      (.ok [0x10000000000], slotTaken 1 "peek") := by
    rw [show (spillingInstr 1 1).operands = [some (.instr ⟨⟨1⟩, 0⟩ (.pointer .i64))] from rfl, List.mapM_cons,
      run_bind_ok (operand_found hslot _ _)]
    rfl
  have hget : (step spilling [fr]).run.run (slotTaken 1 "peek") =
      (.ok (.running [fr.advance (spillingInstr 1 1) 0]), slotTaken 1 "peek") :=
    step_to_next rfl rfl (.inr (.inl rfl)) hops (by decide +kernel) (@load_same spilling _ .i64 _ _ rfl)
  have hret : (step spilling [fr.advance (spillingInstr 1 1) 0]).run.run (slotTaken 1 "peek") =
      (.ok (.returned ⟨0, []⟩), (slotTaken 1 "peek").released 0) :=
    step_returns _ rfl rfl rfl rfl Std.HashMap.getElem?_insert_self rfl rfl
  exact Engine.calls_iff.mpr (.inr ⟨⟨1⟩, .i64, .returned ⟨0, []⟩, _, by decide,
    Engine.executes_iff.mpr (.inl ⟨_, _, _, rfl, .running htake (.running hget (.returned hret)), rfl⟩), rfl, rfl⟩)

/-- What `spill` left behind the stack is not what `peek` finds. -/
theorem calls_isolated_spilled : ∃ e, Engine.Reachable spilling (.ofRequest 0 0 0) e ∧ e.memory.stack.top = 0 ∧
    e.memory.stack.read 0 8 = [7, 0, 0, 0, 0, 0, 0, 0] ∧ ∃ d, Engine.Calls spilling 0x7F0000000020 [] e (.ok 0) d := by
  have hleads : ∀ g, ¬ spilling.Leads ⟨1⟩ g := by
    have hplain : ∀ i ∈ (spilling.functions[1]).instrs, i.callee = none ∧ i.targets = [] := by decide
    rintro g (⟨hl, hc, -⟩ | ⟨hl, ht⟩)
    · rw [(hplain _ (mem_of_lists rfl hl)).1] at hc
      cases hc
    · rw [(hplain _ (mem_of_lists rfl hl)).2] at ht
      cases ht
  have hfree : ∀ g, ReflTransGen spilling.Leads ⟨1⟩ g → spilling.Addressless g := by
    intro g hg
    rcases hg.cases_head with rfl | ⟨g', hfirst, -⟩
    · intro i hl g t ho
      have hinstr : ∀ i ∈ (spilling.functions[1]).instrs, ∀ o ∈ i.operands, o = some (.instr ⟨⟨1⟩, 0⟩ (.pointer .i64)) ∨
          o = some (.instr ⟨⟨1⟩, 1⟩ .i64) := by decide
      rcases hinstr i (mem_of_lists rfl hl) _ ho with h | h <;> cases h
    · exact absurd hfirst (hleads g')
  have hfirst : Engine.Reachable spilling (.ofRequest 0 0 0) unspilled := reachable_afterAddresses ..
  obtain ⟨fuel, r, hrun, hr, -⟩ := spill_calls
  have hthen : Engine.Reachable spilling (.ofRequest 0 0 0) (spilled.released 0) := by
    have := hfirst.callAddress fuel 0x7F0000000010 [7] (by rwa [hrun])
    rwa [hrun] at this
  obtain ⟨d, hcalls, -⟩ :=
    ((calls_isolated spilling_narrow hfirst).2.1 (spilled.released 0) ⟨1⟩ 0x7F0000000020 0x7F0000000020
    hthen (by decide +kernel) (by decide +kernel) (by decide +kernel) hfree [] (.ok 0) []).mp
      ⟨_, peek_calls, by decide +kernel⟩
  exact ⟨_, hthen, by decide +kernel, by decide +kernel, d, hcalls⟩

/-! ### Addresses that are handed on -/

/-- A module in which `f` returns what `g` returns, and `g` the address of `h`. -/
def handing : Module :=
  let t : Ty := .pointer (.func .void [])
  let made (n : Nat) (name : String) (ret : Ty) : Function :=
    (({ id := ⟨n⟩, name, signature := .func ret [], params := [] } : Function).addBlock "entry").1
  { name := "m"
    functions := #[((made 0 "k" .void).append 0 .retVoid).1, ((made 1 "h" .void).append 0 .retVoid).1,
      ((made 2 "g" t).append 0 (.ret (some (.func ⟨1⟩ t)))).1,
      ((((made 3 "f" t).append 0 (.call ⟨2⟩ t [] "x")).1).append 0 (.ret (some (.instr ⟨⟨3⟩, 0⟩ t)))).1]
    liveFunctions := [0, 1, 2, 3] }

theorem handing_calls : (∃ d, Engine.Calls handing 0x7F0000000010 [] (.afterAddresses handing ["f"])
    (.ok 0x7F0000000020) d) ∧ ∃ d, Engine.Calls handing 0x7F0000000020 [] (.afterAddresses handing ["k", "f"])
    (.ok 0x7F0000000030) d := by
  constructor
  · exact ⟨_, Engine.calls_iff.mpr (.inr ⟨⟨3⟩, .pointer (.func .void []), .returned ⟨0x7F0000000020, []⟩, _,
      by decide, Engine.executes_iff.mpr (.inl ⟨_, _, _, rfl, .running rfl (.running rfl (.returned (step_returns _ rfl
        rfl rfl rfl Std.HashMap.getElem?_insert_self rfl rfl))), rfl⟩), rfl, rfl⟩)⟩
  · exact ⟨_, Engine.calls_iff.mpr (.inr ⟨⟨3⟩, .pointer (.func .void []), .returned ⟨0x7F0000000030, []⟩, _,
      by decide, Engine.executes_iff.mpr (.inl ⟨_, _, _, rfl, .running rfl (.running rfl (.returned (step_returns _ rfl
        rfl rfl rfl Std.HashMap.getElem?_insert_self rfl rfl))), rfl⟩), rfl, rfl⟩)⟩

/-- It is not enough that a function itself reads no function's address: one that it calls may hand it one. -/
theorem calls_differ_handing : ¬ ∀ e e' f address address', Engine.Reachable handing (.ofRequest 0 0 0) e →
    Engine.Reachable handing (.ofRequest 0 0 0) e' → e'.memory.heap.bytes = e.memory.heap.bytes →
    e.functionAt? address = some f → e'.functionAt? address' = some f → handing.Addressless f → ∀ args r,
      (∃ d, Engine.Calls handing address args e r d) ↔ ∃ d, Engine.Calls handing address' args e' r d := by
  intro h
  have hnone : ∀ i ∈ (handing.functions[3]).instrs, ∀ o ∈ i.operands, ∀ g t, o ≠ some (.func g t) := by
    have hoperands : ∀ i ∈ (handing.functions[3]).instrs, ∀ o ∈ i.operands,
        o = some (.instr ⟨⟨3⟩, 0⟩ (.pointer (.func .void []))) := by decide
    rintro i hi o ho g t rfl
    cases hoperands i hi _ ho
  have hfree : handing.Addressless ⟨3⟩ := fun i hl g t ho ↦ hnone i (mem_of_lists rfl hl) _ ho g t rfl
  obtain ⟨hfirst, ⟨d, hsecond⟩⟩ := handing_calls
  obtain ⟨d', hsame⟩ :=
    (h _ _ ⟨3⟩ 0x7F0000000010 0x7F0000000020 (reachable_afterAddresses handing ["f"])
    (reachable_afterAddresses handing ["k", "f"]) rfl
    (by decide) (by decide +kernel) hfree [] (.ok 0x7F0000000020)).mp hfirst
  cases (hsame.unique hsecond).1

end CilSsa.Machine

