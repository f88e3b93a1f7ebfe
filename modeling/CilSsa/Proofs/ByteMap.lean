import CilSsa.Proofs.Isolation

/-! Memory between calls is a map from addresses to bytes. Addresses are added up as natural numbers here, so that
nothing wraps around. -/

namespace CilSsa.Machine

open CilSsa.Ssa CilSsa.Number CilSsa.Text

def Region.Holds (r : Region) (a : UInt64) (n : Int) : Prop :=
  r.base ≤ a ∧ 0 ≤ n ∧ a.toNat + n ≤ r.base.toNat + r.top

def Memory.Holds (mem : Memory) (a : UInt64) (n : Int) : Prop := mem.stack.Holds a n ∨ mem.heap.Holds a n

/-- An engine that is in use and that no call is running on. -/
structure Engine.Idle (e : Engine) : Prop where
  usable : e.closed = false
  heap : e.memory.heap.base = heapBase
  size : e.memory.heap.top < 2 ^ 63
  stack : e.memory.stack.base = stackBase
  empty : e.memory.stack.top = 0

/-- What changes memory: a block that is given out, and bytes that are written. -/
inductive Change
  | block (a : UInt64) (size : Nat)
  | bytes (a : UInt64) (bs : Bytes)

/-- The engines that requests for memory lead to, with what these changed, the latest first. Sizes are those of a signed
64-bit integer. -/
inductive Engine.History (m : Module) (start : Engine) : List Change → Engine → Prop
  | start : History m start [] start
  | alloc {cs : List Change} {e d : Engine} {size : Int} {a : UInt64} : History m start cs e →
      0 ≤ size → size < 2 ^ 63 → Engine.alloc size e = (.ok a, d) → History m start (.block a size.toNat :: cs) d
  | allocFails {cs : List Change} {e d : Engine} {size : Int} {x : EngineError} : History m start cs e → 0 ≤ size →
      size < 2 ^ 63 → Engine.alloc size e = (.error x, d) → History m start cs d
  | write {cs : List Change} {e d : Engine} {a : UInt64} {bs : Bytes} : History m start cs e →
      Engine.write a bs e = (.ok (), d) → History m start (.bytes a bs :: cs) d
  | writeFails {cs : List Change} {e d : Engine} {a : UInt64} {bs : Bytes} {x : EngineError} : History m start cs e →
      Engine.write a bs e = (.error x, d) → History m start cs d
  | read {cs : List Change} {e : Engine} (a : UInt64) (n : Int) : History m start cs e →
      History m start cs (Engine.read a n e).2
  | readValue {cs : List Change} {e : Engine} (a : UInt64) {t : Ty} : History m start cs e → t.isStruct = false →
      History m start cs (Engine.readValue m a t e).2

/-- The value last written to an address: what the heap held at first where nothing was written since, and zero where it
held nothing. -/
def lastWritten (start : Engine) : List Change → Nat → UInt8
  | [], k => start.memory.heap.bytes.getD (k - heapBase.toNat) 0
  | .block .. :: cs, k => lastWritten start cs k
  | .bytes a bs :: cs, k =>
    if a.toNat ≤ k ∧ k < a.toNat + bs.length then bs.getD (k - a.toNat) 0 else lastWritten start cs k

section

variable {m : Module} {start e d : Engine} {cs : List Change} {r : Region} {a b : UInt64} {n : Int}
  {o : Nat} {bs : Bytes}

theorem Region.place?_isSome : (r.place? a n).isSome = true ↔ r.Holds a n := by
  rw [Option.isSome_iff_exists]
  constructor
  · rintro ⟨o, ho⟩
    obtain ⟨hge, hn, rfl, hend⟩ := place?_eq_some_iff.mp ho
    rw [UInt64.toNat_sub_of_le _ _ hge] at hend
    have := UInt64.le_iff_toNat_le.mp hge
    exact ⟨hge, hn, by omega⟩
  · rintro ⟨hge, hn, hend⟩
    refine ⟨_, place?_eq_some_iff.mpr ⟨hge, hn, rfl, ?_⟩⟩
    rw [UInt64.toNat_sub_of_le _ _ hge]
    have := UInt64.le_iff_toNat_le.mp hge
    omega

theorem Memory.maps_iff {mem : Memory} : mem.maps a n = true ↔ mem.Holds a n := by
  rw [Memory.maps, Bool.or_eq_true, Region.place?_isSome, Region.place?_isSome]
  exact Iff.rfl

theorem Memory.read?_isSome {mem : Memory} : (mem.read? a n).isSome = true ↔ mem.Holds a n := by
  rw [← Memory.maps_iff, Memory.maps, Bool.or_eq_true]
  unfold Memory.read?
  cases mem.stack.place? a n <;> simp

/-! ### Requests -/

theorem readBytes_eq {trace : List String} (h : e.memory.read? a n = some bs) :
    (readBytes trace a n).run.run e = (.ok bs, e) := by
  unfold readBytes
  rw [run_bind_ok run_get, h]
  rfl

theorem readBytes_fails (h : e.memory.read? a n = none) : ∃ s, (readBytes [] a n).run.run e = (.error s, e) := by
  unfold readBytes
  rw [run_bind_ok run_get, h]
  exact ⟨_, rfl⟩

theorem writeBytes_fails (trace : List String) (h : ¬ e.memory.Holds a bs.length) :
    ∃ s, (writeBytes trace a bs).run.run e = (.error s, e) := by
  have hneed : ∃ s, (needBytes trace a bs.length).run.run e = (.error s, e) := by
    unfold needBytes
    rw [run_bind_ok run_get, if_neg fun hm ↦ h (Memory.maps_iff.mp hm)]
    exact ⟨_, rfl⟩
  obtain ⟨s, hs⟩ := hneed
  exact ⟨s, run_bind_error hs⟩

theorem writeBytes_error {trace : List String} {s : Stop} (h : (writeBytes trace a bs).run.run e = (.error s, d)) :
    d = e := by
  by_cases hm : e.memory.Holds a bs.length
  · rw [writeBytes_mapped (Memory.maps_iff.mpr hm)] at h
    cases h
  · obtain ⟨s', hs⟩ := writeBytes_fails trace hm
    rw [hs] at h
    cases h
    rfl

namespace Engine

theorem read_ok (h : e.closed = false) : Engine.read a n e = (.ok bs, d) ↔ e.memory.read? a n = some bs ∧ d = e := by
  rw [Engine.read, request_open h]
  cases hr : e.memory.read? a n with
  | some bs' =>
    rw [readBytes_eq hr]
    simp [Except.mapError, eq_comm]
  | none =>
    obtain ⟨s, hs⟩ := readBytes_fails hr
    rw [hs]
    simp [Except.mapError]

theorem read_snd (h : e.closed = false) : (Engine.read a n e).2 = e := by
  rw [Engine.read, request_open h]
  exact readBytes_same e a n

theorem readValue_snd {t : Ty} (h : e.closed = false) (ht : t.isStruct = false) : (Engine.readValue m a t e).2 = e := by
  rw [Engine.readValue, request_open h]
  exact load_same e a ht

theorem write_ok (h : e.closed = false) : Engine.write a bs e = (.ok (), d) ↔
    e.memory.Holds a bs.length ∧ d = { e with memory := e.memory.write a bs } := by
  rw [Engine.write, request_open h]
  by_cases hm : e.memory.Holds a bs.length
  · rw [writeBytes_mapped (Memory.maps_iff.mpr hm)]
    simp [Except.mapError, hm, eq_comm]
  · obtain ⟨s, hs⟩ := writeBytes_fails [] hm
    rw [hs]
    simp [Except.mapError, hm]

theorem write_error {x : EngineError} (h : e.closed = false) (hw : Engine.write a bs e = (.error x, d)) : d = e := by
  rw [Engine.write, request_open h] at hw
  rcases hrun : (writeBytes [] a bs).run.run e with ⟨s | u, c⟩ <;> rw [hrun] at hw <;> cases hw
  exact writeBytes_error hrun

theorem alloc_ok {size : Int} (h : e.closed = false) (ha : Engine.alloc size e = (.ok a, d)) :
    ∃ stop, e.memory.heap.room size 8 e.limits.heapSize = .ok (a, stop) ∧
      d = { e with memory := { e.memory with heap := e.memory.heap.grow stop } } := by
  rw [Engine.alloc, request_open h] at ha
  rcases reserveHeap_run e size 8 with ⟨x, hx⟩ | ⟨b, stop, hroom, hrun⟩
  · rw [hx] at ha
    cases ha
  · rw [hrun] at ha
    cases ha
    exact ⟨stop, hroom, rfl⟩

theorem alloc_error {size : Int} {x : EngineError} (h : e.closed = false) (ha : Engine.alloc size e = (.error x, d)) :
    d = e := by
  rw [Engine.alloc, request_open h] at ha
  rcases reserveHeap_run e size 8 with ⟨s, hs⟩ | ⟨b, stop, -, hrun⟩
  · rw [hs] at ha
    cases ha
    rfl
  · rw [hrun] at ha
    cases ha

end Engine

/-! ### Contents -/

theorem Region.room_eight {size limit : Int} {stop : Nat} (htop : r.top < 2 ^ 63) (h0 : 0 ≤ size)
    (hsize : size < 2 ^ 63) (h : r.room size 8 limit = .ok (a, stop)) :
    a = r.base + (alignUp r.top 8).toUInt64 ∧ stop = alignUp r.top 8 + size.toNat := by
  have hlt : alignUp r.top 8 ≤ 2 ^ 63 := by
    unfold alignUp
    split <;> omega
  have hle := Region.le_alignUp r.top 8
  unfold Region.room at h
  dsimp only at h
  split at h
  · cases h
  split at h
  · cases h
  rename_i hnot
  cases h
  refine ⟨rfl, ?_⟩
  rw [wrapInt, Int.bmod_def] at hnot ⊢
  split at hnot <;> rename_i hhalf
  · rw [if_pos hhalf]
    omega
  · omega

def Engine.heapByte (e : Engine) (k : Nat) : UInt8 := e.memory.heap.bytes.getD (k - heapBase.toNat) 0

theorem Engine.Idle.read?_eq (h : e.Idle) (hr : e.memory.read? a n = some bs) :
    bs = (List.range n.toNat).map fun i ↦ e.heapByte (a.toNat + i) := by
  unfold Memory.read? at hr
  cases hs : e.memory.stack.place? a n with
  | some o =>
    obtain ⟨-, hn, -, hend⟩ := Region.place?_eq_some_iff.mp hs
    have hempty := h.empty
    obtain rfl : n = 0 := by omega
    rw [hs] at hr
    cases hr
    exact Region.read_zero ..
  | none =>
    rw [hs] at hr
    obtain ⟨o, ho, rfl⟩ := Option.map_eq_some_iff.mp hr
    obtain ⟨hge, hn, rfl, hend⟩ := Region.place?_eq_some_iff.mp ho
    rw [h.heap] at hge hend ⊢
    rw [UInt64.toNat_sub_of_le _ _ hge] at hend ⊢
    have hle := UInt64.le_iff_toNat_le.mp hge
    have hlen := e.memory.heap.length_bytes
    apply List.ext_getElem?
    intro i
    rw [Region.read_eq _ (by omega), getElem?_slice, List.getElem?_map]
    by_cases hi : i < n.toNat
    · rw [if_pos hi, List.getElem?_range hi, Option.map_some, Engine.heapByte,
        show a.toNat + i - heapBase.toNat = a.toNat - heapBase.toNat + i by omega, List.getD_eq_getElem?_getD,
        List.getElem?_eq_getElem (by omega)]
      rfl
    · rw [if_neg hi, List.getElem?_eq_none (by simpa using hi)]
      rfl

theorem Engine.Idle.write (h : e.Idle) (a : UInt64) (bs : Bytes) :
    Engine.Idle { e with memory := e.memory.write a bs } := by
  have hsame := Memory.SameRegions.write e.memory a bs
  exact ⟨h.usable, hsame.heap.trans h.heap, hsame.top ▸ h.size, hsame.stack.trans h.stack,
    (Memory.stack_top_write ..).trans h.empty⟩

theorem Engine.Idle.grow {size : Int} {stop : Nat} (h : e.Idle)
    (hroom : e.memory.heap.room size 8 e.limits.heapSize = .ok (a, stop)) :
    Engine.Idle { e with memory := { e.memory with heap := e.memory.heap.grow stop } } := by
  have htop := Region.top_grow e.memory.heap stop
  exact ⟨h.usable, h.heap, htop.trans_lt (Region.stop_lt hroom), h.stack, h.empty⟩

/-- What is written to the heap is there afterwards, and all else is as before. -/
theorem Engine.Idle.heapByte_write (h : e.Idle) (hm : e.memory.Holds a bs.length) {k : Nat} (hk : heapBase.toNat ≤ k) :
    Engine.heapByte { e with memory := e.memory.write a bs } k =
      if a.toNat ≤ k ∧ k < a.toNat + bs.length then bs.getD (k - a.toNat) 0 else e.heapByte k := by
  unfold Memory.write
  cases hs : e.memory.stack.place? a bs.length with
  | some o =>
    obtain ⟨-, -, -, hend⟩ := Region.place?_eq_some_iff.mp hs
    have hempty := h.empty
    rw [if_neg (by omega)]
    rfl
  | none =>
    cases hh : e.memory.heap.place? a bs.length with
    | none =>
      rcases hm with hm | hm
      · rw [← Region.place?_isSome, hs] at hm
        cases hm
      · rw [← Region.place?_isSome, hh] at hm
        cases hm
    | some o =>
      obtain ⟨hge, -, rfl, hend⟩ := Region.place?_eq_some_iff.mp hh
      rw [h.heap] at hge hend ⊢
      have hle := UInt64.le_iff_toNat_le.mp hge
      have hlen := e.memory.heap.length_bytes
      unfold Engine.heapByte
      dsimp only
      rw [Region.bytes_write _ _ _ (by omega)]
      rw [UInt64.toNat_sub_of_le _ _ hge] at hend ⊢
      simp only [List.getD_eq_getElem?_getD]
      rw [getElem?_splice (by omega)]
      by_cases hin : a.toNat ≤ k ∧ k < a.toNat + bs.length
      · rw [if_pos hin, if_neg (by omega), if_pos (by omega),
          show k - heapBase.toNat - (a.toNat - heapBase.toNat) = k - a.toNat by omega]
      · rw [if_neg hin]
        split
        · rfl
        · rw [if_neg (by omega)]

theorem Engine.heapByte_grow (e : Engine) {stop : Nat} (h : e.memory.heap.top ≤ stop) (k : Nat) :
    Engine.heapByte { e with memory := { e.memory with heap := e.memory.heap.grow stop } } k = e.heapByte k := by
  unfold Engine.heapByte
  rw [Region.bytes_grow _ h]
  simp only [List.getD_eq_getElem?_getD, List.getElem?_append, List.getElem?_replicate]
  split
  · rfl
  · rename_i hout
    rw [List.getElem?_eq_none (by omega)]
    split <;> rfl

theorem Engine.Idle.read_iff (h : e.Idle) : Engine.read a n e = (.ok bs, d) ↔
    e.memory.Holds a n ∧ bs = ((List.range n.toNat).map fun i ↦ e.heapByte (a.toNat + i)) ∧ d = e := by
  rw [Engine.read_ok h.usable]
  constructor
  · rintro ⟨hr, rfl⟩
    exact ⟨Memory.read?_isSome.mp (by rw [hr]; rfl), h.read?_eq hr, rfl⟩
  · rintro ⟨hm, rfl, rfl⟩
    obtain ⟨bs, hbs⟩ := Option.isSome_iff_exists.mp (Memory.read?_isSome.mpr hm)
    exact ⟨hbs.trans (congrArg some (h.read?_eq hbs)), rfl⟩

/-- What an allocation gives and leaves. -/
structure Engine.Given (e : Engine) (n : Nat) (a : UInt64) (d : Engine) : Prop extends d.Idle where
  address : a.toNat = heapBase.toNat + Region.alignUp e.memory.heap.top 8
  top : d.memory.heap.top = Region.alignUp e.memory.heap.top 8 + n
  rest : d.memory.stack = e.memory.stack
  bytes : ∀ k, d.heapByte k = e.heapByte k

theorem Engine.Idle.given {size : Int} (h : e.Idle) (h0 : 0 ≤ size) (hsize : size < 2 ^ 63)
    (ha : Engine.alloc size e = (.ok a, d)) : Engine.Given e size.toNat a d := by
  obtain ⟨stop, hroom, rfl⟩ := Engine.alloc_ok h.usable ha
  obtain ⟨haddress, hstop⟩ := Region.room_eight h.size h0 hsize hroom
  have hgrows := (Region.room_above hroom).2.1
  have hlt := Region.stop_lt hroom
  refine { h.grow hroom with address := ?_, top := ?_, rest := rfl, bytes := fun k ↦ e.heapByte_grow hgrows k }
  · have hbase : heapBase.toNat = 65536 := rfl
    rw [haddress, h.heap, UInt64.toNat_add, UInt64.toNat_ofNat']
    omega
  · exact hstop

theorem Engine.Given.le_top {size : Nat} (h : Engine.Given e size a d) : e.memory.heap.top ≤ d.memory.heap.top := by
  have := Region.le_alignUp e.memory.heap.top 8
  have := h.top
  omega

theorem Engine.heapByte_above {k : Nat} (h : heapBase.toNat + e.memory.heap.top ≤ k) : e.heapByte k = 0 := by
  have hlen := e.memory.heap.length_bytes
  rw [Engine.heapByte, List.getD_eq_getElem?_getD, List.getElem?_eq_none (by omega)]
  rfl

theorem Engine.Given.aligned {n : Nat} (h : Engine.Given e n a d) : a ≠ 0 ∧ 8 ∣ a.toNat := by
  have hbase : heapBase.toNat = 65536 := rfl
  have haddress := h.address
  constructor
  · rintro rfl
    rw [UInt64.toNat_zero] at haddress
    omega
  · have height : Region.alignUp e.memory.heap.top 8 = (e.memory.heap.top + 8 - 1) / 8 * 8 := if_neg (by omega)
    omega

theorem Engine.Given.zero {size : Int} (h : Engine.Given e size.toNat a d) (h0 : 0 ≤ size) :
    Engine.read a size d = (.ok (List.replicate size.toNat 0), d) := by
  have haddress := h.address
  have htop := h.top
  have hle := Region.le_alignUp e.memory.heap.top 8
  have hholds : d.memory.Holds a size := by
    refine .inr ⟨?_, h0, ?_⟩
    · rw [h.heap, UInt64.le_iff_toNat_le]
      omega
    · rw [h.heap]
      omega
  refine h.toIdle.read_iff.mpr ⟨hholds, ?_, rfl⟩
  have hzero : ∀ i ∈ List.range size.toNat, d.heapByte (a.toNat + i) = 0 := by
    intro i _
    rw [h.bytes]
    exact Engine.heapByte_above (by omega)
  rw [List.map_congr_left hzero]
  simp

theorem Engine.Given.keeps {k : Nat} {n : Int} {b : UInt64} (h : Engine.Given e k a d) (he : e.Idle)
    (hr : Engine.read b n e = (.ok bs, e)) : Engine.read b n d = (.ok bs, d) := by
  obtain ⟨hm, rfl, -⟩ := he.read_iff.mp hr
  refine h.toIdle.read_iff.mpr ⟨?_, by simp only [h.bytes], rfl⟩
  have := h.le_top
  rcases hm with hm | ⟨hge, hn, hend⟩
  · exact .inl (h.rest ▸ hm)
  · rw [he.heap] at hge hend
    exact .inr ⟨h.heap ▸ hge, hn, by rw [h.heap]; omega⟩

/-- Bytes in use are bytes of the heap, since nothing of the stack is. -/
theorem Engine.Idle.heapBase_le {n : Int} {i : Nat} (h : e.Idle) (hm : e.memory.Holds a n) (hi : i < n.toNat) :
    heapBase.toNat ≤ a.toNat + i := by
  rcases hm with ⟨hge, hn, hend⟩ | ⟨hge, hn, hend⟩
  · rw [h.empty] at hend
    rw [h.stack] at hge hend
    have := UInt64.le_iff_toNat_le.mp hge
    omega
  · rw [h.heap] at hge
    have := UInt64.le_iff_toNat_le.mp hge
    omega

/-! ### Histories -/

/-- The engine as its history tells it: the blocks that were given out are in use, and bytes have the values last
written. -/
structure Engine.Tracks (start : Engine) (cs : List Change) (e : Engine) : Prop extends e.Idle where
  blocks : ∀ b k, .block b k ∈ cs → b.toNat + k ≤ heapBase.toNat + e.memory.heap.top
  bytes : ∀ k, heapBase.toNat ≤ k → e.heapByte k = lastWritten start cs k

theorem Engine.Tracks.alloc {size : Int} (h : Engine.Tracks start cs e) (h0 : 0 ≤ size) (hsize : size < 2 ^ 63)
    (ha : Engine.alloc size e = (.ok a, d)) : Engine.Tracks start (.block a size.toNat :: cs) d := by
  have hgiven := h.toIdle.given h0 hsize ha
  refine { hgiven.toIdle with blocks := fun b k hb ↦ ?_, bytes := fun k hk ↦ (hgiven.bytes k).trans (h.bytes k hk) }
  rcases List.mem_cons.mp hb with heq | hb
  · cases heq
    rw [hgiven.address, hgiven.top]
    omega
  · have := h.blocks b k hb
    have := hgiven.le_top
    omega

theorem Engine.Tracks.write (h : Engine.Tracks start cs e) (hw : Engine.write a bs e = (.ok (), d)) :
    Engine.Tracks start (.bytes a bs :: cs) d := by
  obtain ⟨hm, rfl⟩ := (Engine.write_ok h.usable).mp hw
  refine { h.toIdle.write a bs with blocks := fun b k hb ↦ ?_, bytes := fun k hk ↦ ?_ }
  · rw [(Memory.SameRegions.write e.memory a bs).top]
    exact h.blocks b k ((List.mem_cons.mp hb).resolve_left nofun)
  · rw [h.toIdle.heapByte_write hm hk, lastWritten, h.bytes k hk]

theorem Engine.History.tracks (hstart : start.Idle) (h : Engine.History m start cs e) : Engine.Tracks start cs e := by
  induction h with
  | start => exact { hstart with blocks := nofun, bytes := fun _ _ ↦ rfl }
  | alloc _ h0 hsize ha ih => exact ih.alloc h0 hsize ha
  | allocFails _ _ _ ha ih => exact Engine.alloc_error ih.usable ha ▸ ih
  | write _ hw ih => exact ih.write hw
  | writeFails _ hw ih => exact Engine.write_error ih.usable hw ▸ ih
  | read a n _ ih => rwa [Engine.read_snd ih.usable]
  | readValue a _ ht ih => rwa [Engine.readValue_snd ih.usable ht]

/-- Memory is a map from addresses to bytes whose bounds are checked. Whatever was allocated, written and read before: a
block that is given out is at a multiple of eight, above all blocks given out before, zero, and leaves what there was; a
read and a write of some bytes succeed exactly where all of them are in use in one region; a read gives for each byte
the value last written; and what fails, and all reading, leaves the engine as it was. -/
theorem memory_byteMap (hstart : start.Idle) (h : Engine.History m start cs e) :
    (∀ size a d, 0 ≤ size → size < 2 ^ 63 → Engine.alloc size e = (.ok a, d) →
      a ≠ 0 ∧ 8 ∣ a.toNat ∧ (∀ b k, .block b k ∈ cs → b.toNat + k ≤ a.toNat) ∧
      Engine.read a size d = (.ok (List.replicate size.toNat 0), d) ∧
      ∀ b n bs, Engine.read b n e = (.ok bs, e) → Engine.read b n d = (.ok bs, d)) ∧
    (∀ a n, (∃ bs, Engine.read a n e = (.ok bs, e)) ↔ e.memory.Holds a n) ∧
    (∀ a bs, (∃ d, Engine.write a bs e = (.ok (), d)) ↔ e.memory.Holds a bs.length) ∧
    (∀ a n bs, Engine.read a n e = (.ok bs, e) →
      bs = (List.range n.toNat).map fun i ↦ lastWritten start cs (a.toNat + i)) ∧
    (∀ size x d, Engine.alloc size e = (.error x, d) → d = e) ∧
    (∀ a bs x d, Engine.write a bs e = (.error x, d) → d = e) ∧
    (∀ a n, (Engine.read a n e).2 = e) ∧
    ∀ a t, t.isStruct = false → (Engine.readValue m a t e).2 = e := by
  have htracks := h.tracks hstart
  have hidle := htracks.toIdle
  refine ⟨fun size a d h0 hsize ha ↦ ?_, fun a n ↦ ?_, fun a bs ↦ ?_, fun a n bs hr ↦ ?_,
    fun size x d ↦ Engine.alloc_error hidle.usable, fun a bs x d ↦ Engine.write_error hidle.usable,
    fun a n ↦ Engine.read_snd hidle.usable, fun a t ↦ Engine.readValue_snd hidle.usable⟩
  · have hgiven := hidle.given h0 hsize ha
    refine ⟨hgiven.aligned.1, hgiven.aligned.2, fun b k hb ↦ ?_, hgiven.zero h0, fun b n bs ↦ hgiven.keeps hidle⟩
    have haddress := hgiven.address
    have hle := Region.le_alignUp e.memory.heap.top 8
    have := htracks.blocks b k hb
    omega
  · constructor
    · rintro ⟨bs, hr⟩
      exact (hidle.read_iff.mp hr).1
    · intro hm
      exact ⟨_, hidle.read_iff.mpr ⟨hm, rfl, rfl⟩⟩
  · constructor
    · rintro ⟨d, hw⟩
      exact ((Engine.write_ok hidle.usable).mp hw).1
    · intro hm
      exact ⟨_, (Engine.write_ok hidle.usable).mpr ⟨hm, rfl⟩⟩
  · obtain ⟨hm, rfl, -⟩ := hidle.read_iff.mp hr
    exact List.map_congr_left fun i hi ↦ htracks.bytes _ (hidle.heapBase_le hm (List.mem_range.mp hi))

end

theorem Engine.Idle.fresh (limits : Limits) : Engine.Idle { limits } := ⟨rfl, rfl, Nat.two_pow_pos 63, rfl, rfl⟩

def fiveBytes : Engine := (Engine.write 0x10001 [7, 9] (Engine.alloc 5 {}).2).2

theorem fiveBytes_history : Engine.History { name := "m" } {} [.bytes 0x10001 [7, 9], .block 0x10000 5] fiveBytes := by
  have hfirst : (Engine.alloc 5 {}).1 = .ok 0x10000 := by decide
  have hwrite : (Engine.write 0x10001 [7, 9] (Engine.alloc 5 {}).2).1 = .ok () := by decide +kernel
  have hblock : Engine.History { name := "m" } {} [.block 0x10000 5] (Engine.alloc 5 {}).2 :=
    .alloc .start (show (0 : Int) ≤ 5 by decide) (by decide) (Prod.ext hfirst rfl)
  exact .write hblock (Prod.ext hwrite rfl)

/-- Eight more are then given out at the next multiple of eight. -/
theorem memory_byteMap_written : Engine.read 0x10000 5 fiveBytes = (.ok [0, 7, 9, 0, 0], fiveBytes) ∧
    ∃ d, Engine.alloc 8 fiveBytes = (.ok 0x10008, d) ∧ Engine.read 0x10008 8 d = (.ok [0, 0, 0, 0, 0, 0, 0, 0], d) ∧
      Engine.read 0x10000 5 d = (.ok [0, 7, 9, 0, 0], d) := by
  obtain ⟨halloc, -, -, -, -, -, hsame, -⟩ := memory_byteMap (.fresh _) fiveBytes_history
  have hread : (Engine.read 0x10000 5 fiveBytes).1 = .ok [0, 7, 9, 0, 0] := by decide +kernel
  have hnext : (Engine.alloc 8 fiveBytes).1 = .ok 0x10008 := by decide +kernel
  obtain ⟨-, -, -, hzero, hkeep⟩ := halloc 8 0x10008 _ (by decide) (by decide) (Prod.ext hnext rfl)
  exact ⟨Prod.ext hread (hsame _ _), _, Prod.ext hnext rfl, hzero, hkeep _ _ _ (Prod.ext hread (hsame _ _))⟩

end CilSsa.Machine

