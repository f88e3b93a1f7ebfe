import CilSsa.Proofs.ByteMap
import CilSsa.Proofs.FrameSlots
import CilSsa.Proofs.Words

/-! A struct is copied to the stack as in a call, but between calls no frame is there to give the copy back. -/

namespace CilSsa.Machine

open CilSsa.Ssa CilSsa.Number CilSsa.Text

section

variable {m : Module} {limits : Limits} {trace : List String} {e c d : Engine} {t : Ty} {a v : UInt64}
  {l : Layout} {n : Nat}

/-! ### Values that are no structs -/

theorem readWord?_isSome {bs : Bytes} (h : bs.length = 1 ∨ bs.length = 2 ∨ bs.length = 4 ∨ 8 ≤ bs.length) :
    ∃ w, readWord? bs = some w := by
  unfold readWord?
  rcases h with h | h | h | h
  · rw [h]
    exact ⟨_, rfl⟩
  · rw [h]
    exact ⟨_, rfl⟩
  · rw [h]
    exact ⟨_, rfl⟩
  · generalize bs.length = n at h
    split <;> try omega
    rw [if_neg (by omega)]
    exact ⟨_, rfl⟩

theorem sizeOf_ok (trace : List String) (h : e.Knows m) (hl : Layouts.LaidOut m .host t l) : ∃ c,
    (sizeOf m trace t).run.run e = (.ok l.size, c) ∧ c.memory = e.memory ∧ c.limits = e.limits ∧ c.Knows m := by
  have hexact := Layouts.of_exact (t := t) h
  unfold sizeOf Layouts.sizeOf
  rw [run_bind_ok run_get]
  generalize e.layouts.of m t = found at hexact
  rcases found with ⟨x | l', s⟩
  · exact absurd hl (hexact.2 l)
  · rw [hl.unique hexact.2]
    exact ⟨_, rfl, rfl, rfl, hexact.1⟩

theorem stackAlloc_ok (trace : List String) (h : e.Knows m) (hl : Layouts.LaidOut m .host t l)
    {count : Int} {stop : Nat} (hroom : e.memory.stack.room (wrapInt (l.size * count)) l.align e.limits.stackSize =
    .ok (v, stop)) : ∃ d, (stackAlloc m trace t count).run.run e = (.ok v, d) ∧
      d.memory = { e.memory with stack := e.memory.stack.grow stop } := by
  obtain ⟨c, hsize, hmemory, hlimits, hknows⟩ := sizeOf_ok trace h hl
  unfold stackAlloc
  rw [run_bind_ok hsize, run_bind_ok run_get, hknows.alignOf hl]
  unfold takeStack
  rw [run_bind_ok run_get, hmemory, hlimits, hroom]
  exact ⟨_, rfl, by rw [← hmemory]⟩

end

def pairModule : Module := { name := "m", structs := #[⟨"P", some [.i64, .i64]⟩], liveStructs := [0] }

end CilSsa.Machine

/-!
What is stored is loaded again. A value that is written as one word of one, two, four or eight bytes comes back cut to
its type, and no byte elsewhere changes. The machine has no words of other sizes: where an integer takes three bytes, or
five to seven, neither a store nor a load of it means anything.
-/

namespace CilSsa.Machine

open CilSsa.Ssa CilSsa.Number CilSsa.Text

def cellSize? : Ty → Option Nat
  | .int bits =>
    let n := byteWidth bits
    if n = 1 ∨ n = 2 ∨ n = 4 ∨ n = 8 then some n else none
  | .float => some 4
  | .double | .pointer _ => some 8
  | _ => none

def stored : Ty → UInt64 → UInt64
  | .int bits, v => zeroExtend v bits
  | _, v => v

def loaded : Ty → Bytes → UInt64
  | .int bits, bs => signExtend (ofLittleEndian bs).toUInt64 bits
  | _, bs => (ofLittleEndian bs).toUInt64

def cut : Ty → UInt64 → UInt64
  | .int bits, v => signExtend v bits
  | .float, v => zeroExtend v 32
  | _, v => v

section

variable {m : Module} {trace : List String} {e d : Engine} {t : Ty} {a b v : UInt64} {n : Nat} {k : Int} {bs : Bytes}
  {r : Region} {mem : Memory} {o p : Nat}

/-! ### Bytes -/

theorem Region.place?_write (r : Region) (o : Nat) (bs : Bytes) (a : UInt64) (n : Int) :
    (r.write o bs).place? a n = r.place? a n := by
  unfold Region.place?
  rw [Region.base_write, Region.top_write]

theorem Region.read_write (h : r.place? a bs.length = some o) : (r.write o bs).read o bs.length = bs := by
  obtain ⟨-, -, -, hend⟩ := Region.place?_eq_some_iff.mp h
  have hin : o + bs.length ≤ r.bytes.length := by
    rw [Region.length_bytes]
    omega
  rw [Region.read_eq _ (by rw [Region.top_write]; omega), Region.bytes_write _ _ _ (by omega)]
  have hinside := slice_splice_inside hin (a := 0) (n := bs.length) (by omega)
  rw [Nat.add_zero] at hinside
  rw [hinside, slice, List.drop_zero, List.take_length]

theorem Region.read_write_apart (ho : r.place? a bs.length = some o) (hp : r.place? b k = some p)
    (h : (a.toNat + bs.length : Int) ≤ b.toNat ∨ b.toNat + k ≤ a.toNat) : (r.write o bs).read p k.toNat =
    r.read p k.toNat := by
  obtain ⟨hge, -, rfl, hend⟩ := Region.place?_eq_some_iff.mp ho
  obtain ⟨hge', hk, rfl, hend'⟩ := Region.place?_eq_some_iff.mp hp
  have hle := UInt64.le_iff_toNat_le.mp hge
  have hle' := UInt64.le_iff_toNat_le.mp hge'
  have hlength := r.length_bytes
  rw [Region.read_eq _ (by rw [Region.top_write]; omega), Region.read_eq _ (by omega),
    Region.bytes_write _ _ _ (by omega)]
  refine slice_splice_apart (by omega) ?_
  rw [UInt64.toNat_sub_of_le _ _ hge, UInt64.toNat_sub_of_le _ _ hge']
  omega

theorem Memory.read?_write (h : mem.Holds a bs.length) : (mem.write a bs).read? a bs.length = some bs := by
  unfold Memory.write Memory.read?
  cases hs : mem.stack.place? a bs.length with
  | some o =>
    dsimp only
    rw [Region.place?_write, hs]
    exact congrArg some (Region.read_write hs)
  | none =>
    cases hh : mem.heap.place? a bs.length with
    | some o =>
      dsimp only
      rw [hs, Region.place?_write, hh]
      exact congrArg some (Region.read_write hh)
    | none =>
      rcases h with h | h
      · rw [← Region.place?_isSome, hs] at h
        cases h
      · rw [← Region.place?_isSome, hh] at h
        cases h

theorem Memory.read?_write_apart (h : (a.toNat + bs.length : Int) ≤ b.toNat ∨ b.toNat + k ≤ a.toNat) :
    (mem.write a bs).read? b k = mem.read? b k := by
  unfold Memory.write
  split
  · rename_i o ho
    unfold Memory.read?
    dsimp only
    rw [Region.place?_write]
    cases hp : mem.stack.place? b k with
    | some p => exact congrArg some (Region.read_write_apart ho hp h)
    | none => rfl
  · split
    · rename_i o ho
      unfold Memory.read?
      dsimp only
      rw [Region.place?_write]
      cases mem.stack.place? b k with
      | some p => rfl
      | none =>
        cases hp : mem.heap.place? b k with
        | some p => exact congrArg some (Region.read_write_apart ho hp h)
        | none => rfl
    · rfl

theorem readWord?_cell (hn : bs.length = 1 ∨ bs.length = 2 ∨ bs.length = 4 ∨ bs.length = 8) :
    readWord? bs = some (ofLittleEndian bs).toUInt64 := by
  unfold readWord?
  obtain hn | hn | hn | hn := hn <;> rw [hn]
  · rfl
  · rfl
  · rfl
  · have hall : bs.take 8 = bs := List.take_of_length_le hn.le
    exact congrArg (fun bs ↦ some (ofLittleEndian bs).toUInt64) hall

theorem wordBytes?_cell (hn : n = 1 ∨ n = 2 ∨ n = 4 ∨ n = 8) (x : UInt64) :
    wordBytes? n x = some (littleEndian n x.toNat) := by
  obtain rfl | rfl | rfl | rfl := hn <;> rfl

theorem cellSize?_int {bits : Nat} : cellSize? (.int bits) = some n ↔
    n = byteWidth bits ∧ (n = 1 ∨ n = 2 ∨ n = 4 ∨ n = 8) := by
  unfold cellSize?
  dsimp only
  split
  · rename_i hn
    rw [Option.some.injEq]
    exact ⟨fun h ↦ h ▸ ⟨rfl, hn⟩, fun h ↦ h.1.symm⟩
  · rename_i hn
    constructor
    · rintro ⟨⟩
    · rintro ⟨rfl, h⟩
      exact absurd h hn

theorem cellSize?_cases (ht : cellSize? t = some n) : n = 1 ∨ n = 2 ∨ n = 4 ∨ n = 8 := by
  cases t with
  | int bits => exact (cellSize?_int.mp ht).2
  | float | double | pointer =>
    cases ht
    omega
  | _ => cases ht

theorem loaded_stored (ht : cellSize? t = some n) (v : UInt64) : loaded t (littleEndian n (stored t v).toNat) =
    cut t v := by
  cases t with
  | int bits =>
    obtain ⟨rfl, hn⟩ := cellSize?_int.mp ht
    unfold byteWidth at hn ⊢
    exact signExtend_bytes v (by omega) (by omega)
  | float =>
    cases ht
    show (ofLittleEndian (littleEndian 4 v.toNat)).toUInt64 = zeroExtend v 32
    rw [← UInt64.toBitVec_inj, toBitVec_zeroExtend, ofLittleEndian_littleEndian]
    apply BitVec.eq_of_toNat_eq
    simp
  | double | pointer =>
    cases ht
    exact ofLittleEndian_word v
  | _ => cases ht

theorem store_cell (ht : cellSize? t = some n) (hm : e.memory.Holds a n) (v : UInt64) :
    (store m trace a t v).run.run e =
      (.ok (), { e with memory := e.memory.write a (littleEndian n (stored t v).toNat) }) := by
  have hn := cellSize?_cases ht
  have hwrite : ∀ w : UInt64, (writePattern trace a n w).run.run e =
      (.ok (), { e with memory := e.memory.write a (littleEndian n w.toNat) }) := by
    intro w
    have hmaps := Memory.maps_iff.mpr hm
    have hneed : (needBytes trace a n).run.run e = (.ok (), e) := by
      unfold needBytes
      rw [run_bind_ok run_get, if_pos hmaps]
      rfl
    unfold writePattern
    rw [run_bind_ok hneed, wordBytes?_cell hn]
    exact writeBytes_mapped (by rwa [littleEndian_length])
  unfold store
  cases t with
  | int bits =>
    obtain ⟨rfl, -⟩ := cellSize?_int.mp ht
    exact hwrite (zeroExtend v bits)
  | float | double | pointer =>
    cases ht
    exact hwrite v
  | _ => cases ht

theorem load_bytes (ht : cellSize? t = some n) (hr : e.memory.read? a n = some bs) :
    (load m trace a t).run.run e = (.ok (loaded t bs), e) := by
  have hread : (readPattern trace a n).run.run e = (.ok (ofLittleEndian bs).toUInt64, e) := by
    have hlength := Memory.length_read? hr
    unfold readPattern
    rw [run_bind_ok (readBytes_eq hr), readWord?_cell (hlength ▸ cellSize?_cases ht)]
    rfl
  unfold load
  cases t with
  | int bits =>
    obtain ⟨rfl, -⟩ := cellSize?_int.mp ht
    dsimp only
    rw [run_bind_ok hread]
    rfl
  | float | double | pointer =>
    cases ht
    exact hread
  | _ => cases ht

theorem load_store (ht : cellSize? t = some n) (hm : e.memory.Holds a n) (v : UInt64) :
    (load m trace a t).run.run { e with memory := e.memory.write a (littleEndian n (stored t v).toNat) } =
      (.ok (cut t v), { e with memory := e.memory.write a (littleEndian n (stored t v).toNat) }) := by
  have hm' : e.memory.Holds a (littleEndian n (stored t v).toNat).length := by rwa [littleEndian_length]
  have hread := Memory.read?_write hm'
  rw [littleEndian_length] at hread
  rw [← loaded_stored ht]
  exact load_bytes ht hread

/-! ### Integers -/

theorem signExtend_eq_bits (v : UInt64) (h0 : 0 < n) (h : n ≤ 64) :
    signExtend v n = ⟨(v.toBitVec.setWidth n).signExtend 64⟩ := by
  rcases Nat.lt_or_eq_of_le h with hlt | rfl
  · exact UInt64.toBitVec_inj.mp (toBitVec_signExtend_of_lt v h0 hlt)
  · rw [signExtend_of_outside v (.inr le_rfl), BitVec.setWidth_eq, BitVec.signExtend_eq]

theorem readPattern_odd (hn : n = 3 ∨ 4 < n ∧ n < 8) (hm : e.memory.Holds a n) :
    (readPattern trace a n).run.run e = (.error .meaningless, e) := by
  obtain ⟨bs, hbs⟩ := Option.isSome_iff_exists.mp (Memory.read?_isSome.mpr hm)
  have hlength := Memory.length_read? hbs
  have hword : readWord? bs = none := by
    unfold readWord?
    rw [hlength]
    split <;> first | omega | exact if_pos (by omega)
  unfold readPattern
  rw [run_bind_ok (readBytes_eq hbs), hword]
  rfl

theorem writePattern_odd (hn : n = 3 ∨ 4 < n ∧ n < 8) (hm : e.memory.Holds a n) (v : UInt64) :
    (writePattern trace a n v).run.run e = (.error .meaningless, e) := by
  have hmaps := Memory.maps_iff.mpr hm
  have hneed : (needBytes trace a n).run.run e = (.ok (), e) := by
    unfold needBytes
    rw [run_bind_ok run_get, if_pos hmaps]
    rfl
  have hword : wordBytes? n v = none := by
    unfold wordBytes?
    split <;> first | omega | exact if_pos (by omega)
  unfold writePattern
  rw [run_bind_ok hneed, hword]
  rfl

/-- Integers of up to 64 bits in memory. Where one takes one, two, four or eight bytes, a store of a pattern succeeds, a
load after it gives the lowest bits with their sign, and no byte outside the range changes. Where it takes any other
number of bytes, neither a store nor a load has a meaning, though all of the range is in use. -/
theorem integers_stored {n : Nat} (h0 : 0 < n) (h : n ≤ 64) (hm : e.memory.Holds a (byteWidth n)) (v : UInt64) :
    (byteWidth n ∈ [1, 2, 4, 8] → ∃ d, (store m trace a (.int n) v).run.run e = (.ok (), d) ∧
      (load m trace a (.int n)).run.run d = (.ok ⟨(v.toBitVec.setWidth n).signExtend 64⟩, d) ∧
      ∀ (b : UInt64) (k : Int), a.toNat + byteWidth n ≤ b.toNat ∨ b.toNat + k ≤ a.toNat →
        d.memory.read? b k = e.memory.read? b k) ∧
    (byteWidth n ∉ [1, 2, 4, 8] → (store m trace a (.int n) v).run.run e = (.error .meaningless, e) ∧
      (load m trace a (.int n)).run.run e = (.error .meaningless, e)) := by
  constructor
  · intro hw
    have ht : cellSize? (.int n) = some (byteWidth n) := cellSize?_int.mpr ⟨rfl, by simpa using hw⟩
    refine ⟨_, store_cell ht hm v, ?_, fun b k hb ↦ Memory.read?_write_apart ?_⟩
    · rw [load_store ht hm v, cut, signExtend_eq_bits v h0 h]
    · rw [littleEndian_length]
      omega
  · intro hw
    have hodd : byteWidth n = 3 ∨ 4 < byteWidth n ∧ byteWidth n < 8 := by
      simp only [List.mem_cons, List.not_mem_nil, or_false, not_or] at hw
      unfold byteWidth at hw ⊢
      omega
    refine ⟨writePattern_odd hodd hm _, ?_⟩
    unfold load
    exact run_bind_error (readPattern_odd hodd hm)

end

/-- The pattern of 5000 is stored in twelve bits and loaded as 904. -/
theorem integers_stored_twelve : let e := (Engine.alloc 8 {}).2
    e.memory.Holds 0x10000 (byteWidth 12) ∧ ∃ d, (store pairModule [] 0x10000 (.int 12) 5000).run.run e = (.ok (), d) ∧
      (load pairModule [] 0x10000 (.int 12)).run.run d = (.ok 904, d) := by
  have hm : (Engine.alloc 8 {}).2.memory.Holds 0x10000 (byteWidth 12) := Memory.maps_iff.mp (by decide +kernel)
  obtain ⟨d, hstore, hload, -⟩ := (@integers_stored pairModule [] _ _ _ (by decide) (by decide) hm 5000).1 (by decide)
  exact ⟨hm, d, hstore, hload⟩

/-- An integer of 24 bits has a layout of three bytes, and all three are in use, but it can be neither stored nor
loaded. -/
theorem three_bytes_meaningless : let e := (Engine.alloc 8 {}).2
    Layouts.LaidOut pairModule .host (.int 24) (.scalar 3) ∧ e.memory.Holds 0x10000 (byteWidth 24) ∧
      ((store pairModule [] 0x10000 (.int 24) 5).run.run e).1 = .error .meaningless ∧
      ((load pairModule [] 0x10000 (.int 24)).run.run e).1 = .error .meaningless := by
  refine ⟨⟨1, by decide⟩, Memory.maps_iff.mp (by decide +kernel), ?_, ?_⟩ <;> decide +kernel

end CilSsa.Machine

