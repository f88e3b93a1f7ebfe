import CilSsa.Machine.Engine
import CilSsa.Proofs.Memory
import CilSsa.Proofs.SlotMachine
import CilSsa.Proofs.Words

namespace CilSsa.Machine

open CilSsa.Ssa CilSsa.Number CilSsa.Text CilSsa.SlotMachine

section
variable {α β : Type} {e e' : Engine} {a : α} {s : Stop} {c : Run α} {f : α → Run β}

theorem run_bind_ok (h : c.run.run e = (.ok a, e')) : (c >>= f).run.run e = (f a).run.run e' := by
  show (ExceptT.bindCont f (c.run.run e).1).run (c.run.run e).2 = _
  rw [h]
  rfl

theorem run_bind_error (h : c.run.run e = (.error s, e')) : (c >>= f).run.run e = (.error s, e') := by
  show (ExceptT.bindCont f (c.run.run e).1).run (c.run.run e).2 = _
  rw [h]
  rfl

theorem run_get : (get : Run Engine).run.run e = (.ok e, e) := rfl

end

/-- Engines that differ at most in what they remember of layouts, and remember nothing wrong. -/
structure Engine.Asked (e e' : Engine) : Prop where
  limits : e'.limits = e.limits
  memory : e'.memory = e.memory
  addressed : e'.addressed = e.addressed
  closed : e'.closed = e.closed
  layouts : e'.layouts.Plain

variable (m : Module) (trace : List String) {e : Engine}

theorem sizeOf_run (he : e.layouts.Plain) {t : Ty} {l : Layout} (ht : scalarLayout? t = some l) :
    ∃ e', e.Asked e' ∧ (sizeOf m trace t).run.run e = (.ok l.size, e') := by
  obtain ⟨hl, hp⟩ := he.of m ht
  refine ⟨{ e with layouts := (e.layouts.of m t).2 }, ⟨rfl, rfl, rfl, rfl, hp⟩, ?_⟩
  have hs : e.layouts.sizeOf m t = (.ok l.size, (e.layouts.of m t).2) := by
    simp only [Layouts.sizeOf, hl]
    rfl
  unfold sizeOf
  rw [run_bind_ok run_get, hs]
  rfl

theorem stackAlloc_run (he : e.layouts.Plain) {t : Ty} {l : Layout} (ht : scalarLayout? t = some l)
    {count start stop : Nat} (hstart : Region.alignUp e.memory.stack.top l.align = start)
    (hstop : start + l.size * count = stop) (hsmall : stop < 2 ^ 63) :
    ∃ e', e.Asked e' ∧ (stackAlloc m trace t count).run.run e =
      if stop ≤ e.limits.stackSize then
        (.ok (e.memory.stack.base + start.toUInt64),
          { e' with memory := { e.memory with stack := e.memory.stack.grow stop } })
      else (.error (.fault ⟨.stackOverflow, "stack exhausted allocating " ++ toString (count : Int) ++ " x " ++ t.text,
        trace⟩), e') := by
  obtain ⟨e', ha, hrun⟩ := sizeOf_run m trace he ht
  refine ⟨e', ha, ?_⟩
  have halign : (e'.layouts.alignOf m t).1.toOption.getD 1 = l.align := by
    simp only [Layouts.alignOf, (ha.layouts.of m ht).1]
    rfl
  subst hstart hstop
  have hsize : wrapInt ((l.size : Int) * count) = (l.size * count : Nat) := by
    rw [← Int.natCast_mul]
    exact wrapInt_of_lt (by omega)
  have hroom : e'.memory.stack.room (wrapInt ((l.size : Int) * count)) ((e'.layouts.alignOf m t).1.toOption.getD 1)
      e'.limits.stackSize = e.memory.stack.room (l.size * count : Nat) l.align e.limits.stackSize := by
    rw [halign, hsize, ha.memory, ha.limits]
  rw [Region.room_eq (by omega)] at hroom
  unfold stackAlloc
  rw [run_bind_ok hrun, run_bind_ok run_get]
  unfold takeStack
  rw [run_bind_ok run_get, hroom]
  by_cases hlim : ((Region.alignUp e.memory.stack.top l.align + l.size * count : Nat) : Int) ≤ e.limits.stackSize
  · rw [if_pos hlim, if_pos hlim, ← ha.memory]
    rfl
  · rw [if_neg hlim, if_neg hlim]
    rfl

def Kept (w : Nat) (v : UInt64) : Prop := w = 4 → signExtend v 32 = v

section

variable (hm : e.memory.stack.base.toNat + e.memory.stack.top < 2 ^ 64) {o n : Nat} (h : o + n ≤ e.memory.stack.top)

include hm h

theorem readBytes_run :
    (readBytes trace (e.memory.stack.base + o.toUInt64) n).run.run e = (.ok (slice e.memory.stack.bytes o n), e) := by
  unfold readBytes
  rw [run_bind_ok run_get, Memory.read?_stack hm h]
  rfl

theorem needBytes_run : (needBytes trace (e.memory.stack.base + o.toUInt64) n).run.run e = (.ok (), e) := by
  unfold needBytes
  rw [run_bind_ok run_get, Memory.maps_stack hm h]
  rfl

end

theorem writeBytes_run (hm : e.memory.stack.base.toNat + e.memory.stack.top < 2 ^ 64) {o : Nat} (bs : Bytes)
    (h : o + bs.length ≤ e.memory.stack.top) :
    (writeBytes trace (e.memory.stack.base + o.toUInt64) bs).run.run e =
      (.ok (), { e with memory := { e.memory with stack := e.memory.stack.write o bs } }) := by
  unfold writeBytes
  rw [run_bind_ok (needBytes_run trace hm h), ← Memory.write_stack hm h]
  rfl

theorem width?_cases {t : Ty} {w : Nat} (h : width? t = some w) : t = .int 32 ∧ w = 4 ∨
    (∃ t', t = .pointer t') ∧ w = 8 := by
  unfold width? at h
  split at h <;> cases h
  · exact .inl ⟨rfl, rfl⟩
  · exact .inr ⟨⟨_, rfl⟩, rfl⟩

section

variable (hm : e.memory.stack.base.toNat + e.memory.stack.top < 2 ^ 64) {t : Ty} {w : Nat} (ht : width? t = some w)
  {o : Nat} (h : o + w ≤ e.memory.stack.top)

include hm ht h

theorem load_run {v : UInt64} (hv : slice e.memory.stack.bytes o w = littleEndian w v.toNat) (hk : Kept w v) :
    (load m trace (e.memory.stack.base + o.toUInt64) t).run.run e = (.ok v, e) := by
  have hbytes := readBytes_run trace hm h
  rw [hv] at hbytes
  obtain ⟨rfl, rfl⟩ | ⟨⟨t', rfl⟩, rfl⟩ := width?_cases ht
  · have hread : (readPattern trace (e.memory.stack.base + o.toUInt64) 4).run.run e =
        (.ok (ofLittleEndian (littleEndian 4 v.toNat)).toUInt64, e) := by
      unfold readPattern
      rw [run_bind_ok hbytes]
      rfl
    unfold load
    change (do return signExtend (← readPattern trace (e.memory.stack.base + o.toUInt64) 4) 32 : Run UInt64).run.run e =
      _
    rw [run_bind_ok hread, signExtend_ofLittleEndian, hk rfl]
    rfl
  · unfold load readPattern
    dsimp only
    rw [run_bind_ok hbytes]
    have hw : readWord? (littleEndian 8 v.toNat) = some v := by
      simp only [readWord?, littleEndian_length]
      rw [if_neg (by decide), List.take_of_length_le (Nat.le_of_eq (littleEndian_length 8 _)), ofLittleEndian_word]
    rw [hw]
    rfl

theorem store_run (v : UInt64) : (store m trace (e.memory.stack.base + o.toUInt64) t v).run.run e =
    (.ok (), { e with memory := { e.memory with stack := e.memory.stack.write o (littleEndian w v.toNat) } }) := by
  have hneed := needBytes_run trace hm h
  have hwrite := writeBytes_run trace hm (littleEndian w v.toNat) (by rwa [littleEndian_length])
  obtain ⟨rfl, rfl⟩ | ⟨⟨t', rfl⟩, rfl⟩ := width?_cases ht
  · unfold store
    change (writePattern trace (e.memory.stack.base + o.toUInt64) 4 (zeroExtend v 32)).run.run e = _
    unfold writePattern
    rw [run_bind_ok hneed]
    change (writeBytes trace (e.memory.stack.base + o.toUInt64) (littleEndian 4 (zeroExtend v 32).toNat)).run.run e = _
    rw [littleEndian_zeroExtend, hwrite]
  · unfold store writePattern
    dsimp only
    rw [run_bind_ok hneed]
    exact hwrite

end

end CilSsa.Machine

