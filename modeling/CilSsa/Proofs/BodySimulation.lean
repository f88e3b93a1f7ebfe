import CilSsa.Proofs.FrameSetup
import CilSsa.Proofs.SlotRefinement

namespace CilSsa.Lowering

open CilSsa.Bytecode CilSsa.Metadata CilSsa.SlotMachine
open CilSsa.Number (pattern)
open CilSsa.Ssa (FuncId Function)
open CilSsa.StackMachine (State)

theorem run_more {code : List Instruction} {n : Nat} {st : State} {r : Int32} (h : StackMachine.run code n st = some r)
    (m : Nat) : StackMachine.run code (n + m) st = some r := by
  induction n generalizing st with
  | zero => cases h
  | succ n ih =>
    rw [StackMachine.run] at h
    rw [Nat.add_right_comm, StackMachine.run]
    split <;> rename_i hs <;> rw [hs] at h
    · exact ih h
    · exact h
    · exact h

theorem blockOf_inside {spans : List Bytecode.Span} {o : Nat} (h : ∃ sp ∈ spans, sp.start = o) :
    ∃ j sp, spans[j]? = some sp ∧ sp.start = o ∧ blockOf spans o = j + 1 := by
  obtain ⟨sp, hsp, hstart⟩ := h
  cases hj : spans.findIdx? (fun sp ↦ sp.start == o) with
  | none =>
    have := List.findIdx?_eq_none_iff.mp hj sp hsp
    simp [hstart] at this
  | some j =>
    obtain ⟨hlt, hp, -⟩ := List.findIdx?_eq_some_iff_getElem.mp hj
    exact ⟨j, spans[j], List.getElem?_eq_getElem hlt, by simpa using hp, by rw [blockOf, hj]; rfl⟩

section

variable {plan : Plan} {base : Nat} {E : List (Nat × List Ty)} {spans : List Bytecode.Span} {code : List Instruction}
  {fill : FuncId} {F : Function} {n l : Nat} {values : Nat → Option Datum} {σ σ' : Store} {st st' : State}

theorem Entered.next {sp sp' : Bytecode.Span} {ts : List Ty} (h : Entered plan base E sp (σ.reenter values) st)
    (hbelow : ∀ k ∈ plan.slots, k < base) (hl : Later plan.slots (σ.reenter values) σ')
    (hst : Stored plan σ' st'.stack st'.args st'.locals) (hts : E.lookup st'.pc = some ts)
    (hlen : ts.length = st'.stack.length) (hpc : sp'.start = st'.pc) :
    Entered plan base E sp' (σ'.reenter values) st' := by
  refine ⟨hpc.symm, ⟨h.stored.places, hst.cursor, hst.buffer, hst.args, hst.locals⟩, ⟨ts, by rw [hpc]; exact hts, hlen⟩,
    ?_⟩
  intro k hk
  obtain ⟨hvalue, hslot⟩ := h.fresh k hk
  refine ⟨hvalue, (hl.slots k fun hmem ↦ ?_).trans hslot⟩
  have := hbelow k hmem
  omega

theorem returns_of_run (h : Realises plan base E spans code fill F n l) {args : List UInt64} {m : Nat} {r : Int32}
    {j : Nat} {sp : Bytecode.Span} (hj : spans[j]? = some sp) (hst : Entered plan base E sp (σ.reenter values) st)
    (hr : StackMachine.run code m st = some r) :
    ∃ N, Returns F fill args values (j + 1) σ N (.word (pattern r)) σ.height := by
  induction m using Nat.strongRecOn generalizing j sp σ st with
  | ind m ih =>
    obtain ⟨k, o, σ', B, hpos, hleads, hinside, hB, hl, hexit⟩ := h.blocks j sp hj args (σ.reenter values) st hst
    cases hexit with
    | done hblock =>
      rename_i r'
      have hsame : r' = r := by
        have := hleads m
        rw [Nat.add_comm, run_more hr] at this
        exact (Option.some.inj this).symm
      subst hsame
      have hheight : σ'.height = σ.height := hl.height
      rw [← hheight]
      exact ⟨_, .done hB hblock⟩
    | goto hblock hstored hts hlen =>
      rename_i st' ts
      obtain ⟨j', sp', hj', hpc, hnum⟩ := blockOf_inside (hinside st' rfl)
      rw [hnum] at hblock
      -- fewer steps than the block takes would not be enough
      obtain ⟨m', rfl⟩ : ∃ m', m = k + m' := by
        refine ⟨m - k, ?_⟩
        by_contra hlt
        have hle : m ≤ k := by omega
        obtain ⟨d, rfl⟩ := Nat.exists_eq_add_of_le hle
        have := hleads 0
        rw [Nat.add_zero, run_more hr] at this
        cases this
      rw [hleads] at hr
      obtain ⟨N, hN⟩ := ih m' (by omega) hj' (hst.next h.below hl hstored hts hlen hpc) hr
      have hheight : σ'.height = σ.height := hl.height
      rw [hheight] at hN
      exact ⟨_, .goto hB hblock (Nat.succ_ne_zero j') hN⟩

theorem result_of_returns (h : Realises plan base E spans code fill F n l) {xs : List Int32} (hxs : xs.length = n)
    {r : Int32} (hr : StackMachine.Returns code (State.start xs l) r) :
    ∃ N, Result F fill (xs.map pattern) N (.word (pattern r)) (frameHeight plan.room (n + l)) := by
  obtain ⟨m, hm⟩ := hr
  obtain ⟨B, σ, sp, hB, hblock, hsp, hst, hheight⟩ := h.first xs hxs
  have hst' : Entered plan base E sp (σ.reenter σ.values) (State.start xs l) := hst
  obtain ⟨N, hN⟩ := returns_of_run h hsp hst' hm
  rw [← hheight]
  exact ⟨_, B, σ, 1, N, hB, hblock, Nat.one_ne_zero, hN, rfl⟩

theorem ended_more {module : Ssa.Module} {frames : List Machine.Frame} {e e' : Machine.Engine} {out : Machine.Outcome}
    {fuel : Nat} (h : Machine.run module fuel frames e = (out, e')) (hout : out ≠ .outOfFuel) (more : Nat) :
    Machine.run module (fuel + more) frames e = (out, e') := by
  induction fuel generalizing frames e with
  | zero => exact absurd (Prod.mk.inj h).1.symm hout
  | succ fuel ih =>
    rw [Machine.run] at h
    rw [Nat.add_right_comm, Machine.run]
    split <;> rename_i hs <;> rw [hs] at h
    · exact ih h
    · exact h
    · exact h

variable {module : Ssa.Module} {places : Nat → Nat} {args : List UInt64} {fr : Machine.Frame} {e e' : Machine.Engine}
  {v : Machine.Returned} {fuel : Nat}

theorem block_length_pos {ks : List Nat} {x : Exit} (h : Block F fill args ks σ x σ') : 0 < ks.length := by
  obtain ⟨line, k, i, ts, ds, rfl, -⟩ := h
  simp

theorem returns_of_engine (h : Realises plan base E spans code fill F n l) (hF : module.function? F.id = some F)
    (hfill : ∀ (k : Nat) (i : Ssa.Instr), F.instrs[k]? = some i → i.callee = some fill →
      ∃ g, module.function? fill = some g ∧ g.name = Ssa.memsetName)
    (hret : F.ret.isStruct = false) (hsmall : σ.height < 2 ^ 63) {j : Nat} {sp : Bytecode.Span} {B : Ssa.Block}
    (hj : spans[j]? = some sp) (hst : Entered plan base E sp (σ.reenter values) st) (hB : Backed places σ e)
    (hfr : Framed F args places (σ.reenter values) fr) (hbl : F.blocks[j + 1]? = some B) (hrest : fr.rest = B.instrs)
    (hfn : fr.fn = F.id) (hrun : Machine.run module fuel [fr] e = (.returned v, e')) :
    ∃ r, StackMachine.Returns code st r ∧ v = ⟨pattern r, []⟩ := by
  induction fuel using Nat.strongRecOn generalizing j sp σ st places fr e B with
  | ind fuel ih =>
    obtain ⟨k, o, σ', C, hpos, hleads, hinside, hC, hl, hexit⟩ := h.blocks j sp hj args (σ.reenter values) st hst
    obtain rfl : B = C := Option.some.inj (hbl.symm.trans hC)
    have hheight : σ'.height = (σ.reenter values).height := hl.height
    have hsmall' : σ'.height < 2 ^ 63 := by
      rw [hheight]
      exact hsmall
    cases hexit with
    | done hblock =>
      rename_i r
      obtain ⟨e'', hdone, -⟩ :=
        (run_ret hF hfill hblock (hB.reenter values) hfr hrest hfn hret hsmall').1 (.inr hheight)
      have hmore := ended_more hrun nofun B.instrs.length
      rw [hdone _ (by omega)] at hmore
      cases hmore
      exact ⟨r, ⟨k, hleads 0⟩, rfl⟩
    | goto hblock hstored hts hlen =>
      rename_i st' ts
      obtain ⟨j', sp', hj', hpc, hnum⟩ := blockOf_inside (hinside st' rfl)
      rw [hnum] at hblock
      have hst' := hst.next h.below hl hstored hts hlen hpc
      obtain ⟨k', o', σ₂, B', -, -, -, hB', -⟩ := h.blocks j' sp' hj' args (σ'.reenter values) st' hst'
      obtain ⟨places', fr', e₁, hreach⟩ :=
        (run_goto hF hfill hblock (hB.reenter values) hfr hrest hB' hsmall').1 (.inr hheight)
      have hlength := block_length_pos hblock
      -- with less fuel than the block takes the run would not end
      obtain ⟨fuel', rfl⟩ : ∃ fuel', fuel = B.instrs.length + fuel' := by
        refine ⟨fuel - B.instrs.length, ?_⟩
        by_contra hlt
        obtain ⟨d, hd⟩ := Nat.exists_eq_add_of_le (show fuel ≤ B.instrs.length by omega)
        have hmore := ended_more hrun nofun d
        rw [← hd, ← Nat.add_zero B.instrs.length, hreach.run] at hmore
        cases hmore
      rw [hreach.run] at hrun
      obtain ⟨r, ⟨m, hm⟩, hv⟩ := ih fuel' (by omega) hsmall' hj' hst' hreach.backed
        (hreach.framed.reenter fun i d hi ↦ hblock.values hi) hB' hreach.rest (hreach.fn.trans hfn) hrun
      exact ⟨r, ⟨k + m, (hleads m).trans hm⟩, hv⟩

theorem returns_of_call (h : Realises plan base E spans code fill F n l) (hF : module.function? F.id = some F)
    (hfill : ∀ (k : Nat) (i : Ssa.Instr), F.instrs[k]? = some i → i.callee = some fill →
      ∃ g, module.function? fill = some g ∧ g.name = Ssa.memsetName)
    (hret : F.ret.isStruct = false) (hsmall : 4 * plan.room + 16 + 16 * (n + l) < 2 ^ 63) (he : Idle e)
    {xs : List Int32} (hxs : xs.length = n) {B : Ssa.Block} (hB : F.blocks[0]? = some B)
    (hrun : Machine.run module fuel [entryFrame F (xs.map pattern) B] e = (.returned v, e')) :
    ∃ r, StackMachine.Returns code (State.start xs l) r ∧ v = ⟨pattern r, []⟩ := by
  obtain ⟨C, σ, sp, hC, hblock, hsp, hst, hheight⟩ := h.first xs hxs
  obtain rfl : B = C := Option.some.inj (hB.symm.trans hC)
  obtain ⟨k', o', σ₂, B', -, -, -, hB', -⟩ := h.blocks 0 sp hsp (xs.map pattern) σ _ hst
  have hsmall' : σ.height < 2 ^ 63 := by
    have hle := frameHeight_le plan.room (n + l)
    omega
  obtain ⟨hgood, hover⟩ := run_goto hF hfill hblock he.backed (entryFrame_framed F _ B) rfl hB' hsmall'
  by_cases hone : σ.height ≤ e.limits.stackSize ∨ σ.height = ({} : Store).height
  · obtain ⟨places', fr', e₁, hreach⟩ := hgood hone
    have hmore := ended_more hrun nofun B.instrs.length
    rw [Nat.add_comm, hreach.run] at hmore
    have hst' : Entered plan base E sp (σ.reenter σ.values) (State.start xs l) := hst
    exact returns_of_engine h hF hfill hret hsmall' hsp hst' hreach.backed (hreach.framed.reenter fun _ _ hi ↦ hi) hB'
      hreach.rest hreach.fn hmore
  · obtain ⟨f, e'', hfault, -, -⟩ := hover hone
    have hmore := ended_more hrun nofun B.instrs.length
    rw [hfault _ (by omega)] at hmore
    cases hmore

end

end CilSsa.Lowering

