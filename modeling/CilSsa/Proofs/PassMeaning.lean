import CilSsa.Proofs.SlotMachine
import CilSsa.Proofs.Words
import CilSsa.Proofs.PassRuns

namespace CilSsa.FlowMachine

open CilSsa.Ssa
open CilSsa.Number (signExtend zeroExtend)
open CilSsa.SlotMachine (Datum Slot Store Leaves sum)
open CilSsa.Machine (byteWidth)

/-- A pattern of an integer type is extended from its width, and an address is a pointer or a 64-bit number. -/
def suits : Datum → Ty → Bool
  | .word v, .int n => signExtend v n = v
  | .word _, _ => true
  | .place .., .int n => n = 64
  | .place .., .pointer _ => true
  | .place .., _ => false

/-- What was computed, and what is in the variables and in the other slots. -/
structure State extends Store where
  vars : Nat → Option Datum := fun _ ↦ none

namespace State

variable (σ : State)

def define (k : Nat) (d : Datum) : State := { σ with values := fun j ↦ if j = k then some d else σ.values j }

def setVar (s : Nat) (d : Datum) : State := { σ with vars := fun j ↦ if j = s then some d else σ.vars j }

def allocate (s : Nat) (l : Layout) : State :=
  { σ.setVar s (.word 0) with height := Machine.Region.alignUp σ.height l.align + l.size }

/-- The slots and what was computed by others than instruction `k`, which computes anew. -/
def forget (k : Nat) : Store := { σ.toStore with values := fun j ↦ if j = k then none else σ.values j }

end State

/-- The datum of an operand in function `fn`; a variable has no address. -/
def datum (fn : FuncId) (plain : Nat → Bool) (args : List UInt64) (σ : State) (v : Value) : Option Datum :=
  (match v with
    | .instr id _ => if id.fn = fn ∧ plain id.index = false then σ.values id.index else none
    | .param _ i _ => (args[i]?).map .word
    | .func .. => none
    | .const c _ => some (.word (c.bits?.getD 0))).filter (suits · v.type)

/-- What an instruction without effects computes from data of the given types. -/
def computed (i : Instr) (ts : List Ty) (ds : List Datum) : Option Datum :=
  match i.op, ts, ds with
  | .add, [t, t'], [a, b] => if i.type.isInt ∧ t = i.type ∧ t' = i.type then sum i.type a b else none
  | .sub, [t, t'], [.word a, .word b] =>
    if i.type.isInt ∧ t = i.type ∧ t' = i.type then some (.word (signExtend (a - b) i.type.bits)) else none
  | .mul, [t, t'], [.word a, .word b] =>
    if i.type.isInt ∧ t = i.type ∧ t' = i.type then some (.word (signExtend (a * b) i.type.bits)) else none
  | .icmp, [t, t'], [.word a, .word b] =>
    if i.type = .i1 ∧ t = t' ∧ i.pred.isFloat = false then some (.word (boolBits (evalCompare i.pred t a b))) else none
  | .select, [c, t, t'], [.word v, a, b] =>
    if c = .i1 ∧ t = i.type ∧ t' = i.type then some (if isTrueBits v then a else b) else none
  | .trunc, [t], [.word a] | .sext, [t], [.word a] =>
    if t.isInt ∧ i.type.isInt then some (.word (signExtend a i.type.bits)) else none
  | .zext, [t], [.word a] =>
    if t.isInt ∧ i.type.isInt then some (.word (signExtend (zeroExtend a t.bits) i.type.bits)) else none
  | .ptrtoint, [t], [.place s o] => if t.isPointer ∧ i.type = .i64 then some (.place s o) else none
  | .inttoptr, [t], [.place s o] => if t = .i64 ∧ i.type.isPointer then some (.place s o) else none
  | .bitcast, [t], [.place s o] => if t.isPointer ∧ i.type.isPointer then some (.place s o) else none
  | _, _, _ => none

def accessible : Ty → Bool
  | .int n => byteWidth n = 1 ∨ byteWidth n = 2 ∨ byteWidth n = 4 ∨ 8 ≤ byteWidth n
  | .pointer _ => true
  | _ => false

section

variable (F : Function) (plain : Nat → Bool) (fill : FuncId) (args : List UInt64)

/-- The operands of an instruction are values `vs` with data `ds`. -/
structure Reads (σ : State) (i : Instr) (vs : List Value) (ds : List Datum) : Prop where
  operands : i.operands = vs.map some
  data : List.Forall₂ (fun v d ↦ datum F.id plain args σ v = some d) vs ds

/-- What instruction `k` does if it is no terminator, where the slots that are `plain` are variables and `fill` is the
function that clears memory. -/
inductive Act (σ : State) (k : Nat) (i : Instr) : State → Prop
  | var {l : Layout} : plain k = true → i.op = .alloca → i.operands = [] → scalarLayout? i.allocated = some l →
      Act σ k i (σ.allocate k l)
  | get {s : Nat} {t : Ty} {d : Datum} : i.op = .load → i.operands = [some (.instr ⟨F.id, s⟩ t)] → plain s = true →
      accessible i.type = true → σ.vars s = some d → Act σ k i (σ.define k d)
  | put {s : Nat} {t : Ty} {v : Value} {d d' : Datum} : i.op = .store →
      i.operands = [some v, some (.instr ⟨F.id, s⟩ t)] → plain s = true → accessible v.type = true →
      σ.vars s = some d' →
      datum F.id plain args σ v = some d → Act σ k i (σ.setVar s d)
  | compute {vs : List Value} {ds : List Datum} {d : Datum} : Reads F plain args σ i vs ds →
      computed i (vs.map Value.type) ds = some d → Act σ k i (σ.define k d)
  | memory {vs : List Value} {ds : List Datum} {μ : Store} : plain k = false →
      (i.op = .alloca ∨ i.op = .load ∨ i.op = .store ∨ i.op = .call) → Reads F plain args σ i vs ds →
      SlotMachine.Act fill i k (σ.forget k) (vs.map Value.type) ds μ → Act σ k i { μ with vars := σ.vars }

/-- From instructions `ks` of block `b` on the function gives `d` after `n` steps, with a stack of height `h` at its
end. -/
inductive Runs : Nat → List Nat → State → Nat → Datum → Nat → Prop
  | act {b k n h : Nat} {ks : List Nat} {σ σ' : State} {i : Instr} {d : Datum} : F.instr? k = some i →
      Act F plain fill args σ k i σ' → Runs b ks σ' n d h → Runs b (k :: ks) σ (n + 1) d h
  | goto {b b' k n h : Nat} {σ : State} {i : Instr} {vs : List Value} {ds : List Datum} {B : Block} {d : Datum} :
      F.instr? k = some i → Reads F plain args σ i vs ds → Leaves F.id i ds (.goto b') → F.blocks[b']? = some B →
      Runs b' B.instrs σ n d h → Runs b [k] σ (n + 1) d h
  | ret {b k : Nat} {σ : State} {i : Instr} {v : Value} {d : Datum} : F.instr? k = some i → i.op = .ret →
      Reads F plain args σ i [v] [d] → Runs b [k] σ 1 d σ.height

end

section

variable {F : Function} {plain : Nat → Bool} {fill : FuncId} {args : List UInt64} {σ σ' : State} {i : Instr} {k : Nat}
  {d : Datum} {v : Value}

theorem datum_suits (h : datum F.id plain args σ v = some d) : suits d v.type = true :=
    (Option.filter_eq_some_iff.mp h).2

/-- The ways in which something is computed. -/
inductive Computed (i : Instr) : List Ty → List Datum → Datum → Prop
  | add {n : Nat} {a b d : Datum} : i.op = .add → i.type = .int n → sum (.int n) a b = some d →
      Computed i [.int n, .int n] [a, b] d
  | sub {n : Nat} {a b : UInt64} : i.op = .sub → i.type = .int n →
      Computed i [.int n, .int n] [.word a, .word b] (.word (signExtend (a - b) n))
  | mul {n : Nat} {a b : UInt64} : i.op = .mul → i.type = .int n →
      Computed i [.int n, .int n] [.word a, .word b] (.word (signExtend (a * b) n))
  | icmp {t : Ty} {a b : UInt64} : i.op = .icmp → i.type = .i1 → i.pred.isFloat = false →
      Computed i [t, t] [.word a, .word b] (.word (boolBits (evalCompare i.pred t a b)))
  | select {v : UInt64} {a b : Datum} : i.op = .select →
      Computed i [.i1, i.type, i.type] [.word v, a, b] (if isTrueBits v then a else b)
  | cut {n n' : Nat} {a : UInt64} : i.op = .trunc ∨ i.op = .sext → i.type = .int n →
      Computed i [.int n'] [.word a] (.word (signExtend a n))
  | zext {n n' : Nat} {a : UInt64} : i.op = .zext → i.type = .int n →
      Computed i [.int n'] [.word a] (.word (signExtend (zeroExtend a n') n))
  | address {t : Ty} {s : Nat} {o : UInt64} : i.op = .ptrtoint ∧ t.isPointer = true ∧ i.type = .i64 ∨
      i.op = .inttoptr ∧ t = .i64 ∧ i.type.isPointer = true ∨
      i.op = .bitcast ∧ t.isPointer = true ∧ i.type.isPointer = true → Computed i [t] [.place s o] (.place s o)

theorem isInt_eq {t : Ty} (h : t.isInt = true) : ∃ n, t = .int n := by
  cases t <;> first | exact ⟨_, rfl⟩ | cases h

theorem computed_inv {ts : List Ty} {ds : List Datum} (h : computed i ts ds = some d) : Computed i ts ds d := by
  unfold computed at h
  split at h
  all_goals first | contradiction | split at h
  all_goals try contradiction
  · rename_i hop hc
    obtain ⟨hint, rfl, rfl⟩ := hc
    obtain ⟨n, hn⟩ := isInt_eq hint
    rw [hn] at h ⊢
    exact .add hop hn h
  · rename_i hop hc
    obtain ⟨hint, rfl, rfl⟩ := hc
    obtain ⟨n, hn⟩ := isInt_eq hint
    rw [hn] at h ⊢
    cases h
    exact .sub hop hn
  · rename_i hop hc
    obtain ⟨hint, rfl, rfl⟩ := hc
    obtain ⟨n, hn⟩ := isInt_eq hint
    rw [hn] at h ⊢
    cases h
    exact .mul hop hn
  · rename_i hop hc
    obtain ⟨ht, rfl, hp⟩ := hc
    cases h
    exact .icmp hop ht hp
  · rename_i hop hc
    obtain ⟨rfl, rfl, rfl⟩ := hc
    cases h
    exact .select hop
  · rename_i hop hc
    obtain ⟨⟨n', rfl⟩, n, hn⟩ := hc.imp isInt_eq isInt_eq
    rw [hn] at h
    cases h
    exact .cut (.inl hop) hn
  · rename_i hop hc
    obtain ⟨⟨n', rfl⟩, n, hn⟩ := hc.imp isInt_eq isInt_eq
    rw [hn] at h
    cases h
    exact .cut (.inr hop) hn
  · rename_i hop hc
    obtain ⟨⟨n', rfl⟩, n, hn⟩ := hc.imp isInt_eq isInt_eq
    rw [hn] at h
    cases h
    exact .zext hop hn
  · rename_i hop hc
    cases h
    exact .address (.inl ⟨hop, hc⟩)
  · rename_i hop hc
    cases h
    exact .address (.inr (.inl ⟨hop, hc⟩))
  · rename_i hop hc
    cases h
    exact .address (.inr (.inr ⟨hop, hc⟩))

theorem computed_op {ts : List Ty} {ds : List Datum} (h : computed i ts ds = some d) :
    i.op ≠ .alloca ∧ i.op ≠ .load ∧ i.op ≠ .store ∧ i.op ≠ .call := by
  cases computed_inv h with
  | add hop | sub hop | mul hop | icmp hop | select hop | zext hop => rw [hop]; decide
  | cut hop => rcases hop with hop | hop <;> rw [hop] <;> decide
  | address hop => rcases hop with ⟨hop, -⟩ | ⟨hop, -⟩ | ⟨hop, -⟩ <;> rw [hop] <;> decide

theorem computed_congr {i' : Instr} (hop : i'.op = i.op) (ht : i'.type = i.type) (hp : i'.pred = i.pred) (ts : List Ty)
    (ds : List Datum) : computed i' ts ds = computed i ts ds := by
  unfold computed
  rw [hop, ht, hp]

theorem Act.values (h : Act F plain fill args σ k i σ') {j : Nat} (hj : j ≠ k) : σ'.values j = σ.values j := by
  cases h with
  | var | put => rfl
  | get | compute => simp [State.define, hj]
  | memory _ _ hr h =>
    have hforget : (σ.forget k).values j = σ.values j := by simp [State.forget, hj]
    generalize List.map Value.type _ = ts at h
    cases h with
    | slot | buffer => simp [Store.allocate, Store.define, Store.setSlot, State.forget, hj]
    | load | pure => simp [Store.define, State.forget, hj]
    | store | clear => exact hforget

theorem datum_of_values (h : ∀ id t, v = .instr id t → id.fn = F.id → σ'.values id.index = σ.values id.index) :
    datum F.id plain args σ' v = datum F.id plain args σ v := by
  cases v with
  | instr id t =>
    unfold datum
    dsimp only
    split
    · rename_i hfn
      rw [h id t rfl hfn.1]
    · rfl
  | param | func | const => rfl

theorem Act.vars (h : Act F plain fill args σ k i σ') {s : Nat} (hk : s ≠ k)
    (hs : ∀ v t, i.op = .store → i.operands = [some v, some (.instr ⟨F.id, s⟩ t)] → False) : σ'.vars s = σ.vars s := by
  cases h with
  | var => simp [State.allocate, State.setVar, hk]
  | get | compute | memory => rfl
  | @put s' t v _ _ hop ho =>
    have hne : s ≠ s' := by
      rintro rfl
      exact hs v t hop ho
    simp [State.setVar, hne]

end

end CilSsa.FlowMachine

/-!
Passes keep what functions compute. Each step of a pass is followed on two runs side by side: the runs agree on all that
the function still computes, and a value that took the place of a result is the datum that the result had, wherever the
definition of that result dominates.
-/

namespace CilSsa.FlowMachine

open CilSsa.Ssa CilSsa.Passes
open CilSsa.Number (signExtend zeroExtend)
open CilSsa.SlotMachine (Datum Slot Store Leaves sum)

section laws

variable {m : Module} {dom : DomTree} {F : Function} {plain : Nat → Bool} {args : List UInt64} {σ : State}
  {b k : Nat} {i x : Instr} {v : Value} {vs : List Value} {ds : List Datum} {d : Datum}

theorem datum_of_bits {a : UInt64} (h : v.bits? = some a) (hd : datum F.id plain args σ v = some d) : d = .word a := by
  cases v with
  | const c o =>
    have h : c.bits? = some a := h
    obtain ⟨hv, -⟩ := Option.filter_eq_some_iff.mp hd
    simpa [h] using hv.symm
  | instr | param | func => cases h

theorem datum_of_int {t : Ty} {a : UInt64} (h : v.const? = some (.int t a)) (hd : datum F.id plain args σ v = some d) :
    d = .word a := datum_of_bits (by rw [Value.bits?, h]; rfl) hd

theorem datum_folded {n : Nat} {w : UInt64} {c : Const} {o : Origin} (h : Const.ofBits? (.int n) w = some c)
    (hw : signExtend w n = w) : datum F.id plain args σ (.const c o) = some (.word w) := by
  cases h
  simp [datum, Const.ofInt, Const.bits?, Value.type, Const.type, suits, Ty.bits, hw]

theorem Reads.head {x : Value} {rest : List (Option Value)} (hr : Reads F plain args σ i vs ds)
    (ho : i.operands = some x :: rest) : ∃ dx vs' ds', vs = x :: vs' ∧ ds = dx :: ds' ∧
    datum F.id plain args σ x = some dx ∧
      rest = vs'.map some ∧ List.Forall₂ (fun v d ↦ datum F.id plain args σ v = some d) vs' ds' := by
  obtain ⟨hvs, hdata⟩ := hr
  cases hdata with
  | nil =>
    rw [hvs] at ho
    cases ho
  | cons hx hrest =>
    rw [hvs] at ho
    cases ho
    exact ⟨_, _, _, rfl, rfl, hx, rfl, hrest⟩

theorem Reads.pair {x y : Value} {rest : List (Option Value)} (hr : Reads F plain args σ i vs ds)
    (ho : i.operands = some x :: some y :: rest) : ∃ dx dy vs' ds', vs = x :: y :: vs' ∧ ds = dx :: dy :: ds' ∧
      datum F.id plain args σ x = some dx ∧ datum F.id plain args σ y = some dy := by
  obtain ⟨dx, vs', ds', rfl, rfl, hx, hrest, hdata⟩ := hr.head ho
  cases hdata with
  | nil => cases hrest
  | cons hy _ =>
    cases hrest
    exact ⟨dx, _, _, _, rfl, rfl, hx, hy⟩

theorem Reads.triple {x y z : Value} {rest : List (Option Value)} (hr : Reads F plain args σ i vs ds)
    (ho : i.operands = some x :: some y :: some z :: rest) : ∃ dx dy dz vs' ds', vs = x :: y :: z :: vs' ∧
      ds = dx :: dy :: dz :: ds' ∧ datum F.id plain args σ x = some dx ∧ datum F.id plain args σ y = some dy ∧
      datum F.id plain args σ z = some dz := by
  obtain ⟨dx, vs', ds', rfl, rfl, hx, hrest, hdata⟩ := hr.head ho
  cases hdata with
  | nil => cases hrest
  | cons hy hdata =>
    simp only [List.map_cons, List.cons.injEq, Option.some.injEq] at hrest
    obtain ⟨rfl, hrest⟩ := hrest
    cases hdata with
    | nil => cases hrest
    | cons hz _ =>
      simp only [List.map_cons, List.cons.injEq, Option.some.injEq] at hrest
      obtain ⟨rfl, -⟩ := hrest
      exact ⟨dx, _, _, _, _, rfl, rfl, hx, hy, hz⟩

theorem computed_binary {ts : List Ty} (hbin : i.op.isBinary = true) (hc : computed i ts ds = some d) :
    ∃ n a a', ts = [.int n, .int n] ∧ ds = [a, a'] ∧ i.type = .int n ∧
      (i.op = .add ∧ sum (.int n) a a' = some d ∨ ∃ u w u', a = .word u ∧ a' = .word u' ∧ d = .word (signExtend w n) ∧
        (i.op = .sub ∧ w = u - u' ∨ i.op = .mul ∧ w = u * u')) := by
  cases computed_inv hc with
  | add hop ht hs => exact ⟨_, _, _, rfl, rfl, ht, .inl ⟨hop, hs⟩⟩
  | sub hop ht => exact ⟨_, _, _, rfl, rfl, ht, .inr ⟨_, _, _, rfl, rfl, rfl, .inl ⟨hop, rfl⟩⟩⟩
  | mul hop ht => exact ⟨_, _, _, rfl, rfl, ht, .inr ⟨_, _, _, rfl, rfl, rfl, .inr ⟨hop, rfl⟩⟩⟩
  | icmp hop | select hop | zext hop => rw [hop] at hbin; cases hbin
  | cut hop => rcases hop with hop | hop <;> rw [hop] at hbin <;> cases hbin
  | address hop => rcases hop with ⟨hop, -⟩ | ⟨hop, -⟩ | ⟨hop, -⟩ <;> rw [hop] at hbin <;> cases hbin

theorem computed_compare {ts : List Ty} (hop : i.op = .icmp ∨ i.op = .fcmp) (hc : computed i ts ds = some d) :
    ∃ t u w, ts = [t, t] ∧ ds = [.word u, .word w] ∧ i.op = .icmp ∧ i.type = .i1 ∧ i.pred.isFloat = false ∧
      d = .word (boolBits (evalCompare i.pred t u w)) := by
  cases computed_inv hc with
  | icmp hop ht hp => exact ⟨_, _, _, rfl, rfl, hop, ht, hp, rfl⟩
  | add hop' | sub hop' | mul hop' | select hop' | zext hop' => simp [hop'] at hop
  | cut hop' => rcases hop' with hop' | hop' <;> simp [hop'] at hop
  | address hop' => rcases hop' with ⟨hop', -⟩ | ⟨hop', -⟩ | ⟨hop', -⟩ <;> simp [hop'] at hop

theorem computed_select {ts : List Ty} (hop : i.op = .select) (hc : computed i ts ds = some d) :
    ∃ u a a', ts = [.i1, i.type, i.type] ∧ ds = [.word u, a, a'] ∧ d = if isTrueBits u then a else a' := by
  cases computed_inv hc with
  | select => exact ⟨_, _, _, rfl, rfl, rfl⟩
  | add hop' | sub hop' | mul hop' | icmp hop' | zext hop' => cases hop.symm.trans hop'
  | cut hop' => rcases hop' with hop' | hop' <;> cases hop.symm.trans hop'
  | address hop' => rcases hop' with ⟨hop', -⟩ | ⟨hop', -⟩ | ⟨hop', -⟩ <;> cases hop.symm.trans hop'

theorem computed_cast {ts : List Ty} (hcast : i.op.isCast = true) (hc : computed i ts ds = some d) :
    (∃ n n' u, ts = [.int n'] ∧ ds = [.word u] ∧ i.type = .int n ∧ ((i.op = .trunc ∨ i.op = .sext) ∧
        d = .word (signExtend u n) ∨ i.op = .zext ∧ d = .word (signExtend (zeroExtend u n') n))) ∨
      ∃ t s o, ts = [t] ∧ ds = [.place s o] ∧ d = .place s o ∧ (i.op = .ptrtoint ∧ t.isPointer = true ∧ i.type = .i64 ∨
        i.op = .inttoptr ∨ i.op = .bitcast) := by
  cases computed_inv hc with
  | cut hop ht => exact .inl ⟨_, _, _, rfl, rfl, ht, .inl ⟨hop, rfl⟩⟩
  | zext hop ht => exact .inl ⟨_, _, _, rfl, rfl, ht, .inr ⟨hop, rfl⟩⟩
  | address hop =>
    refine .inr ⟨_, _, _, rfl, rfl, rfl, ?_⟩
    rcases hop with hop | ⟨hop, -⟩ | ⟨hop, -⟩
    · exact .inl hop
    · exact .inr (.inl hop)
    · exact .inr (.inr hop)
  | add hop | sub hop | mul hop | icmp hop | select hop => rw [hop] at hcast; cases hcast

theorem sum_zero {n : Nat} {a d : Datum} (ha : suits a (.int n) = true) (h : sum (.int n) a (.word 0) = some d) :
    d = a := by
  cases a with
  | word u =>
    cases h
    have hu : signExtend u n = u := by simpa [suits] using ha
    simp [Ty.bits, hu]
  | place s o =>
    simp only [sum] at h
    split at h <;> cases h
    simp

section operands

variable {y : Value} {rest : List (Option Value)} (hr : Reads F plain args σ i vs ds)
  (hc : computed i (vs.map Value.type) ds = some d)

include hr hc

theorem Reads.compared (ho : i.operands = some v :: some y :: rest) (hop : i.op = .icmp ∨ i.op = .fcmp) :
    ∃ u w, datum F.id plain args σ v = some (.word u) ∧ datum F.id plain args σ y = some (.word w) ∧
      d = .word (boolBits (evalCompare i.pred v.type u w)) := by
  obtain ⟨dx, dy, vs', ds', rfl, rfl, hx, hy⟩ := hr.pair ho
  obtain ⟨t, u, w, hts, hds, -, -, -, rfl⟩ := computed_compare hop hc
  simp only [List.map_cons, List.cons.injEq] at hts hds
  obtain ⟨rfl, -⟩ := hts
  obtain ⟨rfl, rfl, -⟩ := hds
  exact ⟨u, w, hx, hy, rfl⟩

theorem Reads.chosen {c : Value} (ho : i.operands = some c :: some v :: some y :: rest) (hop : i.op = .select) :
    ∃ u a a', datum F.id plain args σ c = some (.word u) ∧ signExtend u 1 = u ∧ datum F.id plain args σ v = some a ∧
      datum F.id plain args σ y = some a' ∧ d = if isTrueBits u then a else a' := by
  obtain ⟨dc, dx, dy, vs', ds', rfl, rfl, hcd, hx, hy⟩ := hr.triple ho
  obtain ⟨u, a, a', hts, hds, rfl⟩ := computed_select hop hc
  simp only [List.map_cons, List.cons.injEq] at hts hds
  obtain ⟨rfl, rfl, rfl, -⟩ := hds
  have hsuits := datum_suits hcd
  rw [hts.1] at hsuits
  exact ⟨u, dx, dy, hcd, by simpa [suits, Ty.i1] using hsuits, hx, hy, rfl⟩

theorem Reads.reckoned (ho : i.operands = some v :: some y :: rest) (hbin : i.op.isBinary = true) :
    ∃ n a a', datum F.id plain args σ v = some a ∧ suits a (.int n) = true ∧ datum F.id plain args σ y = some a' ∧
      i.type = .int n ∧ (i.op = .add ∧ sum (.int n) a a' = some d ∨ ∃ u w u', a = .word u ∧ a' = .word u' ∧
        d = .word (signExtend w n) ∧ (i.op = .sub ∧ w = u - u' ∨ i.op = .mul ∧ w = u * u')) := by
  obtain ⟨dx, dy, vs', ds', rfl, rfl, hx, hy⟩ := hr.pair ho
  obtain ⟨n, a, a', hts, hds, ht, hor⟩ := computed_binary hbin hc
  simp only [List.map_cons, List.cons.injEq] at hts hds
  obtain ⟨rfl, rfl, -⟩ := hds
  have hsuits := datum_suits hx
  rw [hts.1] at hsuits
  exact ⟨n, dx, dy, hx, hsuits, hy, ht, hor⟩

theorem Reads.converted (ho : i.operands = some v :: rest) (hcast : i.op.isCast = true) :
    (∃ n n' u, datum F.id plain args σ v = some (.word u) ∧ signExtend u n' = u ∧ v.type = .int n' ∧ i.type = .int n ∧
      ((i.op = .trunc ∨ i.op = .sext) ∧ d = .word (signExtend u n) ∨
        i.op = .zext ∧ d = .word (signExtend (zeroExtend u n') n))) ∨
      ∃ s o, datum F.id plain args σ v = some (.place s o) ∧ d = .place s o := by
  obtain ⟨dx, vs', ds', rfl, rfl, hx, -, -⟩ := hr.head ho
  rcases computed_cast hcast hc with ⟨n, n', u, hts, hds, ht, hor⟩ | ⟨t, s, o, -, hds, rfl, -⟩
  · simp only [List.map_cons, List.cons.injEq] at hts hds
    obtain ⟨rfl, -⟩ := hds
    have hsuits := datum_suits hx
    rw [hts.1] at hsuits
    exact .inl ⟨n, n', u, hx, by simpa [suits] using hsuits, hts.1, ht, hor⟩
  · obtain ⟨rfl, -⟩ := List.cons.inj hds
    exact .inr ⟨s, o, hx, rfl⟩

end operands

section replaced

variable {y : Value} {rest : List (Option Value)} {t : Ty} {a a' w : UInt64} {c : Const} {o : Origin}
  (hr : Reads F plain args σ i vs ds) (hc : computed i (vs.map Value.type) ds = some d)

include hr hc

theorem datum_compared (hop : i.op = .icmp ∨ i.op = .fcmp) (ho : i.operands = some v :: some y :: rest)
    (ha : v.bits? = some a) (ha' : y.bits? = some a')
    (hw : Const.ofBits? .i1 (boolBits (evalCompare i.pred v.type a a')) = some c) :
    datum F.id plain args σ (.const c o) = some d := by
  obtain ⟨u, w, hx, hy, rfl⟩ := hr.compared hc ho hop
  cases datum_of_bits ha hx
  cases datum_of_bits ha' hy
  exact datum_folded hw (Number.signExtend_boolBits _)

theorem datum_chosen {x : Value} (hop : i.op = .select) (ho : i.operands = some x :: some v :: some y :: rest)
    (hx : x.const? = some (.int t w)) : datum F.id plain args σ (if w = 0 then y else v) = some d := by
  obtain ⟨u, b, b', hxd, hu, hv, hy, rfl⟩ := hr.chosen hc ho hop
  cases datum_of_int hx hxd
  rw [Number.isTrueBits_eq hu]
  split <;> rename_i hw <;> simp [hw, hv, hy]

theorem datum_folded_binary (hbin : i.op.isBinary = true) (ho : i.operands = some v :: some y :: rest)
    (ha : v.bits? = some a) (ha' : y.bits? = some a') (hw : evalBinary i.op i.type a a' = .ok w)
    (hbits : Const.ofBits? i.type w = some c) : datum F.id plain args σ (.const c o) = some d := by
  obtain ⟨n, b, b', hx, -, hy, ht, hor⟩ := hr.reckoned hc ho hbin
  cases datum_of_bits ha hx
  cases datum_of_bits ha' hy
  rw [ht] at hw hbits
  have hd : d = .word w ∧ signExtend w n = w := by
    rcases hor with ⟨hop, hs⟩ | ⟨u, z, u', hu, hu', rfl, ⟨hop, rfl⟩ | ⟨hop, rfl⟩⟩ <;> rw [hop] at hw <;> cases hw
    · cases hs
      exact ⟨rfl, Number.signExtend_signExtend _ _⟩
    all_goals
      cases hu
      cases hu'
      exact ⟨rfl, Number.signExtend_signExtend _ _⟩
  rw [hd.1]
  exact datum_folded hbits hd.2

/-- Nothing is added or taken away. -/
theorem datum_zero (hop : i.op = .add ∨ i.op = .sub) (ho : i.operands = some v :: some y :: rest)
    (hy0 : y.const? = some (.int t 0)) : datum F.id plain args σ v = some d := by
  have hbin : i.op.isBinary = true := by rcases hop with hop | hop <;> rw [hop] <;> rfl
  obtain ⟨n, b, b', hx, hsuits, hy, -, hor⟩ := hr.reckoned hc ho hbin
  cases datum_of_int hy0 hy
  rcases hor with ⟨-, hs⟩ | ⟨u, w, u', rfl, hu', rfl, ⟨-, rfl⟩ | ⟨hmul, -⟩⟩
  · rw [hx, sum_zero hsuits hs]
  · cases hu'
    have hu : signExtend u n = u := by simpa [suits] using hsuits
    simp [hx, hu]
  · rcases hop with hop | hop <;> cases hmul.symm.trans hop

theorem Reads.multiplied (hop : i.op = .mul) (ho : i.operands = some v :: some y :: rest) :
    ∃ n u u', datum F.id plain args σ v = some (.word u) ∧ signExtend u n = u ∧
      datum F.id plain args σ y = some (.word u') ∧ d = .word (signExtend (u * u') n) := by
  obtain ⟨n, b, b', hx, hsuits, hy, -, hor⟩ := hr.reckoned hc ho (by rw [hop]; rfl)
  rcases hor with ⟨hadd, -⟩ | ⟨u, w, u', rfl, rfl, rfl, ⟨hsub, -⟩ | ⟨-, rfl⟩⟩
  · cases hadd.symm.trans hop
  · cases hsub.symm.trans hop
  · exact ⟨n, u, u', hx, by simpa [suits] using hsuits, hy, rfl⟩

theorem datum_converted (hcast : i.op.isCast = true) (ho : i.operands = some v :: rest) (ha : v.bits? = some a)
    (hw : evalCast i.op v.type i.type a = .ok w) (hbits : Const.ofBits? i.type w = some c) :
    datum F.id plain args σ (.const c o) = some d := by
  rcases hr.converted hc ho hcast with ⟨n, n', u, hx, -, hv, ht, hor⟩ | ⟨s, p, hx, -⟩
  · cases datum_of_bits ha hx
    rw [ht] at hw hbits
    rw [hv] at hw
    rcases hor with ⟨hop | hop, rfl⟩ | ⟨hop, rfl⟩ <;> rw [hop] at hw <;> cases hw <;>
      exact datum_folded hbits (Number.signExtend_signExtend _ _)
  · cases datum_of_bits ha hx

end replaced

/-- A value that takes the place of an instruction has the datum that the instruction computes. -/
theorem simplified_datum (h : Simplifies ⟨F.id, k⟩ i v) (hr : Reads F plain args σ i vs ds)
    (hc : computed i (vs.map Value.type) ds = some d) : datum F.id plain args σ v = some d := by
  cases h with
  | compare hop ho ha hb hw => exact datum_compared hr hc hop ho ha hb hw
  | choose hop ho hcw => exact datum_chosen hr hc hop ho hcw
  | same hop ho =>
    obtain ⟨u, a, a', -, -, hx, hy, rfl⟩ := hr.chosen hc ho hop
    cases hx.symm.trans hy
    rw [hx, ite_self]
  | fold hbin ho ha hb hw hbits => exact datum_folded_binary hr hc hbin ho ha hb hw hbits
  | zero hop ho hy0 => exact datum_zero hr hc hop ho hy0
  | one hop ho hy1 =>
    obtain ⟨n, u, u', hx, hu, hy, rfl⟩ := Reads.multiplied hr hc hop ho
    cases datum_of_int hy1 hy
    simp [hx, hu]
  | absorb hop ho hy0 =>
    obtain ⟨n, u, u', -, -, hy, rfl⟩ := Reads.multiplied hr hc hop ho
    cases datum_of_int hy0 hy
    simp [hy]
  | unchanged hcast ho ht =>
    rcases hr.converted hc ho hcast with ⟨n, n', u, hx, hu, hv, hti, hor⟩ | ⟨s, o, hx, rfl⟩
    · obtain rfl : n' = n := by simpa [ht, hti] using hv.symm
      rcases hor with ⟨-, rfl⟩ | ⟨-, rfl⟩ <;> simp [hx, hu]
    · exact hx
  | convert hcast ho ha hw hbits => exact datum_converted hr hc hcast ho ha hw hbits

theorem sum_comm (t : Ty) (a a' : Datum) : sum t a a' = sum t a' a := by
  cases a <;> cases a' <;> simp only [sum, UInt64.add_comm]

theorem computed_reassociated {t t' : Ty} {a a' : Datum} (h : reassociated? i = some x)
    (hc : computed i [t, t'] [a, a'] = some d) : computed x [t', t] [a', a] = some d := by
  obtain ⟨o, o', -, ⟨hop, rfl⟩ | ⟨hop, rfl⟩⟩ := reassociated?_inv h
  · have hbin : i.op.isBinary = true := by rcases hop with hop | hop | hop | hop <;> rw [hop] <;> rfl
    obtain ⟨n, b, b', hts, hds, ht, hor⟩ := computed_binary hbin hc
    cases hts
    cases hds
    rcases hor with ⟨hadd, hs⟩ | ⟨u, w, u', rfl, rfl, rfl, ⟨hsub, -⟩ | ⟨hmul, rfl⟩⟩
    · simpa [computed, hadd, ht, Ty.isInt, sum_comm _ a'] using hs
    · rw [hsub] at hop
      simp at hop
    · simp [computed, hmul, ht, Ty.isInt, Ty.bits, UInt64.mul_comm]
  · obtain ⟨t, u, w, hts, hds, hicmp, hi1, hp, rfl⟩ := computed_compare hop hc
    cases hts
    cases hds
    have hp' : i.pred.swapped.isFloat = false := (swapped_isFloat i.pred).1.trans hp
    simp [computed, hicmp, hi1, hp', hp, evalCompare, Number.intHolds_swapped]

end laws

section simulation

variable {m : Module} {dom : DomTree} {known : Escapes} {F G : Function} {plain : Nat → Bool} {fill : FuncId}
  {args : List UInt64} {keep : Nat → Bool} {change : Nat → Instr → Instr}

/-- Control is at instruction `k` of block `b`, which is `i`, behind the instructions `pre`. -/
structure At (dom : DomTree) (F : Function) (b : Nat) (pre : List Nat) (k : Nat) (i : Instr) : Prop where
  live : dom.reachable (F.blockId b) = true
  found : F.instr? k = some i
  place : ∃ B post, F.blocks[b]? = some B ∧ B.instrs = pre ++ k :: post

theorem At.lists {b k : Nat} {pre : List Nat} {i : Instr} (h : At dom F b pre k i) : F.Lists b k i := by
  obtain ⟨B, post, hB, hlist⟩ := h.place
  exact ⟨⟨B, hB, by simp [hlist]⟩, h.found⟩

def Flows (m : Module) (F : Function) : Prop := ∀ b : Nat,
  m.successors (F.blockId b) = (((F.blocks[b]?).bind F.terminator?).map Instr.successors).getD []

/-- What two runs have to do with each other at each point to go on together. -/
structure Follows (m : Module) (dom : DomTree) (F G : Function) (plain : Nat → Bool) (fill : FuncId)
    (args : List UInt64) (keep : Nat → Bool) (change : Nat → Instr → Instr) (R : Nat → List Nat → State → State →
    Prop) : Prop where
  height : ∀ {b pre σ τ}, R b pre σ τ → τ.height ≤ σ.height
  skip : ∀ {b pre k i σ τ σ'}, At dom F b pre k i → keep k = false → R b pre σ τ →
    Act F plain fill args σ k i σ' → R b (pre ++ [k]) σ' τ
  act : ∀ {b pre k i σ τ σ'}, At dom F b pre k i → keep k = true → R b pre σ τ → Act F plain fill args σ k i σ' →
    ∃ τ', Act G plain fill args τ k (change k i) τ' ∧ R b (pre ++ [k]) σ' τ'
  read : ∀ {b pre k i σ τ vs ds}, At dom F b pre k i → i.op.isTerminator = true → R b pre σ τ →
    Reads F plain args σ i vs ds → ∃ vs', Reads G plain args τ (change k i) vs' ds
  jump : ∀ {b b' pre k i σ τ}, At dom F b pre k i → F.blocks[b]?.map (·.instrs) = some (pre ++ [k]) →
    some (F.blockId b') ∈ m.successors (F.blockId b) → R b pre σ τ → R b' [] σ τ

theorem Flows.leaves (hflow : Flows m F) (hv : m.Valid dom F) {b b' k : Nat} {pre : List Nat} {i : Instr}
    {ds : List Datum} (hat : At dom F b pre k i) (hend : F.blocks[b]?.map (·.instrs) = some (pre ++ [k]))
    (h : Leaves F.id i ds (.goto b')) : some (F.blockId b') ∈ m.successors (F.blockId b) := by
  obtain ⟨B, hB, hlist⟩ := Option.map_eq_some_iff.mp hend
  obtain ⟨ks, t, hends⟩ := hv.ends hB
  obtain ⟨rfl, rfl⟩ : ks = pre ∧ t = k := by
    have := hlist.symm.trans hends.instrs
    simpa [eq_comm] using this
  rw [hflow b, hB, Option.bind_some, Module.terminator?_eq hends hat.found, Option.map_some, Option.getD_some]
  cases h with
  | br hop ht =>
    rw [Instr.successors, hop]
    exact List.mem_of_getElem? ht
  | condbr hop ht =>
    rw [Instr.successors, hop]
    exact List.mem_of_getElem? ht

theorem Runs.follow {R : Nat → List Nat → State → State → Prop} (hv : m.Valid dom F) (hd : DomTree.Sound m F dom)
    (hflow : Flows m F) (he : Edited F G keep change) (hk : Edited.Keeps m dom F keep change)
    (hR : Follows m dom F G plain fill args keep change R) {b n h : Nat} {ks pre : List Nat} {σ τ : State} {d : Datum}
    (hrun : Runs F plain fill args b ks σ n d h) (hlive : dom.reachable (F.blockId b) = true)
    (hplace : F.blocks[b]?.map (·.instrs) = some (pre ++ ks)) (hστ : R b pre σ τ) :
    ∃ n' h', n' ≤ n ∧ h' ≤ h ∧ Runs G plain fill args b (ks.filter keep) τ n' d h' := by
  have hat : ∀ {b pre k ks i}, dom.reachable (F.blockId b) = true → F.instr? k = some i →
      F.blocks[b]?.map (·.instrs) = some (pre ++ k :: ks) → At dom F b pre k i := by
    intro b pre k ks i hlive hi hplace
    obtain ⟨B, hB, hlist⟩ := Option.map_eq_some_iff.mp hplace
    exact ⟨hlive, hi, B, ks, hB, hlist⟩
  have hterm : ∀ {b pre k i}, At dom F b pre k i → i.op.isTerminator = true → keep k = true ∧
      G.instr? k = some (change k i) ∧ (change k i).op = i.op ∧ (change k i).targets = i.targets := by
    intro b pre k i hat ht
    have hkeep : keep k = true := by
      by_contra hne
      rw [hk.flow hat.lists (by simpa using hne)] at ht
      cases ht
    obtain ⟨y, hy, -, hop, htar, -⟩ := he.same hat.found
    have hgi := he.kept hat.lists hkeep
    cases hgi.symm.trans hy
    exact ⟨hkeep, hgi, hop, htar⟩
  induction hrun generalizing pre τ with
  | @act b k n h ks σ σ' i d hi hact hrun ih =>
    have hpoint := hat hlive hi hplace
    have hnext : F.blocks[b]?.map (·.instrs) = some ((pre ++ [k]) ++ ks) := by rw [hplace]; simp
    by_cases hkeep : keep k = true
    · obtain ⟨τ', hact', hστ'⟩ := hR.act hpoint hkeep hστ hact
      obtain ⟨n', h', hn, hh, hrun'⟩ := ih hlive hnext hστ'
      refine ⟨n' + 1, h', by omega, hh, ?_⟩
      rw [List.filter_cons_of_pos hkeep]
      exact .act (he.kept hpoint.lists hkeep) hact' hrun'
    · obtain ⟨n', h', hn, hh, hrun'⟩ := ih hlive hnext (hR.skip hpoint (by simpa using hkeep) hστ hact)
      refine ⟨n', h', by omega, hh, ?_⟩
      rwa [List.filter_cons_of_neg hkeep]
  | @goto b b' k n h σ i vs ds B d hi hr hl hB hrun ih =>
    have hpoint := hat hlive hi hplace
    have ht : i.op.isTerminator = true := by
      cases hl with
      | br hop | condbr hop => rw [hop]; rfl
    obtain ⟨hkeep, hgi, hop, htar⟩ := hterm hpoint ht
    obtain ⟨vs', hr'⟩ := hR.read hpoint ht hστ hr
    have hsucc := hflow.leaves hv hpoint hplace hl
    have hlive' := hd.next hlive hsucc
    have hstart : F.blocks[b']?.map (·.instrs) = some ([] ++ B.instrs) := by rw [hB]; rfl
    obtain ⟨n', h', hn, hh, hrun'⟩ := ih hlive' hstart (hR.jump hpoint hplace hsucc hστ)
    refine ⟨n' + 1, h', by omega, hh, ?_⟩
    rw [List.filter_cons_of_pos hkeep, List.filter_nil]
    refine .goto hgi hr' ?_ (he.block hB) hrun'
    rw [he.heading.id]
    cases hl with
    | br hop' ht' => exact .br (hop.trans hop') (htar ▸ ht')
    | condbr hop' ht' => exact .condbr (hop.trans hop') (htar ▸ ht')
  | @ret b k σ i v d hi hop' hr =>
    have hpoint := hat hlive hi hplace
    have ht : i.op.isTerminator = true := by rw [hop']; rfl
    obtain ⟨hkeep, hgi, hop, -⟩ := hterm hpoint ht
    obtain ⟨vs', hr'⟩ := hR.read hpoint ht hστ hr
    refine ⟨1, τ.height, le_rfl, hR.height hστ, ?_⟩
    rw [List.filter_cons_of_pos hkeep, List.filter_nil]
    obtain ⟨hops, hdata⟩ := hr'
    cases hdata with
    | cons hd hrest =>
      cases hrest
      exact .ret hgi (hop.trans hop') ⟨hops, .cons hd .nil⟩

/-- States that agree on the values that are not hidden, on the slots that are not gone, and on what is in the variables
that are not veiled. -/
structure Agree (hide gone veil : Nat → Prop) (σ τ : State) : Prop where
  values : ∀ j, ¬ hide j → τ.values j = σ.values j
  slots : ∀ j, ¬ gone j → τ.slots j = σ.slots j
  vars : ∀ j, ¬ veil j → τ.vars j = σ.vars j
  there : ∀ j, ¬ gone j → (σ.vars j).isSome = true → (τ.vars j).isSome = true
  height : τ.height ≤ σ.height

theorem Agree.refl (hide gone veil : Nat → Prop) (σ : State) : Agree hide gone veil σ σ :=
  ⟨fun _ _ ↦ rfl, fun _ _ ↦ rfl, fun _ _ ↦ rfl, fun _ _ ↦ id, le_rfl⟩

section agree

variable {hide gone veil : Nat → Prop} {σ σ' τ : State} {k s : Nat} {i i' : Instr} {d : Datum} {v : Value}

theorem Agree.define (h : Agree hide gone veil σ τ) (k : Nat) (d : Datum) : Agree hide gone veil (σ.define k d)
    (τ.define k d) := by
  refine ⟨fun j hj ↦ ?_, h.slots, h.vars, h.there, h.height⟩
  simp only [State.define, h.values j hj]

theorem Agree.setVar (h : Agree hide gone veil σ τ) (s : Nat) (d : Datum) : Agree hide gone veil (σ.setVar s d)
    (τ.setVar s d) := by
  refine ⟨h.values, h.slots, fun j hj ↦ ?_, fun j hj ↦ ?_, h.height⟩
  · simp only [State.setVar, h.vars j hj]
  · simp only [State.setVar]
    split
    · exact id
    · exact h.there j hj

theorem alignUp_mono {a b : Nat} (h : a ≤ b) (align : Nat) :
    Machine.Region.alignUp a align ≤ Machine.Region.alignUp b align := by
  unfold Machine.Region.alignUp
  split
  · exact h
  · exact Nat.mul_le_mul_right _ (Nat.div_le_div_right (by omega))

theorem Agree.allocate (h : Agree hide gone veil σ τ) (k : Nat) (l : Layout) :
    Agree hide gone veil (σ.allocate k l) (τ.allocate k l) := by
  obtain ⟨h1, h2, h3, h4, -⟩ := h.setVar k (.word 0)
  exact ⟨h1, h2, h3, h4, Nat.add_le_add_right (alignUp_mono h.height _) _⟩

/-- The slot machine acts the same on states that agree on what the instruction reads. -/
theorem Agree.memory (h : Agree hide gone veil σ τ) (hk : ¬ gone k) {ts : List Ty} {ds : List Datum} {μ : Store}
    (hop : i'.op = i.op) (ht : i'.type = i.type) (hall : i'.allocated = i.allocated) (hcallee : i'.callee = i.callee)
    (hmem : i.op = .alloca ∨ i.op = .load ∨ i.op = .store ∨ i.op = .call)
    (hds : ∀ s o, Datum.place s o ∈ ds → ¬ gone s) (hact : SlotMachine.Act fill i k (σ.forget k) ts ds μ) :
    ∃ μ', SlotMachine.Act fill i' k (τ.forget k) ts ds μ' ∧
      Agree hide gone veil { μ with vars := σ.vars } { μ' with vars := τ.vars } := by
  have hvalues : ∀ j, ¬ hide j → (τ.forget k).values j = (σ.forget k).values j := by
    intro j hj
    simp only [State.forget, h.values j hj]
  have hcell : ∀ s o w, ¬ gone s → (τ.forget k).cell? s o w = (σ.forget k).cell? s o w := by
    intro s o w hs
    simp only [Store.cell?, State.forget, h.slots s hs]
  have hset : ∀ s sl, Agree hide gone veil { (σ.forget k).setSlot s sl with vars := σ.vars }
      { (τ.forget k).setSlot s sl with vars := τ.vars } := by
    intro s sl
    refine ⟨hvalues, fun j hj ↦ ?_, h.vars, h.there, h.height⟩
    simp only [Store.setSlot, State.forget, h.slots j hj]
  have hdef : ∀ d, Agree hide gone veil { (σ.forget k).define k d with vars := σ.vars }
      { (τ.forget k).define k d with vars := τ.vars } := by
    intro d
    refine ⟨fun j hj ↦ ?_, h.slots, h.vars, h.there, h.height⟩
    simp only [Store.define, hvalues j hj]
  have halloc : ∀ sl align, Agree hide gone veil { (σ.forget k).allocate k sl align with vars := σ.vars }
      { (τ.forget k).allocate k sl align with vars := τ.vars } := by
    intro sl align
    refine ⟨fun j hj ↦ ?_, (hset k sl).slots, h.vars, h.there, Nat.add_le_add_right (alignUp_mono h.height _) _⟩
    simp only [Store.allocate, Store.define, Store.setSlot, hvalues j hj]
  have hslot : (τ.forget k).slots k = (σ.forget k).slots k := h.slots k hk
  have hnone : (τ.forget k).values k = none := by simp [State.forget]
  cases hact with
  | slot h1 h2 h3 h4 h5 h6 =>
    exact ⟨_, .slot (hop.trans h1) (ht.trans h2) (hall.trans h3) h4 (hslot.trans h5) hnone, halloc _ _⟩
  | buffer h1 h2 h3 h4 h5 h6 h7 =>
    exact ⟨_, .buffer (hop.trans h1) (ht.trans h2) (hall.trans h3) h4 h5 (hslot.trans h6) hnone, halloc _ _⟩
  | load h1 h2 h3 h4 =>
    have hs := hds _ _ List.mem_cons_self
    exact ⟨_, .load (hop.trans h1) (ht ▸ h2) ((hcell _ _ _ hs).trans h3) hnone, hdef _⟩
  | store h1 h2 h3 h4 =>
    have hs := hds _ _ (List.mem_cons_of_mem _ List.mem_cons_self)
    exact ⟨_, .store (hop.trans h1) (ht.trans h2) h3 ((hcell _ _ _ hs).trans h4), hset _ _⟩
  | clear h1 h2 h3 h4 h5 h6 =>
    have hs := hds _ _ List.mem_cons_self
    exact ⟨_, .clear (hop.trans h1) (ht.trans h2) (hcallee.trans h3) ((h.slots _ hs).trans h4) h5 h6, hset _ _⟩
  | pure hc => rcases hmem with h | h | h | h <;> simp [h, SlotMachine.computed] at hc

theorem Reads.rename {vs : List Value} {ds : List Datum} (hr : Reads F plain args σ i vs ds) (rename : Value → Value)
    (hops : i'.operands = i.operands.map (·.map rename))
    (hdata : ∀ v d, some v ∈ i.operands → datum F.id plain args σ v = some d →
    datum G.id plain args τ (rename v) = some d) : Reads G plain args τ i' (vs.map rename) ds := by
  obtain ⟨ho, hds⟩ := hr
  refine ⟨by rw [hops, ho, List.map_map, List.map_map]; rfl, ?_⟩
  rw [List.forall₂_map_left_iff]
  have hmem := (List.forall₂_and_left vs ds).mpr ⟨fun v (hv : v ∈ vs) ↦ hv, hds⟩
  exact hmem.imp fun v d h ↦ hdata v d (by rw [ho]; exact List.mem_map_of_mem h.1) h.2

theorem Act.transfer (hid : G.id = F.id) (ha : i.Alike i') (hag : Agree hide gone veil σ τ) (hk : ¬ gone k)
    (rename : Value → Value) (hops : i'.operands = i.operands.map (·.map rename))
    (htype : ∀ v, (rename v).type = v.type) (hdata : ∀ v d, some v ∈ i.operands → datum F.id plain args σ v = some d →
    datum G.id plain args τ (rename v) = some d) (hvar : ∀ s t, plain s = true →
    some (.instr ⟨F.id, s⟩ t) ∈ i.operands →
      rename (.instr ⟨F.id, s⟩ t) = .instr ⟨F.id, s⟩ t ∧ ¬ gone s ∧ (i.op = .load → ¬ veil s))
    (hplace : ∀ vs ds, Reads F plain args σ i vs ds → ∀ s o, Datum.place s o ∈ ds → ¬ gone s)
    (h : Act F plain fill args σ k i σ') :
    ∃ τ', Act G plain fill args τ k i' τ' ∧ Agree hide gone veil σ' τ' := by
  have htypes : ∀ vs : List Value, (vs.map rename).map Value.type = vs.map Value.type := by
    intro vs
    rw [List.map_map]
    exact List.map_congr_left fun v _ ↦ htype v
  cases h with
  | var h1 h2 h3 h4 =>
    refine ⟨_, .var h1 (ha.op.trans h2) (by rw [hops, h3]; rfl) (by rw [ha.allocated]; exact h4), hag.allocate k _⟩
  | @get s t d h1 h2 h3 h4 h5 =>
    obtain ⟨hsame, -, hveil⟩ := hvar s t h3 (by rw [h2]; simp)
    have hop' : i'.operands = [some (.instr ⟨G.id, s⟩ t)] := by
      rw [hops, h2, hid, List.map_singleton, Option.map_some, hsame]
    exact ⟨_, .get (ha.op.trans h1) hop' h3 (by rw [ha.type]; exact h4) ((hag.vars s (hveil h1)).trans h5),
      hag.define k d⟩
  | @put s t v d d' h1 h2 h3 h4 h5 h6 =>
    obtain ⟨hsame, hhide, -⟩ := hvar s t h3 (by rw [h2]; simp)
    obtain ⟨d'', hd''⟩ := Option.isSome_iff_exists.mp (hag.there s hhide (by rw [h5]; rfl))
    have hop' : i'.operands = [some (rename v), some (.instr ⟨G.id, s⟩ t)] := by
      rw [hops, h2, hid, List.map_cons, List.map_singleton, Option.map_some, Option.map_some, hsame]
    exact ⟨_, .put (ha.op.trans h1) hop' h3 (by rw [htype]; exact h4) hd'' (hdata v d (by rw [h2]; simp) h6),
      hag.setVar s d⟩
  | compute hr hc =>
    refine ⟨_, .compute (hr.rename rename hops hdata) ?_, hag.define k _⟩
    rw [htypes, computed_congr ha.op ha.type ha.pred]
    exact hc
  | memory h1 h2 hr h3 =>
    obtain ⟨μ', hact, hag'⟩ := hag.memory hk ha.op ha.type ha.allocated ha.callee h2 (hplace _ _ hr) h3
    refine ⟨_, .memory h1 (by rw [ha.op]; exact h2) (hr.rename rename hops hdata) ?_, hag'⟩
    rw [htypes]
    exact hact

end agree

end simulation

section available

variable {m : Module} {dom : DomTree} {F : Function} {b b' j k : Nat} {pre : List Nat} {i x : Instr}

/-- Wherever control comes to this point of block `b`, behind `pre`, it has been at instruction `k`. -/
inductive Available (dom : DomTree) (F : Function) (k b : Nat) (pre : List Nat) : Prop
  | here : k ∈ pre → Available dom F k b pre
  | above {a : Nat} {x : Instr} : F.Lists a k x → a ≠ b → dom.dominates (F.blockId a) (F.blockId b) = true →
      Available dom F k b pre

theorem At.before (h : At dom F b pre k i) (hf : F.Formed) (hj : j ∈ pre) :
    (∃ x, F.Lists b j x) ∧ ¬ F.Sees dom k b j := by
  obtain ⟨B, post, hB, hlist⟩ := h.place
  have hnodup := hf.once hB
  have hmem : j ∈ B.instrs := by simp [hlist, hj]
  refine ⟨hf.lists hB hmem, fun hs ↦ ?_⟩
  cases hs with
  | @inside B' hB' hsub =>
    obtain rfl : B = B' := Option.some.inj (hB.symm.trans hB')
    have hlt := ((pair_sublist_iff hnodup).mp hsub).2
    rw [hlist] at hnodup hlt
    have hk : k ∉ pre := fun hk ↦ (List.nodup_append.mp hnodup).2.2 k hk k List.mem_cons_self rfl
    rw [List.idxOf_append_of_notMem hk, List.idxOf_append_of_mem hj] at hlt
    have := List.idxOf_lt_length_of_mem hj
    omega
  | above hl hne => exact hne (hf.unique hl h.lists)

theorem At.not_mem (h : At dom F b pre k i) (hf : F.Formed) : k ∉ pre := by
  obtain ⟨B, post, hB, hlist⟩ := h.place
  have hnodup := hf.once hB
  rw [hlist] at hnodup
  exact fun hk ↦ (List.nodup_append.mp hnodup).2.2 k hk k List.mem_cons_self rfl

theorem Available.of_sees (h : At dom F b pre j x) (hf : F.Formed) (hs : F.Sees dom k b j) :
    Available dom F k b pre := by
  cases hs with
  | @inside B hB hsub =>
    obtain ⟨B', post, hB', hlist⟩ := h.place
    obtain rfl : B = B' := Option.some.inj (hB.symm.trans hB')
    have hnodup := hf.once hB
    obtain ⟨hjm, hlt⟩ := (pair_sublist_iff hnodup).mp hsub
    have hk : k ∈ B.instrs := hsub.subset List.mem_cons_self
    refine .here ?_
    by_contra hne
    rw [hlist, List.idxOf_append_of_notMem hne, List.idxOf_append_of_notMem (h.not_mem hf), List.idxOf_cons_self] at hlt
    omega
  | above hl hne hdom => exact .above hl hne hdom

theorem Available.of_concat (h : Available dom F k b (pre ++ [j])) (hne : j ≠ k) : Available dom F k b pre := by
  cases h with
  | here hk =>
    rcases List.mem_append.mp hk with hk | hk
    · exact .here hk
    · exact absurd (List.mem_singleton.mp hk).symm hne
  | above hl hne hdom => exact .above hl hne hdom

theorem Available.of_jump (h : Available dom F k b' []) (hd : DomTree.Sound m F dom) (hat : At dom F b pre j x)
    (hend : F.blocks[b]?.map (·.instrs) = some (pre ++ [j]))
    (hsucc : some (F.blockId b') ∈ m.successors (F.blockId b)) (hne : j ≠ k) : Available dom F k b pre := by
  cases h with
  | here hk => cases hk
  | @above a y hl hab hdom =>
    have hne' : F.blockId a ≠ F.blockId b' := by simpa [Function.blockId] using hab
    have hdom' := hd.pred hat.live hsucc hdom hne'
    by_cases hb : a = b
    · subst hb
      obtain ⟨B, hB, hk⟩ := hl.listed
      rw [hB, Option.map_some, Option.some.injEq] at hend
      rw [hend] at hk
      exact .here ((List.mem_append.mp hk).resolve_right fun h ↦ hne (List.mem_singleton.mp h).symm)
    · exact .above hl hb hdom'

theorem Available.live {a : Nat} (h : Available dom F k b pre) (hd : DomTree.Sound m F dom) (hf : F.Formed)
    (hlive : dom.reachable (F.blockId b) = true) (hl : F.Lists a k i) (hpre : ∀ j ∈ pre, ∃ x, F.Lists b j x) :
    dom.reachable (F.blockId a) = true := by
  cases h with
  | here hk =>
    obtain ⟨x, hx⟩ := hpre k hk
    rwa [hf.unique hl hx]
  | above hl' _ hdom =>
    rw [hf.unique hl hl']
    exact hd.reachable hlive hdom

theorem Available.not_after {a : Nat} (hat : At dom F b pre j x) (hv : m.Valid dom F) (hd : DomTree.Sound m F dom)
    (hl : F.Lists a k i) (hs : F.Sees dom j a k) : ¬ Available dom F k b (pre ++ [j]) := by
  have hf := hv.toFormed
  intro h
  cases h with
  | here hk =>
    rcases List.mem_append.mp hk with hk | hk
    · obtain ⟨⟨y, hy⟩, hno⟩ := hat.before hf hk
      rw [hf.unique hl hy] at hs
      exact hno hs
    · rw [List.mem_singleton.mp hk] at hl hs
      exact hv.not_sees_self hl hs
  | @above a' y hl' hne hdom =>
    obtain rfl := hf.unique hl hl'
    cases hs with
    | inside hB hsub =>
      obtain ⟨z, hz⟩ := hf.lists hB (hsub.subset List.mem_cons_self)
      exact hne (hf.unique hz hat.lists)
    | above hl'' hne' hdom' =>
      obtain rfl := hf.unique hl'' hat.lists
      have heq := hd.antisymm hat.live hdom hdom'
      exact hne (by simpa [Function.blockId] using heq)

end available

/-- In code that control reaches slot `s` is used as a variable. -/
structure Variable (dom : DomTree) (F : Function) (s : Nat) : Prop where
  single : ∀ {b : Nat} {x : Instr}, F.Lists b s x → dom.reachable (F.blockId b) = true →
    x.op = .alloca ∧ x.operands = []
  uses : ∀ {b k : Nat} {i : Instr}, F.Lists b k i → dom.reachable (F.blockId b) = true →
    some (F.result s) ∈ i.operands → isPlainUse (F.result s) i = true

section evidence

variable {m : Module} {dom : DomTree} {known : Escapes} {F : Function} {plain : Nat → Bool} {fill : FuncId}
  {args : List UInt64} {b j k p s : Nat} {i x y : Instr} {v u : Value} {pre mid : List Nat} {σ σ' : State} {d : Datum}

/-- What is known in block `b` behind each of its instructions, and that it makes `v` the result of instruction `k`. -/
structure Evidence (dom : DomTree) (F : Function) (plain : Nat → Bool) (fill : FuncId) (args : List UInt64) (b k : Nat)
    (i : Instr) (v : Value) (near : List Nat → State → Prop) : Prop where
  start : ∀ σ, near [] σ
  step : ∀ {pre j y σ σ'}, At dom F b pre j y → near pre σ → Act F plain fill args σ j y σ' → near (pre ++ [j]) σ'
  finish : ∀ {pre σ σ'}, At dom F b pre k i → near pre σ → Act F plain fill args σ k i σ' →
    datum F.id plain args σ' (F.result k) = datum F.id plain args σ' v

theorem Evidence.since (hf : F.Formed) (hb : Between F b p k mid) (hx : F.instr? p = some x) (Q : State → Prop)
    (hstart : ∀ {σ σ'}, Act F plain fill args σ p x σ' → Q σ')
    (hkeep : ∀ {pre j y σ σ'}, At dom F b pre j y → j ∈ mid → p ∈ pre → Act F plain fill args σ j y σ' → Q σ → Q σ')
    (hfinish : ∀ {σ σ'}, Act F plain fill args σ k i σ' → Q σ →
      datum F.id plain args σ' (F.result k) = datum F.id plain args σ' v) :
    ∃ near, Evidence dom F plain fill args b k i v near := by
  obtain ⟨B, pre₀, post, hB, hlist⟩ := hb
  refine ⟨fun pre σ ↦ ∀ mid₁, pre = pre₀ ++ p :: mid₁ → mid₁ <+: mid → Q σ, ?_, ?_, ?_⟩
  · intro σ mid₁ h
    simp at h
  · intro pre j y σ σ' hat hnear hact mid₁ hpre hmid
    rcases List.eq_nil_or_concat mid₁ with rfl | ⟨mid₂, j', rfl⟩
    · obtain ⟨-, rfl⟩ : pre = pre₀ ∧ j = p := by simpa using hpre
      cases hat.found.symm.trans hx
      exact hstart hact
    · rw [List.concat_eq_append] at hpre hmid
      obtain ⟨rfl, rfl⟩ : pre = pre₀ ++ p :: mid₂ ∧ j = j' := by
        have heq : pre ++ [j] = (pre₀ ++ p :: mid₂) ++ [j'] := by rw [hpre]; simp
        obtain ⟨hpre', hj⟩ := List.append_inj' heq rfl
        exact ⟨hpre', List.singleton_inj.mp hj⟩
      have hj : j ∈ mid := hmid.subset (by simp)
      exact hkeep hat hj (by simp) hact (hnear mid₂ rfl ((List.prefix_append mid₂ [j]).trans hmid))
  · intro pre σ σ' hat hnear hact
    obtain ⟨B', post', hB', hlist'⟩ := hat.place
    obtain rfl : B = B' := Option.some.inj (hB.symm.trans hB')
    have hnodup := hf.once hB
    have heq : pre ++ k :: post' = (pre₀ ++ p :: mid) ++ k :: post := by rw [← hlist', hlist]; simp
    have hpost : k ∉ post' := by
      rw [hlist'] at hnodup
      exact (List.nodup_cons.mp (List.nodup_append.mp hnodup).2.1).1
    obtain ⟨rfl, -, -⟩ := (List.append_cons_inj_of_notMem (hat.not_mem hf) hpost).mp heq
    exact hfinish hact (hnear mid rfl (List.prefix_refl mid))

theorem Act.datum (h : Act F plain fill args σ j y σ') (hu : ∀ id t, u = .instr id t → id.index ≠ j) :
    datum F.id plain args σ' u = datum F.id plain args σ u :=
  datum_of_values fun id t hid _ ↦ h.values (hu id t hid)

theorem At.operand_ne (hat : At dom F b pre j y) (hv : m.Valid dom F) (hp : p ∈ pre) (hx : F.instr? p = some x)
    (hu : some u ∈ x.operands) : ∀ id t, u = .instr id t → id.index ≠ j := by
  rintro id t rfl rfl
  obtain ⟨⟨z, hz⟩, hno⟩ := hat.before hv.toFormed hp
  cases hz.found.symm.trans hx
  exact hno (hv.sees hz hat.live hu)

theorem operand_ne_self (hv : m.Valid dom F) (hl : F.Lists b k i) (hlive : dom.reachable (F.blockId b) = true)
    (hu : some u ∈ i.operands) : ∀ id t, u = .instr id t → id.index ≠ k := by
  rintro id t rfl rfl
  exact hv.not_sees_self hl (hv.sees hl hlive hu)

end evidence

end CilSsa.FlowMachine

