import Mathlib.Algebra.Order.Ring.Int
import CilSsa.Bytecode.Blocks
import CilSsa.Proofs.EvaluationStack

namespace CilSsa.StackMachine

open CilSsa.Bytecode

structure State where
  pc : Nat
  stack : List Int32
  args : List Int32
  locals : List Int32

/-- At the first instruction, with nothing on the stack and all locals zero. -/
def State.start (args : List Int32) (locals : Nat) : State :=
  { pc := 0, stack := [], args, locals := List.replicate locals 0 }

inductive Outcome
  | running (s : State)
  | returned (r : Int32)

def slot? (vs : List Int32) (n : Int) : Option Int32 := if n < 0 then none else vs[n.toNat]?

def setSlot? (vs : List Int32) (n : Int) (v : Int32) : Option (List Int32) :=
  (slot? vs n).map fun _ ↦ vs.set n.toNat v

section

variable (i : Instruction) (s : State)

def goOn (stack : List Int32) : Outcome := .running { s with pc := i.next, stack }

def loadArg (n : Int) : Option Outcome := (slot? s.args n).map fun v ↦ goOn i s (v :: s.stack)

def loadLocal (n : Int) : Option Outcome := (slot? s.locals n).map fun v ↦ goOn i s (v :: s.stack)

def storeArg (n : Int) : Option Outcome :=
  match s.stack with
  | v :: rest => (setSlot? s.args n v).map fun args ↦ goOn i { s with args } rest
  | [] => none

def storeLocal (n : Int) : Option Outcome :=
  match s.stack with
  | v :: rest => (setSlot? s.locals n v).map fun locals ↦ goOn i { s with locals } rest
  | [] => none

def constant (n : Int) : Option Outcome := some (goOn i s (Int32.ofInt n :: s.stack))

def binary (f : Int32 → Int32 → Int32) : Option Outcome :=
  match s.stack with
  | y :: x :: rest => some (goOn i s (f x y :: rest))
  | _ => none

def compare (p : Int32 → Int32 → Bool) : Option Outcome := binary i s fun x y ↦ if p x y then 1 else 0

def branch (taken : Bool) (stack : List Int32) : Outcome :=
  .running { s with pc := if taken then i.target.toNat else i.next, stack }

def branchIf (p : Int32 → Bool) : Option Outcome :=
  match s.stack with
  | x :: rest => some (branch i s (p x) rest)
  | [] => none

def branchCompare (p : Int32 → Int32 → Bool) : Option Outcome :=
  match s.stack with
  | y :: x :: rest => some (branch i s (p x y) rest)
  | _ => none

def below (x y : Int32) : Bool := x < y
def atMost (x y : Int32) : Bool := x ≤ y
def belowUnsigned (x y : Int32) : Bool := x.toUInt32 < y.toUInt32
def atMostUnsigned (x y : Int32) : Bool := x.toUInt32 ≤ y.toUInt32

def exec : Option Outcome :=
  match i.op with
  | .nop => some (goOn i s s.stack)
  | .ldarg0 => loadArg i s 0
  | .ldarg1 => loadArg i s 1
  | .ldarg2 => loadArg i s 2
  | .ldarg3 => loadArg i s 3
  | .ldargS | .ldarg => loadArg i s i.intOperand
  | .stargS | .starg => storeArg i s i.intOperand
  | .ldloc0 => loadLocal i s 0
  | .ldloc1 => loadLocal i s 1
  | .ldloc2 => loadLocal i s 2
  | .ldloc3 => loadLocal i s 3
  | .ldlocS | .ldloc => loadLocal i s i.intOperand
  | .stloc0 => storeLocal i s 0
  | .stloc1 => storeLocal i s 1
  | .stloc2 => storeLocal i s 2
  | .stloc3 => storeLocal i s 3
  | .stlocS | .stloc => storeLocal i s i.intOperand
  | .ldcI4M1 => constant i s (-1)
  | .ldcI40 => constant i s 0
  | .ldcI41 => constant i s 1
  | .ldcI42 => constant i s 2
  | .ldcI43 => constant i s 3
  | .ldcI44 => constant i s 4
  | .ldcI45 => constant i s 5
  | .ldcI46 => constant i s 6
  | .ldcI47 => constant i s 7
  | .ldcI48 => constant i s 8
  | .ldcI4S | .ldcI4 => constant i s i.intOperand
  | .dup => match s.stack with
    | x :: rest => some (goOn i s (x :: x :: rest))
    | [] => none
  | .pop => match s.stack with
    | _ :: rest => some (goOn i s rest)
    | [] => none
  | .add => binary i s fun x y ↦ x + y
  | .sub => binary i s fun x y ↦ x - y
  | .mul => binary i s fun x y ↦ x * y
  | .ceq => compare i s fun x y ↦ x == y
  | .cgt => compare i s fun x y ↦ below y x
  | .cgtUn => compare i s fun x y ↦ belowUnsigned y x
  | .clt => compare i s below
  | .cltUn => compare i s belowUnsigned
  | .brS => some (branch i s true s.stack)
  | .brtrueS => branchIf i s fun x ↦ x != 0
  | .brfalseS => branchIf i s fun x ↦ x == 0
  | .beqS => branchCompare i s fun x y ↦ x == y
  | .bneUnS => branchCompare i s fun x y ↦ x != y
  | .bgeS => branchCompare i s fun x y ↦ atMost y x
  | .bgeUnS => branchCompare i s fun x y ↦ atMostUnsigned y x
  | .bgtS => branchCompare i s fun x y ↦ below y x
  | .bgtUnS => branchCompare i s fun x y ↦ belowUnsigned y x
  | .bleS => branchCompare i s atMost
  | .bleUnS => branchCompare i s atMostUnsigned
  | .bltS => branchCompare i s below
  | .bltUnS => branchCompare i s belowUnsigned
  | .ret => match s.stack with
    | r :: _ => some (.returned r)
    | [] => none
  | _ => none

end

def knows (op : Opcode) : Bool :=
  [.nop, .ldarg0, .ldarg1, .ldarg2, .ldarg3, .ldargS, .ldarg, .stargS, .starg, .ldloc0, .ldloc1, .ldloc2, .ldloc3,
   .ldlocS, .ldloc, .stloc0, .stloc1, .stloc2, .stloc3, .stlocS, .stloc, .ldcI4M1, .ldcI40, .ldcI41, .ldcI42, .ldcI43,
   .ldcI44, .ldcI45, .ldcI46, .ldcI47, .ldcI48, .ldcI4S, .ldcI4, .dup, .pop, .add, .sub, .mul, .ceq, .cgt, .cgtUn, .clt,
   .cltUn, .brS, .brtrueS, .brfalseS, .beqS, .bneUnS, .bgeS, .bgeUnS, .bgtS, .bgtUnS, .bleS, .bleUnS, .bltS, .bltUnS,
   .ret].contains op

section

variable (code : List Instruction)

def step (s : State) : Option Outcome := (code.find? fun i ↦ i.offset = s.pc).bind fun i ↦ exec i s

def run : Nat → State → Option Int32
  | 0, _ => none
  | n + 1, s => match step code s with
    | some (.running s) => run n s
    | some (.returned r) => some r
    | none => none

def Returns (s : State) (r : Int32) : Prop := ∃ n, run code n s = some r

end

end CilSsa.StackMachine

/-!
The code of single instructions on 32-bit integers does what the plain stack machine does.
-/

namespace CilSsa.Lowering

open CilSsa.Bytecode CilSsa.Metadata CilSsa.SlotMachine
open CilSsa.Number (holds pattern wordOfInt)
open CilSsa.Ssa (FuncId Function Instr Value boolBits isTrueBits)
open CilSsa.StackMachine (Outcome State exec knows)

def Arith.apply : Arith → Int32 → Int32 → Int32
  | .add => fun x y ↦ x + y
  | .sub => fun x y ↦ x - y
  | .mul => fun x y ↦ x * y

def truthPred (want : Bool) : Ssa.Pred := if want then .ne else .eq

def perform (i : Instruction) (s : State) : Action → Option Outcome
  | .nothing => some (StackMachine.goOn i s s.stack)
  | .loadArg n => StackMachine.loadArg i s n
  | .storeArg n => StackMachine.storeArg i s n
  | .loadLocal n => StackMachine.loadLocal i s n
  | .storeLocal n => StackMachine.storeLocal i s n
  | .int32 n => StackMachine.constant i s n
  | .dup => match s.stack with
    | x :: rest => some (StackMachine.goOn i s (x :: x :: rest))
    | [] => none
  | .pop => match s.stack with
    | _ :: rest => some (StackMachine.goOn i s rest)
    | [] => none
  | .arith op => StackMachine.binary i s op.apply
  | .compare c => StackMachine.compare i s (holds c.ints)
  | .ret => match s.stack with
    | r :: _ => some (.returned r)
    | [] => none
  | .jump => some (StackMachine.branch i s true s.stack)
  | .jumpIf want => StackMachine.branchIf i s fun x ↦ holds (truthPred want) x 0
  | .jumpCompare c => StackMachine.branchCompare i s (holds c.ints)
  | _ => none

/-- The actions that the plain stack machine has, those that end a block apart. -/
def Action.goesOn : Action → Bool
  | .nothing | .loadArg _ | .storeArg _ | .loadLocal _ | .storeLocal _ | .int32 _ | .dup | .pop | .arith _ => true
  | .compare c => !c.ints.isFloat
  | _ => false

def Action.leaves : Action → Bool
  | .ret | .jump | .jumpIf _ => true
  | .jumpCompare c => !c.ints.isFloat
  | _ => false

theorem action_known (i : Instruction) (h : knows i.op = true) :
    (∀ s, exec i s = perform i s (action i)) ∧ (action i).goesOn = !i.endsBlock ∧ (action i).leaves = i.endsBlock := by
  obtain ⟨offset, op, size, operand⟩ := i
  have hmem := List.contains_iff_mem.mp h
  simp only [List.mem_cons, List.not_mem_nil, or_false] at hmem
  casesm* _ ∨ _ <;> subst op <;> exact ⟨fun _ ↦ rfl, rfl, rfl⟩

theorem ends_known (i : Instruction) (h : knows i.op = true) (hends : i.endsBlock = true) :
    action i = .ret ∨ i.isShortBranch = true ∧ (action i = .jump ∨ i.op.flow = .condBranch) := by
  obtain ⟨offset, op, size, operand⟩ := i
  have hmem := List.contains_iff_mem.mp h
  simp only [List.mem_cons, List.not_mem_nil, or_false] at hmem
  casesm* _ ∨ _ <;> subst op <;>
    first | (cases hends; done) | exact .inl rfl | exact .inr ⟨rfl, .inl rfl⟩ | exact .inr ⟨rfl, .inr rfl⟩

def Plan.slots (plan : Plan) : List Nat := plan.buffer :: plan.cursor :: plan.vars

theorem Plan.carriers_sub (plan : Plan) : ∀ k ∈ plan.carriers, k ∈ plan.slots := by
  simp [carriers, slots]

/-- Block `b` grew by code for an action after which it goes on: the code does what the stack machine does. -/
def GoesOn (plan : Plan) (fill fn : FuncId) (b start : Nat) (i : Instruction) (a : Action) (s : Stage)
    (u : CompilationUnit) (F : Function) (s' : Stage) (u' : CompilationUnit) : Prop :=
  Tidy plan fn b start s' ∧ Toward start s s' ∧ ∃ F', Growth fill fn b u F u' F' ∧
    ∀ {args E σ₀ σ st}, Before E start s' → Runs F fill args b σ₀ σ →
      Rep plan fn args E start s σ st.stack st.args st.locals →
      ∃ st' σ', perform i st a = some (.running st') ∧ st'.pc = i.next ∧ Runs F' fill args b σ₀ σ' ∧
        Later plan.slots σ σ' ∧ Rep plan fn args E start s' σ' st'.stack st'.args st'.locals

section

variable {plan : Plan} {fill fn : FuncId} {site : Site} {u u' : CompilationUnit} {F : Function} {s s' : Stage}
  {b start : Nat} {i : Instruction} {v : Operand} {x : Unit}

theorem push_stage (he : Emits (push v) s u x s' u') : s' = { s with pending := v :: s.pending } ∧ u' = u := by
  unfold push at he
  rw [Emits.modify_iff] at he
  exact ⟨he.1.symm, he.2.symm⟩

theorem Tidy.push (h : Tidy plan fn b start s) (hv : Core plan fn v) :
    Tidy plan fn b start { s with pending := v :: s.pending } :=
  h.pend _ (List.forall_mem_cons.mpr ⟨hv, h.pending⟩)

theorem Rep.push {args : List UInt64} {E : List (Nat × List Ty)} {σ : Store} {stack xs ys : List Int32} {y : Int32}
    (h : Rep plan fn args E start s σ stack xs ys) (hv : Carries plan fn args σ v y) :
    Rep plan fn args E start { s with pending := v :: s.pending } σ (y :: stack) xs ys := by
  obtain ⟨top, low, rfl, htop, hst, hdepth⟩ := h.split
  exact ⟨y :: top, low, rfl, .cons hv htop, hst, hdepth⟩

theorem Rep.count {args : List UInt64} {E : List (Nat × List Ty)} {σ : Store} {stack xs ys : List Int32} {n : Nat}
    (h : Rep plan fn args E start s σ stack xs ys) :
    Rep plan fn args E start { s with constants := n } σ stack xs ys := by
  obtain ⟨top, low, rfl, htop, hst, hdepth⟩ := h.split
  exact ⟨top, low, rfl, htop, hst, hdepth⟩

theorem slotNumbered_code {what : String} {slots : List Operand} {n : Int}
    (he : Lowers (slotNumbered what slots n) site s u v s' u') :
    s' = s ∧ u' = u ∧ ¬ n < 0 ∧ slots[n.toNat]? = some v := by
  unfold slotNumbered at he
  by_cases hn : n < 0
  · simp only [hn, if_true, Lowers.bind_iff] at he
    obtain ⟨_, _, _, he, -⟩ := he
    exact absurd he Lowers.throw_iff
  · cases hv : slots[n.toNat]? with
    | none =>
      simp only [hn, if_false, hv] at he
      exact absurd he Lowers.throw_iff
    | some w =>
      simp only [hn, if_false, hv, Lowers.pure_iff] at he
      obtain ⟨rfl, rfl, rfl⟩ := he
      exact ⟨rfl, rfl, hn, rfl⟩

theorem argument_code {n : Int} (he : Lowers (argument n) site s u v s' u') (hsite : Planned plan fn site) :
    s' = s ∧ u' = u ∧ ¬ n < 0 ∧ ∃ k, plan.args[n.toNat]? = some k ∧ v = slotOperand fn k := by
  unfold argument at he
  simp only [Lowers.bind_iff, Lowers.read_iff] at he
  obtain ⟨_, _, _, ⟨rfl, rfl, rfl⟩, he⟩ := he
  obtain ⟨rfl, rfl, hn, hv⟩ := slotNumbered_code he
  rw [hsite.args, List.getElem?_map, Option.map_eq_some_iff] at hv
  obtain ⟨k, hk, rfl⟩ := hv
  exact ⟨rfl, rfl, hn, k, hk, rfl⟩

theorem localSlot_code {n : Int} (he : Lowers (localSlot n) site s u v s' u') (hsite : Planned plan fn site) :
    s' = s ∧ u' = u ∧ ¬ n < 0 ∧ ∃ k, plan.locals[n.toNat]? = some k ∧ v = slotOperand fn k := by
  unfold localSlot at he
  simp only [Lowers.bind_iff, Lowers.read_iff] at he
  obtain ⟨_, _, _, ⟨rfl, rfl, rfl⟩, he⟩ := he
  obtain ⟨rfl, rfl, hn, hv⟩ := slotNumbered_code he
  rw [hsite.locals, List.getElem?_map, Option.map_eq_some_iff] at hv
  obtain ⟨k, hk, rfl⟩ := hv
  exact ⟨rfl, rfl, hn, k, hk, rfl⟩

theorem slot?_of {xs : List Int32} {n : Int} {y : Int32} (hn : ¬ n < 0) (hy : xs[n.toNat]? = some y) :
    StackMachine.slot? xs n = some y := by
  rw [StackMachine.slot?, if_neg hn, hy]

/-- The slots of the arguments or of the locals, and what they hold in a state. -/
structure Row (plan : Plan) (ks : List Nat) (values : State → List Int32) : Prop where
  sub : ∀ k ∈ ks, k ∈ plan.vars
  holds : ∀ {σ low} {st : State}, Stored plan σ low st.args st.locals → List.Forall₂ (Keeps σ) ks (values st)

theorem row_args (plan : Plan) : Row plan plan.args State.args :=
  ⟨fun _ hk ↦ List.mem_append_left _ hk, fun h ↦ h.args⟩

theorem row_locals (plan : Plan) : Row plan plan.locals State.locals :=
  ⟨fun _ hk ↦ List.mem_append_right _ hk, fun h ↦ h.locals⟩

theorem loadSlot_code {a : Action} {ks : List Nat} {values : State → List Int32} {n : Int} {k : Nat}
    (h : Coding fill fn u F) (he : Emits (push (slotOperand fn k)) s u x s' u') (ht : Tidy plan fn b start s)
    (hrow : Row plan ks values) (hn : ¬ n < 0) (hk : ks[n.toNat]? = some k)
    (ha : ∀ st, perform i st a = (StackMachine.slot? (values st) n).map fun y ↦ StackMachine.goOn i st
    (y :: st.stack)) : GoesOn plan fill fn b start i a s u F s' u' := by
  obtain ⟨rfl, rfl⟩ := push_stage he
  have hmem := hrow.sub k (List.mem_of_getElem? hk)
  refine ⟨ht.push (.slot hmem), toward_pend _, F, .refl h b, ?_⟩
  intro args E σ₀ σ st _ hr hrep
  obtain ⟨top, low, -, -, hst, -⟩ := hrep.split
  obtain ⟨y, hy, hkeep⟩ := keeps_get (hrow.holds hst) hk
  refine ⟨{ st with pc := i.next, stack := y :: st.stack }, σ, ?_, rfl, hr, .refl _ _, hrep.push (.slot hmem hkeep)⟩
  rw [ha, slot?_of hn hy]
  rfl

def Assigned (plan : Plan) (k : Nat) (y : Int32) (xs ys xs' ys' : List Int32) : Prop :=
  ∀ σ σ' low, Later [k] σ σ' → Keeps σ' k y → Stored plan σ low xs ys → Stored plan σ' low xs' ys'

theorem assigned_of {k : Nat} {y : Int32} {xs ys xs' ys' : List Int32} (hk : k ∈ plan.vars)
    (hargs : ∀ {σ σ'}, List.Forall₂ (Keeps σ) plan.args xs → Keeps σ' k y → (∀ j, j ≠ k → σ'.slots j = σ.slots j) →
      List.Forall₂ (Keeps σ') plan.args xs')
    (hlocals : ∀ {σ σ'}, List.Forall₂ (Keeps σ) plan.locals ys → Keeps σ' k y → (∀ j, j ≠ k → σ'.slots j = σ.slots j) →
      List.Forall₂ (Keeps σ') plan.locals ys') : Assigned plan k y xs ys xs' ys' := by
  intro σ σ' low hl hkeep hst
  have hothers : ∀ j, j ≠ k → σ'.slots j = σ.slots j := fun j hj ↦ hl.slots j (by simpa using hj)
  have hcarrier : ∀ j ∈ plan.carriers, j ≠ k := by
    rintro j hj rfl
    exact plan.notMem_carriers hk hj
  refine ⟨fun j hj ↦ hl.values _ _ (hst.places j hj), ?_, ?_, hargs hst.args hkeep hothers,
    hlocals hst.locals hkeep hothers⟩
  · rw [hothers _ (hcarrier _ (by simp [Plan.carriers])), hst.cursor]
  · rw [hothers _ (hcarrier _ (by simp [Plan.carriers]))]
    exact hst.buffer

theorem assigned_arg {n k : Nat} (hk : plan.args[n]? = some k) (y : Int32) (xs ys : List Int32) :
    Assigned plan k y xs ys (xs.set n y) ys := by
  have hmem := List.mem_of_getElem? hk
  have hapart := List.nodup_append.mp plan.vars_nodup
  refine assigned_of (List.mem_append_left _ hmem) (fun h hkeep hj ↦ keeps_set h hapart.1 hk hkeep hj) ?_
  intro σ σ' h _ hj
  exact keeps_congr h fun j hmem' ↦ hj j (hapart.2.2 k hmem j hmem').symm

theorem assigned_local {n k : Nat} (hk : plan.locals[n]? = some k) (y : Int32) (xs ys : List Int32) :
    Assigned plan k y xs ys xs (ys.set n y) := by
  have hmem := List.mem_of_getElem? hk
  have hapart := List.nodup_append.mp plan.vars_nodup
  refine assigned_of (List.mem_append_right _ hmem) ?_ (fun h hkeep hj ↦ keeps_set h hapart.2.1 hk hkeep hj)
  intro σ σ' h _ hj
  exact keeps_congr h fun j hmem' ↦ hj j (hapart.2.2 j hmem' k hmem)

theorem Stored.var {σ : Store} {low xs ys : List Int32} {k : Nat} (h : Stored plan σ low xs ys) (hk : k ∈ plan.vars) :
    ∃ y, Keeps σ k y := by
  rcases List.mem_append.mp hk with hk | hk
  · obtain ⟨n, hn⟩ := List.getElem?_of_mem hk
    obtain ⟨y, -, hy⟩ := keeps_get h.args hn
    exact ⟨y, hy⟩
  · obtain ⟨n, hn⟩ := List.getElem?_of_mem hk
    obtain ⟨y, -, hy⟩ := keeps_get h.locals hn
    exact ⟨y, hy⟩

theorem plain_later {args : List UInt64} {σ σ' : Store} {changed : List Nat} {vs : List Operand} {xs : List Int32}
    (h : List.Forall₂ (Carries plan fn args σ) vs xs) (hvs : ∀ v ∈ vs, Plain v) (hl : Later changed σ σ') :
    List.Forall₂ (Carries plan fn args σ') vs xs := by
  induction h with
  | nil => exact .nil
  | cons hx _ ih =>
    rw [List.forall_mem_cons] at hvs
    exact .cons (.value hvs.1 ((hx.of_plain hvs.1).mono hl.values)) (ih hvs.2)

theorem storeSlot_code {k : Nat} (h : Coding fill fn u F) (he : Lowers (storeSlot (slotOperand fn k)) site s u x s' u')
    (hsite : Planned plan fn site) (hk : k ∈ plan.vars) (ht : Tidy plan fn b start s) :
    Tidy plan fn b start s' ∧ Toward start s s' ∧ ∃ F', Growth fill fn b u F u' F' ∧
      ∀ {args E σ₀ σ stack xs ys}, Before E start s' → Runs F fill args b σ₀ σ →
        Rep plan fn args E start s σ stack xs ys →
        ∃ y rest σ', stack = y :: rest ∧ Runs F' fill args b σ₀ σ' ∧ Later plan.slots σ σ' ∧
          ∀ {xs' ys'}, Assigned plan k y xs ys xs' ys' → Rep plan fn args E start s' σ' rest xs' ys' := by
  unfold storeSlot at he
  simp only [Lowers.bind_iff] at he
  obtain ⟨_, _, _, he₁, v, _, _, he₂, he₃⟩ := he
  obtain ⟨ws, rfl, hws, F₁, hg₁, hrun₁⟩ := settle_code h (Lowers.emit_iff.mp he₁) ht
  obtain ⟨hv, ht₂, htoward₂, hsub, F₂, hg₂, hrun₂⟩ :=
    pop_code hg₁.coding he₂ hsite (ht.pend _ fun w hw ↦ .value (hws w hw))
  obtain ⟨rfl, F₃, hg₃, hrun₃⟩ := store_code hg₂.coding (Lowers.emit_iff.mp he₃) ht₂.own
  rw [ht₂.block] at hg₃ hrun₃
  refine ⟨ht₂, (toward_pend ws).trans htoward₂, F₃, (hg₁.trans hg₂).trans hg₃, ?_⟩
  intro args E σ₀ σ stack xs ys hE hr hrep
  obtain ⟨σ₁, hr₁, hl₁, hrep₁⟩ := hrun₁ hr hrep
  obtain ⟨y, rest, σ₂, rfl, hr₂, hl₂, hrep₂, hy⟩ := hrun₂ hE hr₁ hrep₁
  obtain ⟨top, low, rfl, htop, hst, hdepth⟩ := hrep₂.split
  obtain ⟨z, hz⟩ := hst.var hk
  have hplace : Has fn args σ₂ (slotOperand fn k).value (.place k 0) :=
    .self (hst.places k (List.mem_cons_of_mem _ (List.mem_cons_of_mem _ hk))) rfl
  obtain ⟨σ₃, hr₃, hl₃, hkeep⟩ := hrun₃ hr₂ hy hplace (by rw [hv.code]; rfl) (cell_single hz)
  have hl : Later plan.slots σ σ₂ := (hl₁.widen nofun).trans (hl₂.widen plan.carriers_sub)
  refine ⟨y, top ++ low, σ₃, rfl, hr₃, hl.trans (hl₃.widen ?_), ?_⟩
  · simpa [Plan.slots] using .inr (.inr hk)
  · intro xs' ys' hset
    exact ⟨top, low, rfl, plain_later htop (fun w hw ↦ hws w (hsub w hw)) hl₃, hset _ _ low hl₃ hkeep hst, hdepth⟩

theorem setSlot?_of {xs : List Int32} {n : Int} {y z : Int32} (hn : ¬ n < 0) (hy : xs[n.toNat]? = some y) :
    StackMachine.setSlot? xs n z = some (xs.set n.toNat z) := by
  rw [StackMachine.setSlot?, slot?_of hn hy]
  rfl

theorem storeArg_code {n : Int} {k : Nat} (h : Coding fill fn u F)
    (he : Lowers (storeSlot (slotOperand fn k)) site s u x s' u') (hsite : Planned plan fn site)
    (ht : Tidy plan fn b start s) (hn : ¬ n < 0) (hk : plan.args[n.toNat]? = some k) :
    GoesOn plan fill fn b start i (.storeArg n) s u F s' u' := by
  obtain ⟨ht', htoward, F', hg, hrun⟩ := storeSlot_code h he hsite (List.mem_append_left _ (List.mem_of_getElem? hk)) ht
  refine ⟨ht', htoward, F', hg, ?_⟩
  intro args E σ₀ σ st hE hr hrep
  obtain ⟨top, low, -, -, hst, -⟩ := hrep.split
  obtain ⟨z, hz, -⟩ := keeps_get hst.args hk
  obtain ⟨y, rest, σ', hstack, hr', hl, hrep'⟩ := hrun hE hr hrep
  refine ⟨⟨i.next, rest, st.args.set n.toNat y, st.locals⟩, σ', ?_, rfl, hr', hl, hrep' (assigned_arg hk y _ _)⟩
  simp only [perform, StackMachine.storeArg, hstack, setSlot?_of hn hz, Option.map_some]
  rfl

theorem storeLocal_code {n : Int} {k : Nat} (h : Coding fill fn u F)
    (he : Lowers (storeSlot (slotOperand fn k)) site s u x s' u') (hsite : Planned plan fn site)
    (ht : Tidy plan fn b start s) (hn : ¬ n < 0) (hk : plan.locals[n.toNat]? = some k) :
    GoesOn plan fill fn b start i (.storeLocal n) s u F s' u' := by
  obtain ⟨ht', htoward, F', hg, hrun⟩ := storeSlot_code h he hsite (List.mem_append_right _ (List.mem_of_getElem? hk))
    ht
  refine ⟨ht', htoward, F', hg, ?_⟩
  intro args E σ₀ σ st hE hr hrep
  obtain ⟨top, low, -, -, hst, -⟩ := hrep.split
  obtain ⟨z, hz, -⟩ := keeps_get hst.locals hk
  obtain ⟨y, rest, σ', hstack, hr', hl, hrep'⟩ := hrun hE hr hrep
  refine ⟨⟨i.next, rest, st.args, st.locals.set n.toNat y⟩, σ', ?_, rfl, hr', hl, hrep' (assigned_local hk y _ _)⟩
  simp only [perform, StackMachine.storeLocal, hstack, setSlot?_of hn hz, Option.map_some]
  rfl

theorem constant_code {n : Int} (h : Coding fill fn u F)
    (he : Lowers (do push ⟨int32, ← intConst .i32 n, false⟩ : Lower Unit) site s u x s' u')
    (ht : Tidy plan fn b start s) : GoesOn plan fill fn b start i (.int32 n) s u F s' u' := by
  rw [Lowers.bind_iff] at he
  obtain ⟨c, _, _, he₁, he₂⟩ := he
  obtain ⟨rfl, rfl, rfl⟩ := intConst_stage (Lowers.emit_iff.mp he₁)
  obtain ⟨rfl, rfl⟩ := push_stage (Lowers.emit_iff.mp he₂)
  have hplain : Plain ⟨int32, .const (.ofInt .i32 (wordOfInt n)) (.made s.constants), false⟩ := ⟨rfl, rfl, rfl⟩
  refine ⟨ht.count.push (.value hplain), (toward_count _).trans (toward_pend _), F, .refl h b, ?_⟩
  intro args E σ₀ σ st _ hr hrep
  refine ⟨{ st with pc := i.next, stack := Int32.ofInt n :: st.stack }, σ, rfl, rfl, hr, .refl _ _, ?_⟩
  exact hrep.count.push (.value hplain (int32_const n _))

theorem dup_code (h : Coding fill fn u F)
    (he : Lowers (do let v ← popRaw none; push v; push v : Lower Unit) site s u x s' u') (hsite : Planned plan fn site)
    (ht : Tidy plan fn b start s) : GoesOn plan fill fn b start i .dup s u F s' u' := by
  simp only [Lowers.bind_iff] at he
  obtain ⟨v, _, _, he₁, _, _, _, he₂, he₃⟩ := he
  obtain ⟨hv, ht₁, htoward, -, F', hg, hrun⟩ := popRaw_code h he₁ hsite (by simp) ht
  obtain ⟨rfl, rfl⟩ := push_stage (Lowers.emit_iff.mp he₂)
  obtain ⟨rfl, rfl⟩ := push_stage (Lowers.emit_iff.mp he₃)
  refine ⟨(ht₁.push hv).push hv, htoward.trans (toward_pend _), F', hg, ?_⟩
  intro args E σ₀ σ st hE hr hrep
  obtain ⟨y, rest, σ', hstack, hr', hl, hrep', hy⟩ := hrun (toward_pend _ E hE) hr hrep
  refine ⟨{ st with pc := i.next, stack := y :: y :: rest }, σ', ?_, rfl, hr', hl.widen plan.carriers_sub,
    (hrep'.push hy).push hy⟩
  simp only [perform, hstack]
  rfl

theorem drop_code (h : Coding fill fn u F)
    (he : Lowers (do let _ ← popRaw none : Lower Unit) site s u x s' u') (hsite : Planned plan fn site)
    (ht : Tidy plan fn b start s) : GoesOn plan fill fn b start i .pop s u F s' u' := by
  simp only [Lowers.bind_iff, Lowers.pure_iff] at he
  obtain ⟨v, _, _, he, -, rfl, rfl⟩ := he
  obtain ⟨-, ht₁, htoward, -, F', hg, hrun⟩ := popRaw_code h he hsite (by simp) ht
  refine ⟨ht₁, htoward, F', hg, ?_⟩
  intro args E σ₀ σ st hE hr hrep
  obtain ⟨y, rest, σ', hstack, hr', hl, hrep', -⟩ := hrun hE hr hrep
  refine ⟨{ st with pc := i.next, stack := rest }, σ', ?_, rfl, hr', hl.widen plan.carriers_sub, hrep'⟩
  simp only [perform, hstack]
  rfl

theorem arith_code {op : Arith} (h : Coding fill fn u F) (he : Lowers (arith i op) site s u x s' u')
    (hsite : Planned plan fn site) (ht : Tidy plan fn b start s) :
    GoesOn plan fill fn b start i (.arith op) s u F s' u' := by
  unfold arith at he
  rw [Lowers.bind_iff] at he
  obtain ⟨⟨l, r⟩, _, _, he₁, he₂⟩ := he
  obtain ⟨hl, hr, ht₁, htoward, F₁, hg₁, hrun₁⟩ := operands_code h he₁ hsite ht
  obtain ⟨l, lv, ls⟩ := l
  obtain ⟨r, rv, rs⟩ := r
  have hlt : lv.type = .i32 := hl.code
  have hrt : rv.type = .i32 := hr.code
  simp only [hrt, Ssa.Ty.i32, Lowers.bind_iff, Lowers.pure_iff] at he₂
  obtain ⟨c, _, _, ⟨rfl, rfl, rfl⟩, v, _, _, he₂, he₃⟩ := he₂
  obtain ⟨rfl, hv, F₂, hg₂, hrun₂⟩ := emit_code hg₁.coding (Lowers.emit_iff.mp he₂) ht₁.own rfl
  obtain ⟨rfl, rfl⟩ := push_stage (Lowers.emit_iff.mp he₃)
  have hplain : Plain ⟨r, v, false⟩ := ⟨hr.type, rfl, hv.trans hlt⟩
  rw [ht₁.block] at hg₂ hrun₂
  refine ⟨ht₁.push (.value hplain), htoward.trans (toward_pend _), F₂, hg₁.trans hg₂, ?_⟩
  intro args E σ₀ σ st hE hrun hrep
  obtain ⟨y, z, rest, σ₁, hstack, hr₁, hl₁, hrep₁, hy, hz⟩ := hrun₁ (toward_pend _ E hE) hrun hrep
  have hd : computed (.binary op.intOp lv rv "") [.i32, .i32] [.word (pattern y), .word (pattern z)] =
      some (.word (pattern (op.apply y z))) := by
    cases op with
    | add => simp [computed, Instr.binary, Arith.intOp, hlt, SlotMachine.sum, Number.signExtend_add, Arith.apply,
      Ssa.Ty.bits, Ssa.Ty.i32]
    | sub => simp [computed, Instr.binary, Arith.intOp, hlt, Number.signExtend_sub, Arith.apply,
      Ssa.Ty.bits, Ssa.Ty.i32]
    | mul => simp [computed, Instr.binary, Arith.intOp, hlt, Number.signExtend_mul, Arith.apply,
      Ssa.Ty.bits, Ssa.Ty.i32]
  obtain ⟨σ₂, hr₂, hl₂, hv₂⟩ := hrun₂ hr₁ (hy.two hz) (by
    simpa [Instr.binary, operandType, hlt, hrt] using hd) (by
    simpa [Instr.binary, hlt] using pattern_fits _)
  refine ⟨{ st with pc := i.next, stack := op.apply y z :: rest }, σ₂, ?_, rfl, hr₂,
    (hl₁.widen plan.carriers_sub).trans (hl₂.widen (by simp)), (hrep₁.later hl₂).push (.value hplain hv₂)⟩
  simp only [perform, StackMachine.binary, hstack]
  rfl

theorem icmp_code {p : Ssa.Pred} {a c v : Value} (h : Coding fill fn u F)
    (he : Emits (emit (.icmp p a c "")) s u v s' u')
    (hs : s.fn = fn) (hp : p.isFloat = false) (ha : a.type = .i32) (hc : c.type = .i32) :
    s' = s ∧ v.type = .i1 ∧ ∃ F', Growth fill fn s.block u F u' F' ∧
      ∀ {args σ₀ σ y z}, Runs F fill args s.block σ₀ σ → Has fn args σ a (.word (pattern y)) →
        Has fn args σ c (.word (pattern z)) →
        ∃ σ', Runs F' fill args s.block σ₀ σ' ∧ Later [] σ σ' ∧ Has fn args σ' v (.word (boolBits (holds p y z))) := by
  obtain ⟨rfl, hv, F', hg, hrun⟩ := emit_code h he hs rfl
  refine ⟨rfl, hv, F', hg, ?_⟩
  intro args σ₀ σ y z hr hy hz
  refine hrun hr (hy.two hz) ?_ ?_
  · simp [computed, Instr.icmp, operandType, ha, hc, hp, Number.intHolds_pattern]
  · cases holds p y z <;> rfl

theorem compare_code {c : Comparison} {v : Value} (h : Coding fill fn u F) (he : Lowers (compare i c) site s u v s' u')
    (hsite : Planned plan fn site) (ht : Tidy plan fn b start s) (hc : c.ints.isFloat = false) :
    v.type = .i1 ∧ Tidy plan fn b start s' ∧ Toward start s s' ∧ ∃ F', Growth fill fn b u F u' F' ∧
      ∀ {args E σ₀ σ stack xs ys}, Before E start s' → Runs F fill args b σ₀ σ →
        Rep plan fn args E start s σ stack xs ys →
        ∃ y z rest σ', stack = z :: y :: rest ∧ Runs F' fill args b σ₀ σ' ∧ Later plan.carriers σ σ' ∧
          Rep plan fn args E start s' σ' rest xs ys ∧ Has fn args σ' v (.word (boolBits (holds c.ints y z))) := by
  unfold compare at he
  rw [Lowers.bind_iff] at he
  obtain ⟨⟨l, r⟩, _, _, he₁, he₂⟩ := he
  obtain ⟨hl, hr, ht₁, htoward, F₁, hg₁, hrun₁⟩ := operands_code h he₁ hsite ht
  simp only [hr.code, Ssa.Ty.i32] at he₂
  obtain ⟨rfl, hv, F₂, hg₂, hrun₂⟩ := icmp_code hg₁.coding (Lowers.emit_iff.mp he₂) ht₁.own hc hl.code hr.code
  rw [ht₁.block] at hg₂ hrun₂
  refine ⟨hv, ht₁, htoward, F₂, hg₁.trans hg₂, ?_⟩
  intro args E σ₀ σ stack xs ys hE hrun hrep
  obtain ⟨y, z, rest, σ₁, hstack, hr₁, hl₁, hrep₁, hy, hz⟩ := hrun₁ hE hrun hrep
  obtain ⟨σ₂, hr₂, hl₂, hv₂⟩ := hrun₂ hr₁ hy hz
  exact ⟨y, z, rest, σ₂, hstack, hr₂, hl₁.trans (hl₂.widen (by simp)), hrep₁.later hl₂, hv₂⟩

theorem truth_code {want : Bool} {c : Value} (h : Coding fill fn u F) (he : Lowers (truth i v want) site s u c s' u')
    (hs : s.fn = fn) (hv : Plain v) :
    s' = { s with constants := s.constants + 1 } ∧ c.type = .i1 ∧ ∃ F', Growth fill fn s.block u F u' F' ∧
      ∀ {args σ₀ σ y}, Runs F fill args s.block σ₀ σ → Has fn args σ v.value (.word (pattern y)) →
        ∃ σ', Runs F' fill args s.block σ₀ σ' ∧ Later [] σ σ' ∧
          Has fn args σ' c (.word (boolBits (holds (truthPred want) y 0))) := by
  unfold truth at he
  simp only [hv.code, Ssa.Ty.i32, Lowers.bind_iff] at he
  obtain ⟨zero, _, _, he₁, he₂⟩ := he
  obtain ⟨rfl, rfl, rfl⟩ := intConst_stage (Lowers.emit_iff.mp he₁)
  obtain ⟨rfl, hc, F', hg, hrun⟩ := icmp_code h (Lowers.emit_iff.mp he₂) hs (by cases want <;> rfl) hv.code rfl
  exact ⟨rfl, hc, F', hg, fun hr hy ↦ hrun hr hy (int32_const 0 _)⟩

theorem select_code {c : Comparison} (h : Coding fill fn u F)
    (he : Lowers (do
      let b ← compare i c
      let one ← intConst .i32 1
      let zero ← intConst .i32 0
      push ⟨int32, ← emit (.select b one zero ""), false⟩ : Lower Unit) site s u x s' u')
    (hsite : Planned plan fn site) (ht : Tidy plan fn b start s) (hc : c.ints.isFloat = false) :
    GoesOn plan fill fn b start i (.compare c) s u F s' u' := by
  simp only [Lowers.bind_iff] at he
  obtain ⟨t, _, _, he₁, one, _, _, he₂, zero, _, _, he₃, v, _, _, he₄, he₅⟩ := he
  obtain ⟨htype, ht₁, htoward, F₁, hg₁, hrun₁⟩ := compare_code h he₁ hsite ht hc
  obtain ⟨rfl, rfl, rfl⟩ := intConst_stage (Lowers.emit_iff.mp he₂)
  obtain ⟨rfl, rfl, rfl⟩ := intConst_stage (Lowers.emit_iff.mp he₃)
  obtain ⟨rfl, hv, F₂, hg₂, hrun₂⟩ := emit_code hg₁.coding (Lowers.emit_iff.mp he₄) ht₁.own rfl
  obtain ⟨rfl, rfl⟩ := push_stage (Lowers.emit_iff.mp he₅)
  have hplain : Plain ⟨int32, v, false⟩ := ⟨rfl, rfl, hv⟩
  simp only [ht₁.block] at hg₂ hrun₂
  refine ⟨(ht₁.count.count).push (.value hplain),
    ((htoward.trans (toward_count _)).trans (toward_count _)).trans (toward_pend _), F₂, hg₁.trans hg₂, ?_⟩
  intro args E σ₀ σ st hE hrun hrep
  obtain ⟨y, z, rest, σ₁, hstack, hr₁, hl₁, hrep₁, hb⟩ :=
    hrun₁ (((toward_count _).trans (toward_count _)).trans (toward_pend _) E hE) hrun hrep
  let r : Int32 := if holds c.ints y z then 1 else 0
  obtain ⟨σ₂, hr₂, hl₂, hv₂⟩ := hrun₂ (d := .word (pattern r)) hr₁ (hb.three (int32_const 1 _) (int32_const 0 _)) (by
    cases hholds : holds c.ints y z <;>
      simp [r, hholds, computed, Instr.select, operandType, htype, Number.isTrueBits_boolBits,
      Ssa.Ty.hasValue, Ssa.Ty.i32])
    (pattern_fits _)
  refine ⟨{ st with pc := i.next, stack := r :: rest }, σ₂, ?_, rfl, hr₂,
    (hl₁.widen plan.carriers_sub).trans (hl₂.widen (by simp)), ((hrep₁.later hl₂).count.count).push (.value hplain hv₂)⟩
  simp only [perform, StackMachine.compare, StackMachine.binary, hstack]
  rfl

end

def blockOf (spans : List Bytecode.Span) (o : Nat) : Nat := (spans.findIdx? fun sp ↦ sp.start == o).getD 0 + 1

/-- A block is left as the stack machine leaves it: with the whole stack in the buffer for the block it goes on with, or
with the same result. -/
inductive Exits (plan : Plan) (E : List (Nat × List Ty)) (spans : List Bytecode.Span) (F : Function) (fill : FuncId)
    (args : List UInt64) (ks : List Nat) (σ₀ σ : Store) : Outcome → Prop
  | goto {st : State} {ts : List Ty} : Block F fill args ks σ₀ (.goto (blockOf spans st.pc)) σ →
      Stored plan σ st.stack st.args st.locals → E.lookup st.pc = some ts → ts.length = st.stack.length →
      Exits plan E spans F fill args ks σ₀ σ (.running st)
  | done {r : Int32} : Block F fill args ks σ₀ (.done (.word (pattern r))) σ →
      Exits plan E spans F fill args ks σ₀ σ (.returned r)

def Ends (plan : Plan) (fill fn : FuncId) (b start : Nat) (spans : List Bytecode.Span) (i : Instruction) (a : Action)
    (s : Stage) (u : CompilationUnit) (F : Function) (s' : Stage) (u' : CompilationUnit) : Prop :=
  Tidy plan fn b start s' ∧ Toward start s s' ∧ ∃ F', Growth fill fn b u F u' F' ∧
    ∀ {args E σ₀ σ st}, Before E start s' → Runs F fill args b σ₀ σ →
      Rep plan fn args E start s σ st.stack st.args st.locals →
      ∃ o σ' B, perform i st a = some o ∧ F'.blocks[b]? = some B ∧ Later plan.slots σ σ' ∧
        Exits plan E spans F' fill args B.instrs σ₀ σ' o

section

variable {plan : Plan} {fill fn : FuncId} {site : Site} {u u' : CompilationUnit} {F : Function} {s s' : Stage}
  {b start : Nat} {i : Instruction} {x : Unit}

theorem blockAt_code {o : Nat} {r : Ssa.BlockId} (he : Lowers (blockAt o) site s u r s' u') :
    s' = s ∧ u' = u ∧ r = ⟨s.fn, blockOf site.spans o⟩ := by
  unfold blockAt at he
  simp only [Lowers.bind_iff, Lowers.read_iff, Lowers.getThe_iff, Lowers.pure_iff] at he
  obtain ⟨_, _, _, ⟨rfl, rfl, rfl⟩, _, _, _, ⟨rfl, rfl, rfl⟩, rfl, rfl, rfl⟩ := he
  exact ⟨rfl, rfl, rfl⟩

theorem leave_code {t : Instr} {v : Value} (h : Coding fill fn u F) (he : Emits (emit t) s u v s' u') (hs : s.fn = fn)
    (ht : t.callee = none) :
    s' = s ∧ ∃ F', Growth fill fn s.block u F u' F' ∧
      ∀ {args σ₀ σ ds e}, Runs F fill args s.block σ₀ σ → t.operands.mapM (datum fn args σ) = some ds →
        Leaves fn t ds e → ∃ B, F'.blocks[s.block]? = some B ∧ Block F' fill args B.instrs σ₀ e σ := by
  obtain ⟨rfl, rfl, hg⟩ := emit_growth h he hs ht
  refine ⟨rfl, _, hg, ?_⟩
  intro args σ₀ σ ds e hr hd hl
  rw [← h.id] at hd hl
  exact hr.leave hd hl

theorem jump_code {o : Nat} (h : Coding fill fn u F)
    (he : Lowers (do
      flush start [o]
      let _ ← emit (.br (some (← blockAt o))) : Lower Unit) site s u x s' u')
    (hsite : Planned plan fn site) (ht : Tidy plan fn b start s) :
    Tidy plan fn b start s' ∧ Toward start s s' ∧ ∃ F', Growth fill fn b u F u' F' ∧
      ∀ {args E σ₀ σ stack xs ys}, Before E start s' → Runs F fill args b σ₀ σ →
        Rep plan fn args E start s σ stack xs ys →
        ∃ σ' B, F'.blocks[b]? = some B ∧ Later plan.slots σ σ' ∧
          Exits plan E site.spans F' fill args B.instrs σ₀ σ' (.running ⟨o, stack, xs, ys⟩) := by
  simp only [Lowers.bind_iff, Lowers.pure_iff] at he
  obtain ⟨_, _, _, he₁, r, _, _, he₂, v, _, _, he₃, -, rfl, rfl⟩ := he
  obtain ⟨ht₁, htoward, F₁, hg₁, hrun₁⟩ := flush_code h he₁ hsite ht
  obtain ⟨rfl, rfl, rfl⟩ := blockAt_code he₂
  obtain ⟨rfl, F₂, hg₂, hrun₂⟩ := leave_code hg₁.coding (Lowers.emit_iff.mp he₃) ht₁.own rfl
  rw [ht₁.block] at hg₂
  simp only [ht₁.block, ht₁.own] at hrun₂
  refine ⟨ht₁, htoward, F₂, hg₁.trans hg₂, ?_⟩
  intro args E σ₀ σ stack xs ys hE hr hrep
  obtain ⟨σ₁, hr₁, hl₁, hst, hentries⟩ := hrun₁ hE hr hrep
  obtain ⟨ts, hts, hlen⟩ := hentries o List.mem_cons_self
  obtain ⟨B, hB, hblock⟩ := hrun₂ hr₁ rfl (.br rfl rfl)
  exact ⟨σ₁, B, hB, hl₁.widen plan.carriers_sub, .goto hblock hst hts hlen⟩

theorem branchOn_code {c : Value} (h : Coding fill fn u F) (he : Lowers (branchOn start i c) site s u x s' u')
    (hsite : Planned plan fn site) (ht : Tidy plan fn b start s) :
    Tidy plan fn b start s' ∧ Toward start s s' ∧ ∃ F', Growth fill fn b u F u' F' ∧
      ∀ {args E σ₀ σ t} (st : State), Before E start s' → Runs F fill args b σ₀ σ →
        Rep plan fn args E start s σ st.stack st.args st.locals → Has fn args σ c (.word (boolBits t)) →
        ∃ σ' B, F'.blocks[b]? = some B ∧ Later plan.slots σ σ' ∧
          Exits plan E site.spans F' fill args B.instrs σ₀ σ' (StackMachine.branch i st t st.stack) := by
  unfold branchOn at he
  simp only [Lowers.bind_iff, Lowers.pure_iff] at he
  obtain ⟨_, _, _, he₁, r, _, _, he₂, r', _, _, he₃, v, _, _, he₄, -, rfl, rfl⟩ := he
  obtain ⟨ht₁, htoward, F₁, hg₁, hrun₁⟩ := flush_code h he₁ hsite ht
  obtain ⟨rfl, rfl, rfl⟩ := blockAt_code he₂
  obtain ⟨rfl, rfl, rfl⟩ := blockAt_code he₃
  obtain ⟨rfl, F₂, hg₂, hrun₂⟩ := leave_code hg₁.coding (Lowers.emit_iff.mp he₄) ht₁.own rfl
  rw [ht₁.block] at hg₂
  simp only [ht₁.block, ht₁.own] at hrun₂
  refine ⟨ht₁, htoward, F₂, hg₁.trans hg₂, ?_⟩
  intro args E σ₀ σ t st hE hr hrep hd
  obtain ⟨σ₁, hr₁, hl₁, hst, hentries⟩ := hrun₁ hE hr hrep
  let o := if t then i.target.toNat else i.next
  obtain ⟨ts, hts, hlen⟩ := hentries o (by cases t <;> simp [o])
  have hto : Leaves fn (.condbr c (some ⟨fn, blockOf site.spans i.target.toNat⟩) (some ⟨fn, blockOf site.spans i.next⟩))
      [.word (boolBits t)] (.goto (blockOf site.spans o)) := by
    refine .condbr rfl ?_
    rw [Number.isTrueBits_boolBits]
    cases t <;> rfl
  obtain ⟨B, hB, hblock⟩ := hrun₂ hr₁ (hd.mono hl₁.values).one hto
  exact ⟨σ₁, B, hB, hl₁.widen plan.carriers_sub, .goto hblock hst hts hlen⟩

theorem jumpCompare_code {c : Comparison} (h : Coding fill fn u F)
    (he : Lowers (do branchOn start i (← compare i c) : Lower Unit) site s u x s' u') (hsite : Planned plan fn site)
    (ht : Tidy plan fn b start s) (hc : c.ints.isFloat = false) :
    Ends plan fill fn b start site.spans i (.jumpCompare c) s u F s' u' := by
  rw [Lowers.bind_iff] at he
  obtain ⟨v, _, _, he₁, he₂⟩ := he
  obtain ⟨-, ht₁, htoward₁, F₁, hg₁, hrun₁⟩ := compare_code h he₁ hsite ht hc
  obtain ⟨ht₂, htoward₂, F₂, hg₂, hrun₂⟩ := branchOn_code hg₁.coding he₂ hsite ht₁
  refine ⟨ht₂, htoward₁.trans htoward₂, F₂, hg₁.trans hg₂, ?_⟩
  intro args E σ₀ σ st hE hr hrep
  obtain ⟨y, z, rest, σ₁, hstack, hr₁, hl₁, hrep₁, hv⟩ := hrun₁ (htoward₂ E hE) hr hrep
  obtain ⟨σ₂, B, hB, hl₂, hexit⟩ := hrun₂ { st with stack := rest } hE hr₁ hrep₁ hv
  refine ⟨_, σ₂, B, ?_, hB, (hl₁.widen plan.carriers_sub).trans hl₂, hexit⟩
  simp only [perform, StackMachine.branchCompare, hstack]
  rfl

theorem jumpIf_code {want : Bool} (h : Coding fill fn u F)
    (he : Lowers (do
      let v ← popRaw none
      branchOn start i (← truth i (← deref v) want) : Lower Unit) site s u x s' u')
    (hsite : Planned plan fn site) (ht : Tidy plan fn b start s) :
    Ends plan fill fn b start site.spans i (.jumpIf want) s u F s' u' := by
  simp only [Lowers.bind_iff] at he
  obtain ⟨v, _, _, he₁, w, _, _, he₂, c, _, _, he₃, he₄⟩ := he
  obtain ⟨hv, ht₁, htoward₁, -, F₁, hg₁, hrun₁⟩ := popRaw_code h he₁ hsite (by simp) ht
  obtain ⟨rfl, hw, F₂, hg₂, hrun₂⟩ := deref_code hg₁.coding (Lowers.emit_iff.mp he₂) ht₁.own hv
  obtain ⟨rfl, -, F₃, hg₃, hrun₃⟩ := truth_code hg₂.coding he₃ ht₁.own hw
  obtain ⟨ht₄, htoward₄, F₄, hg₄, hrun₄⟩ := branchOn_code hg₃.coding he₄ hsite ht₁.count
  rw [ht₁.block] at hg₂ hrun₂ hg₃ hrun₃
  refine ⟨ht₄, (htoward₁.trans (toward_count _)).trans htoward₄, F₄, ((hg₁.trans hg₂).trans hg₃).trans hg₄, ?_⟩
  intro args E σ₀ σ st hE hr hrep
  obtain ⟨y, rest, σ₁, hstack, hr₁, hl₁, hrep₁, hy⟩ := hrun₁ ((toward_count _).trans htoward₄ E hE) hr hrep
  obtain ⟨top, low, -, -, hst, -⟩ := hrep₁.split
  obtain ⟨σ₂, hr₂, hl₂, hy₂⟩ := hrun₂ hr₁ hst hy
  obtain ⟨σ₃, hr₃, hl₃, hc⟩ := hrun₃ hr₂ hy₂
  obtain ⟨σ₄, B, hB, hl₄, hexit⟩ :=
    hrun₄ { st with stack := rest } hE hr₃ ((hrep₁.later hl₂).later hl₃).count hc
  have hl := (hl₁.widen plan.carriers_sub).trans ((hl₂.trans hl₃).widen nofun)
  refine ⟨_, σ₄, B, ?_, hB, hl.trans hl₄, hexit⟩
  simp only [perform, StackMachine.branchIf, hstack]
  rfl

theorem ret_code (h : Coding fill fn u F) (he : Lowers (returnFrom start) site s u x s' u')
    (hsite : Planned plan fn site) (ht : Tidy plan fn b start s) : Ends plan fill fn b start site.spans i .ret
    s u F s' u' := by
  unfold returnFrom at he
  simp only [Lowers.bind_iff, Lowers.read_iff] at he
  obtain ⟨_, _, _, ⟨rfl, rfl, rfl⟩, he⟩ := he
  have hvoid : int32.isVoid = false := rfl
  simp only [hsite.returns, hvoid, Bool.false_eq_true, if_false, Lowers.bind_iff, Lowers.pure_iff] at he
  obtain ⟨v, _, _, he₁, _, _, _, he₂, _, _, _, he₃, -, rfl, rfl⟩ := he
  obtain ⟨hv, ht₁, htoward₁, -, F₁, hg₁, hrun₁⟩ := pop_code h he₁ hsite ht
  obtain ⟨ht₂, htoward₂, F₂, hg₂, hrun₂⟩ := flush_code hg₁.coding he₂ hsite ht₁
  obtain ⟨rfl, F₃, hg₃, hrun₃⟩ := leave_code hg₂.coding (Lowers.emit_iff.mp he₃) ht₂.own rfl
  rw [ht₂.block] at hg₃ hrun₃
  refine ⟨ht₂, htoward₁.trans htoward₂, F₃, (hg₁.trans hg₂).trans hg₃, ?_⟩
  intro args E σ₀ σ st hE hr hrep
  obtain ⟨y, rest, σ₁, hstack, hr₁, hl₁, hrep₁, hy⟩ := hrun₁ (htoward₂ E hE) hr hrep
  obtain ⟨σ₂, hr₂, hl₂, -, -⟩ := hrun₂ hE hr₁ hrep₁
  obtain ⟨B, hB, hblock⟩ := hrun₃ hr₂ (hy.mono hl₂.values).one (.ret rfl)
  refine ⟨.returned y, σ₂, B, ?_, hB, (hl₁.trans hl₂).widen plan.carriers_sub, .done hblock⟩
  simp only [perform, hstack]

theorem lower_goesOn (h : Coding fill fn u F) (he : Lowers (lower start i) site s u x s' u')
    (hsite : Planned plan fn site) (ht : Tidy plan fn b start s) (ha : (action i).goesOn = true) :
    GoesOn plan fill fn b start i (action i) s u F s' u' := by
  unfold lower at he
  cases hact : action i <;> rw [hact] at ha he <;> try cases ha
  case nothing =>
    rw [Lowers.pure_iff] at he
    obtain ⟨-, rfl, rfl⟩ := he
    refine ⟨ht, .refl start s, F, .refl h b, fun {args E σ₀ σ st} _ hr hrep ↦ ?_⟩
    exact ⟨{ st with pc := i.next }, σ, rfl, rfl, hr, .refl _ _, hrep⟩
  case loadArg n =>
    obtain ⟨v, _, _, he₁, he₂⟩ := Lowers.bind_iff.mp he
    obtain ⟨rfl, rfl, hn, k, hk, rfl⟩ := argument_code he₁ hsite
    exact loadSlot_code h (Lowers.emit_iff.mp he₂) ht (row_args plan) hn hk fun _ ↦ rfl
  case loadLocal n =>
    obtain ⟨v, _, _, he₁, he₂⟩ := Lowers.bind_iff.mp he
    obtain ⟨rfl, rfl, hn, k, hk, rfl⟩ := localSlot_code he₁ hsite
    exact loadSlot_code h (Lowers.emit_iff.mp he₂) ht (row_locals plan) hn hk fun _ ↦ rfl
  case storeArg n =>
    obtain ⟨v, _, _, he₁, he₂⟩ := Lowers.bind_iff.mp he
    obtain ⟨rfl, rfl, hn, k, hk, rfl⟩ := argument_code he₁ hsite
    exact storeArg_code h (by simpa [slotOperand] using he₂) hsite ht hn hk
  case storeLocal n =>
    obtain ⟨v, _, _, he₁, he₂⟩ := Lowers.bind_iff.mp he
    obtain ⟨rfl, rfl, hn, k, hk, rfl⟩ := localSlot_code he₁ hsite
    exact storeLocal_code h he₂ hsite ht hn hk
  case int32 n => exact constant_code h he ht
  case dup => exact dup_code h he hsite ht
  case pop => exact drop_code h he hsite ht
  case arith op => exact arith_code h he hsite ht
  case compare c =>
    exact select_code h he hsite ht (by simpa [Action.goesOn] using ha)

theorem lower_ends (h : Coding fill fn u F) (he : Lowers (lower start i) site s u x s' u')
    (hsite : Planned plan fn site) (ht : Tidy plan fn b start s) (ha : (action i).leaves = true) :
    Ends plan fill fn b start site.spans i (action i) s u F s' u' := by
  unfold lower at he
  cases hact : action i <;> rw [hact] at ha he <;> try cases ha
  case ret => exact ret_code h he hsite ht
  case jump =>
    obtain ⟨ht', htoward, F', hg, hrun⟩ := jump_code h he hsite ht
    refine ⟨ht', htoward, F', hg, fun {args E σ₀ σ st} hE hr hrep ↦ ?_⟩
    obtain ⟨σ', B, hB, hl, hexit⟩ := hrun hE hr hrep
    exact ⟨_, σ', B, rfl, hB, hl, hexit⟩
  case jumpIf want => exact jumpIf_code h he hsite ht
  case jumpCompare c =>
    exact jumpCompare_code h he hsite ht (by simpa [Action.leaves] using ha)

end

end CilSsa.Lowering

