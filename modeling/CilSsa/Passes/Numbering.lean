import CilSsa.Passes.Promote

namespace CilSsa.Passes

open CilSsa.Ssa

/-- Exchanges the operands of an instruction that has a constant on the left only. -/
def reassociated? (i : Instr) : Option Instr :=
  match i.operands with
  | [a, b] =>
    if (a.map (·.isConst)) = some true ∧ (b.map (·.isConst)) ≠ some true then
      match i.op with
      | .add | .mul | .fadd | .fmul => some { i with operands := [b, a] }
      | .icmp | .fcmp => some { i with operands := [b, a], pred := i.pred.swapped }
      | _ => none
    else none
  | _ => none

def reassociate (f : Function) : Changing :=
  f.instructions.foldl (fun c (k, i) ↦ match reassociated? i with
    | some i => { f := { c.f with instrs := c.f.instrs.set! k i }, changed := true }
    | none => c) { f }

/-- An operand as far as values are told apart: constants by type and pattern, all else as it is. -/
inductive OperandKey
  | pattern (t : Ty) (v : UInt64)
  | value (v : Option Value)
deriving DecidableEq

structure ValueKey where
  op : Op
  type : Ty
  pred : Pred
  index : Int
  operands : List OperandKey
deriving DecidableEq

def operandKey (v : Option Value) : OperandKey :=
  match v.bind fun v ↦ v.bits?.map fun b ↦ (v.type, b) with
  | some (t, b) => .pattern t b
  | none => .value v

def valueKey? (i : Instr) : Option ValueKey :=
  if !i.op.isPure ∨ i.op = .alloca ∨ i.op = .load then none
  else some ⟨i.op, i.type, i.pred, i.index, i.operands.map operandKey⟩

structure Available extends Changing where
  computed : List (ValueKey × Nat) := []
  loaded : List (Option Value × Nat) := []

def Available.reuse (s : Available) (b k prev : Nat) : Available :=
  { s with f := (s.f.replaceAllUses (s.f.result k) (s.f.result prev)).removeFrom b k, changed := true }

def numberStep (b : Nat) (s : Available) (k : Nat) : Available :=
  match s.f.instr? k with
  | none => s
  | some i => match i.op with
    | .store | .call => { s with loaded := [] }
    | .load =>
      let p := i.operands.headD none
      match s.loaded.lookup p with
      | some prev =>
        if (s.f.result prev).type = i.type then s.reuse b k prev else { s with loaded := (p, k) :: s.loaded }
      | none => { s with loaded := (p, k) :: s.loaded }
    | _ => match valueKey? i with
      | none => s
      | some key => match s.computed.lookup key with
        | some prev => s.reuse b k prev
        | none => { s with computed := (key, k) :: s.computed }

/-- Removes what a block computes or loads a second time; writes and calls end what is known of memory. -/
def number (f : Function) : Changing :=
  f.blocks.toList.zipIdx.foldl (fun c (b, n) ↦
    (b.instrs.foldl (numberStep n) { c with computed := [], loaded := [] }).toChanging) { f }

end CilSsa.Passes
