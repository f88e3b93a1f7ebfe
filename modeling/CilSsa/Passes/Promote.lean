import CilSsa.Ssa.Module

namespace CilSsa.Passes

open CilSsa.Ssa

abbrev Escapes := List (Nat × Bool)

def users (f : Function) (v : Value) : List (Nat × Instr) :=
  f.instructions.flatMap fun (k, i) ↦ (i.operands.filter (· == some v)).map fun _ ↦ (k, i)

def isPlainUse (slot : Value) (i : Instr) : Bool :=
  match i.op, i.operands with
  | .load, _ => true
  | .store, v :: p :: _ => p == some slot && v != some slot
  | _, _ => false

/-- Several values side by side are addressed by offset, so such a slot counts as escaping. -/
def escapes (f : Function) (k : Nat) (i : Instr) : Bool :=
  !i.operands.isEmpty || (users f (f.result k)).any fun (_, u) ↦ !isPlainUse (f.result k) u

def findEscapes (f : Function) : Escapes :=
  f.instructions.filterMap fun (k, i) ↦ if i.op = .alloca then some (k, escapes f k i) else none

def promotable? (f : Function) (known : Escapes) (v : Option Value) : Option Nat :=
  match v with
  | some (.instr id _) =>
    if id.fn = f.id ∧ ((f.instr? id.index).map (·.op)) = some .alloca ∧ known.lookup id.index = some false
    then some id.index else none
  | _ => none

structure Changing where
  f : Function
  changed : Bool := false

structure Forwarding extends Changing where
  contents : List (Nat × Value) := []

def forwardStep (known : Escapes) (b : Nat) (s : Forwarding) (k : Nat) : Forwarding :=
  match s.f.instr? k with
  | none => s
  | some i => match i.op, i.operands with
    | .store, v :: p :: _ => match promotable? s.f known p, v with
      | some slot, some v => { s with contents := (slot, v) :: s.contents }
      | _, _ => s
    | .load, p :: _ => match promotable? s.f known p with
      | none => s
      | some slot => match s.contents.lookup slot with
        | some v =>
          if v.type = i.type then
            { s with f := (s.f.replaceAllUses (s.f.result k) v).removeFrom b k, changed := true }
          else { s with contents := (slot, s.f.result k) :: s.contents }
        | none => { s with contents := (slot, s.f.result k) :: s.contents }
    | _, _ => s

def forward (known : Escapes) (f : Function) : Changing :=
  f.blocks.toList.zipIdx.foldl (fun c (b, n) ↦
    (b.instrs.foldl (forwardStep known n) { c with contents := [] }).toChanging) { f }

/-- Drops slot `k` of block `b` with the stores to it, if nothing but stores uses it in `before`. -/
def dropSlot (before : Function) (b : Nat) (s : Changing × Escapes) (k : Nat) : Changing × Escapes :=
  let (c, known) := s
  let slot := before.result k
  match promotable? c.f known (some slot) with
  | none => s
  | some _ =>
    let us := users before slot
    if us.all fun (_, u) ↦ u.op = .store then
      let f := (us.foldl (fun g (u, _) ↦ g.remove u) c.f).removeFrom b k
      ({ f, changed := true }, known.filter fun (n, _) ↦ n != k)
    else s

def dropSlots (known : Escapes) (c : Changing) : Changing × Escapes :=
  c.f.blocks.toList.zipIdx.foldl (fun s (b, n) ↦ b.instrs.foldl (dropSlot c.f n) s) (c, known)

def promote (known : Escapes) (f : Function) : Changing × Escapes := dropSlots known (forward known f)

end CilSsa.Passes
