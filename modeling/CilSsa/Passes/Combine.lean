import CilSsa.Passes.Promote
import CilSsa.Ssa.Eval

namespace CilSsa.Passes

open CilSsa.Ssa

/-- What an instruction can be replaced by; a new constant is named after the instruction. -/
def simplify? (id : InstrId) (i : Instr) : Option Value :=
  let folded (t : Ty) (v : UInt64) : Option Value := (Const.ofBits? t v).map fun c ↦ .const c (.folded id)
  match i.op, i.operands with
  | .icmp, some x :: some y :: _ | .fcmp, some x :: some y :: _ => match x.bits?, y.bits? with
    | some a, some b => folded .i1 (boolBits (evalCompare i.pred x.type a b))
    | _, _ => none
  | .select, some c :: some x :: some y :: _ => match c.const? with
    | some (.int _ v) => some (if v = 0 then y else x)
    | _ => if x = y then some x else none
  | op, some x :: rest =>
    if op.isBinary then
      match rest with
      | some y :: _ => match x.bits?, y.bits? with
        | some a, some b => match evalBinary op i.type a b with
          | .ok v => folded i.type v
          | .error _ => none
        | _, _ => match y.const?, op with
          | some (.int _ v), .add => if v = 0 then some x else none
          | some (.int _ v), .sub => if v = 0 then some x else none
          | some (.int _ v), .mul => if v = 1 then some x else if v = 0 then some y else none
          | _, _ => none
      | _ => none
    else if op.isCast then
      if x.type = i.type then some x
      else match x.bits? with
        | some a =>
          if op = .inttoptr ∨ op = .bitcast then none
          else match evalCast op x.type i.type a with
            | .ok v => folded i.type v
            | .error _ => none
        | none => none
    else none
  | _, _ => none

def simplifyStep (b : Nat) (c : Changing) (k : Nat) : Changing :=
  match (c.f.instr? k).bind (simplify? ⟨c.f.id, k⟩) with
  | none => c
  | some v => { f := (c.f.replaceAllUses (c.f.result k) v).removeFrom b k, changed := true }

def simplifyAll (f : Function) : Changing :=
  f.blocks.toList.zipIdx.foldl (fun c (b, n) ↦ b.instrs.foldl (simplifyStep n) c) { f }

def isDead (f : Function) (k : Nat) (i : Instr) : Bool :=
  i.op.isPure && i.hasValue && (users f (f.result k)).isEmpty

def removeDeadOnce (f : Function) : Changing :=
  f.blocks.toList.zipIdx.foldl (fun c (b, n) ↦ b.instrs.foldl (fun c k ↦
    match f.instr? k with
    | some i => if isDead f k i then { f := c.f.removeFrom n k, changed := true } else c
    | none => c) c) { f }

def removeDead : Nat → Changing → Changing
  | 0, c => c
  | fuel + 1, c =>
    let next := removeDeadOnce c.f
    if next.changed then removeDead fuel { f := next.f, changed := true } else c

/-- Rounds of simplifying and removing until a round changes nothing. Every other round takes away an
instruction. -/
def combineRounds : Nat → Changing → Changing
  | 0, c => c
  | fuel + 1, c =>
    let s := simplifyAll c.f
    let r := removeDead (s.f.instructions.length + 1) { f := s.f }
    if s.changed || r.changed then combineRounds fuel { f := r.f, changed := true } else { c with f := r.f }

def combine (f : Function) : Changing := combineRounds (f.instructions.length + 1) { f }

end CilSsa.Passes
