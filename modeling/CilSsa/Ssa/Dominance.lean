import CilSsa.Ssa.Module

namespace CilSsa.Ssa

namespace Module

variable (m : Module)

def successors (b : BlockId) : List (Option BlockId) :=
  match (m.function? b.fn).bind fun f ↦ (f.blocks[b.index]?).bind f.terminator? with
  | some t => t.successors
  | none => []

def predecessors (f : Function) (b : BlockId) : List BlockId :=
  f.blockIds.flatMap fun p ↦ ((m.successors p).filter (· == some b)).map fun _ ↦ p

def walkBound : Nat :=
  m.functions.toList.foldr (fun f n ↦ f.blockIds.foldr (fun b k ↦ 1 + (m.successors b).length + k) 0 + n) 2

/-- A postorder of what can be reached from a list of blocks and was not seen before; the fuel bounds
the depth. Gives the blocks seen and the blocks finished, latest first. -/
def walk : Nat → List (Option BlockId) → List BlockId × List BlockId → List BlockId × List BlockId
  | 0, _, acc => acc
  | _, [], acc => acc
  | fuel + 1, none :: rest, acc => walk fuel rest acc
  | fuel + 1, some b :: rest, (seen, done) =>
    if seen.contains b then walk fuel rest (seen, done)
    else
      let (seen, done) := walk fuel (m.successors b) (b :: seen, done)
      walk fuel rest (seen, b :: done)

def reversePostorder (f : Function) : List BlockId :=
  if f.isDeclaration then []
  else (m.walk m.walkBound [some (f.blockId 0)] ([], [])).2

end Module

/-- The reachable blocks in reverse postorder, and for each the place of its immediate dominator. -/
structure DomTree where
  order : List BlockId
  idom : Array (Option Nat)

namespace DomTree

/-- The nearest common dominator of two places; the fuel is used up by steps towards the entry. -/
def meet (idom : Array (Option Nat)) : Nat → Nat → Nat → Nat
  | 0, a, _ => a
  | fuel + 1, a, b =>
    if a = b then a
    else if b < a then meet idom fuel ((idom.getD a none).getD 0) b
    else meet idom fuel a ((idom.getD b none).getD 0)

def suggest (idom : Array (Option Nat)) (preds : List Nat) : Option Nat :=
  preds.foldl (fun acc p ↦
    if (idom.getD p none).isNone then acc
    else match acc with
      | none => some p
      | some d => some (meet idom (p + d + 1) p d)) none

def sweep (preds : List (List Nat)) (idom : Array (Option Nat)) : Array (Option Nat) :=
  (preds.zipIdx.drop 1).foldl (fun idom (ps, b) ↦
    match suggest idom ps with
    | none => idom
    | some d => idom.set! b (some d)) idom

def settle (preds : List (List Nat)) : Nat → Array (Option Nat) → Array (Option Nat)
  | 0, idom => idom
  | fuel + 1, idom =>
    let next := sweep preds idom
    if next = idom then idom else settle preds fuel next

def of (m : Module) (f : Function) : DomTree :=
  let order := m.reversePostorder f
  let n := order.length
  let preds := order.map fun b ↦ (m.predecessors f b).filterMap fun p ↦ order.idxOf? p
  let start := (Array.replicate n (none : Option Nat)).setIfInBounds 0 (some 0)
  ⟨order, settle preds (n * n + 1) start⟩

variable (d : DomTree)

def reachable (b : BlockId) : Bool := d.order.contains b

def above (a : Nat) : Nat → Nat → Bool
  | 0, _ => false
  | fuel + 1, b =>
    if a = b then true
    else match d.idom.getD b none with
      | none => false
      | some next => if next = b then false else above a fuel next

/-- Every way from the entry to `b` goes through `a`. What cannot be reached is dominated by all. -/
def dominates (a b : BlockId) : Bool :=
  match d.order.idxOf? b, d.order.idxOf? a with
  | none, _ => true
  | some _, none => false
  | some j, some i => d.above i (d.order.length + 1) j

end DomTree

end CilSsa.Ssa
