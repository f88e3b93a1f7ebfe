import CilSsa.Ssa.Dominance

namespace CilSsa.Passes

open CilSsa.Ssa

structure Loop where
  header : BlockId
  latch : BlockId
  blocks : List BlockId

/-- Follows predecessors from `work` until nothing new is found; the fuel bounds the number of visits. -/
def loopBody (preds : BlockId → List BlockId) : Nat → List BlockId → List BlockId → List BlockId
  | 0, _, body => body
  | _, [], body => body
  | fuel + 1, b :: work, body =>
    if body.contains b then loopBody preds fuel work body
    else loopBody preds fuel (preds b ++ work) (b :: body)

def loopOf (m : Module) (f : Function) (header latch : BlockId) : Loop :=
  let body := loopBody (m.predecessors f) m.walkBound [latch] [header]
  ⟨header, latch, f.blockIds.filter body.contains⟩

def findLoops (m : Module) (f : Function) : List Loop :=
  let dom := DomTree.of m f
  (f.blockIds.filter dom.reachable).flatMap fun b ↦
    (m.successors b).filterMap fun
      | some h => if dom.dominates h b then some (loopOf m f h b) else none
      | none => none

end CilSsa.Passes
