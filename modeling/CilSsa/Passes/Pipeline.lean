import CilSsa.Passes.Combine
import CilSsa.Passes.Numbering

namespace CilSsa.Passes

open CilSsa.Ssa

inductive Pass
  | escape | promote | combine | reassociate | number | unroll | vectorize
deriving DecidableEq

namespace Pass

def all : List Pass := [.escape, .promote, .combine, .reassociate, .number, .unroll, .vectorize]

def name : Pass → String
  | .escape => "basic-aa"
  | .promote => "mem2reg"
  | .combine => "instcombine"
  | .reassociate => "reassociate"
  | .number => "gvn"
  | .unroll => "loop-unroll"
  | .vectorize => "loop-vectorize"

def ofName? (s : String) : Option Pass := all.find? fun p ↦ p.name == s

/-- One pass over a function, with what earlier passes of the run found out about its slots. -/
def run (p : Pass) (f : Function) (known : Escapes) : Changing × Escapes :=
  match p with
  | .escape =>
    let found := findEscapes f
    ({ f }, found ++ known.filter fun (k, _) ↦ (found.lookup k).isNone)
  | .promote => Passes.promote known f
  | .combine => (Passes.combine f, known)
  | .reassociate => (Passes.reassociate f, known)
  | .number => (Passes.number f, known)
  | .unroll | .vectorize => ({ f }, known)

end Pass

/-- Runs passes in order; tells which of them changed the function. A declaration is left alone. -/
def runPasses (passes : List Pass) (f : Function) : Function × List (Pass × Bool) :=
  if f.isDeclaration then (f, [])
  else
    let (f, _, out) := passes.foldl (fun (f, known, out) p ↦
      let (c, known) := p.run f known
      (c.f, known, out ++ [(p, c.changed)])) (f, ([] : Escapes), ([] : List (Pass × Bool)))
    (f, out)

end CilSsa.Passes
