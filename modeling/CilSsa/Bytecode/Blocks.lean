import CilSsa.Bytecode.Decode

namespace CilSsa.Bytecode

open CilSsa.Text

/-- The bytes from `start` up to `stop` and their instructions. A span that falls through ends
without a terminator and goes on in the span at `stop`. -/
structure Span where
  start : Nat
  stop : Nat
  instrs : List Instruction
  fallsThrough : Bool

inductive DiscoveryProblem
  | emptyBody
  | decode (e : DecodeError)
  | targetInside (target : Int)
  | conditionalAtEnd
  | runsOff (start : Nat)
deriving DecidableEq

inductive BlockError
  | malformed (offset : Nat) (problem : DiscoveryProblem)
  | unsupported (op : Opcode) (offset : Nat)
deriving DecidableEq

def DiscoveryProblem.message : DiscoveryProblem → String
  | .emptyBody => "empty method body"
  | .decode e => e.message
  | .targetInside t => "branch target " ++ offsetLabel t ++ " is not an instruction boundary"
  | .conditionalAtEnd => "conditional branch falls through past the end"
  | .runsOff s => "block at " ++ offsetLabel s ++ " runs off the end of the method"

def BlockError.message (method : Option String) : BlockError → String
  | .malformed offset problem =>
    let place := match method with
      | some m => m ++ " at " ++ offsetLabel offset
      | none => offsetLabel offset
    "block discovery failed in " ++ place ++ ": " ++ problem.message
  | .unsupported op offset =>
    "unsupported instruction " ++ op.mnemonic ++ " at " ++ offsetLabel offset ++
      (match method with
        | some m => " in " ++ m
        | none => "") ++ ": not supported by block discovery"

def Instruction.isShortBranch (i : Instruction) : Bool := i.op.operandKind = .branch8

def Instruction.endsBlock (i : Instruction) : Bool := i.op = .ret || i.isShortBranch

/-- Instructions that end a block in a way that blocks do not model: long branches, jump tables
and what belongs to exception handling. -/
def Instruction.isRejected (i : Instruction) : Bool :=
  [Opcode.switch, .throw, .rethrow, .leave, .leaveS, .endfinally, .endfilter].contains i.op ||
  i.op.operandKind = .branch32

def leadersOf (size : Nat) (boundaries : List Nat) (i : Instruction) : Except BlockError (List Nat) :=
  if i.isRejected then .error (.unsupported i.op i.offset)
  else
    let following := if i.next < size then [i.next] else []
    if i.isShortBranch then
      let t := i.target
      if t < 0 ∨ (size : Int) ≤ t ∨ !boundaries.contains t.toNat then
        .error (.malformed i.offset (.targetInside t))
      else if i.op.flow = .condBranch ∧ size ≤ i.next then
        .error (.malformed i.offset .conditionalAtEnd)
      else .ok (t.toNat :: following)
    else if i.op = .ret then .ok following
    else .ok []

/-- Cuts instructions at the leaders; `start` and `current` hold the open span, newest first. -/
def cutSpans (leaders : List Nat) (size start : Nat) (current : List Instruction) :
    List Instruction → List Span
  | [] => [⟨start, size, current.reverse, false⟩]
  | i :: rest =>
    if leaders.contains i.offset && !current.isEmpty then
      let falls := match current with
        | last :: _ => !last.endsBlock
        | [] => true
      ⟨start, i.offset, current.reverse, falls⟩ :: cutSpans leaders size i.offset [i] rest
    else cutSpans leaders size start (i :: current) rest

def discoverBlocks (code : Bytes) : Except BlockError (List Span) :=
  if code = [] then .error (.malformed 0 .emptyBody)
  else match decodeAll code with
    | (_, some e) => .error (.malformed e.offset (.decode e))
    | (instrs, none) => do
      let boundaries := instrs.map (·.offset)
      let leaders ← instrs.mapM (leadersOf code.length boundaries)
      let spans := cutSpans leaders.flatten code.length 0 [] instrs
      match spans.getLast? with
      | some sp => match sp.instrs.getLast? with
        | some last =>
          if last.endsBlock then return spans
          else throw (.malformed last.offset (.runsOff sp.start))
        | none => return spans
      | none => return spans

end CilSsa.Bytecode
