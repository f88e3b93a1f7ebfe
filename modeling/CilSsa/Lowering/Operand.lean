import CilSsa.Lowering.Action
import CilSsa.Lowering.Types
import CilSsa.Ssa.Builder

namespace CilSsa.Lowering

open CilSsa.Bytecode CilSsa.Metadata
open CilSsa.Ssa (BlockId Const FuncId Instr Value)

/-- An operand: its type and the value that carries it. A slot is the address of a local or argument
that stands for what it holds when it is read. -/
structure Operand where
  type : Ty
  value : Value
  slot : Bool := false

/-- What is fixed while the blocks of a body are lowered. -/
structure Site where
  world : Universe
  method : Method
  /-- The blocks of the body; the block before them all sets the slots up. -/
  spans : List Span
  args : List Operand := []
  locals : List Operand := []
  /-- The slot that holds the top of the run-time stack, and how many bytes that stack holds. -/
  top : Value
  capacity : Int
  /-- Gives the function of a method, compiled if need be. -/
  compile : Method → Compile FuncId

structure Stage where
  fn : FuncId
  /-- The block that code is added to. -/
  block : Nat := 0
  /-- How many constants were made. -/
  constants : Nat := 0
  /-- Operands that the block pushed and did not take yet, top first. -/
  pending : List Operand := []
  /-- Types of the operands below them, which were there when the block was entered, top first. -/
  entry : List Ty := []
  /-- The block is lowered before any block that leads to it, so what it takes tells its entry. -/
  inferring : Bool := false
  inferred : List Ty := []
  /-- The types on the stack at the entry of blocks by offset, bottom first. -/
  entries : List (Nat × List Ty) := [(0, [])]

abbrev Emit := StateT Stage Compile

abbrev Lower := ReaderT Site Emit

def onModule {α : Type} (f : Ssa.Module → Ssa.Module × α) : Compile α := do
  let u ← get
  let (module, a) := f u.module
  set { u with module }
  return a

def constant (c : Const) : Emit Value :=
  modifyGet fun s ↦ (.const c (.made s.constants), { s with constants := s.constants + 1 })

def intConst (t : Ssa.Ty) (n : Int) : Emit Value := constant (.ofInt t (Number.wordOfInt n))

def emitAt (block : Nat) (i : Instr) : Emit Value := do
  let s ← get
  onModule fun m ↦ m.append ⟨s.fn, block⟩ i

def emit (i : Instr) : Emit Value := do emitAt (← get).block i

def emitOr (v : Value) (i : Option Instr) : Emit Value :=
  match i with
  | some i => emit i
  | none => pure v

def slotFor (t : Ssa.Ty) (name : String) : Emit Value := emitAt 0 (.alloca t name)

def clearAt (block : Nat) (dst : Value) (size : Int) : Emit Unit := do
  let s ← get
  set { s with constants := s.constants + 3 }
  let _ ← onModule fun m ↦
    m.appendMemset ⟨s.fn, block⟩ dst 0 (Number.wordOfInt size) fun k ↦ .made (s.constants + k)

def load (p : Value) : Emit Value := emit (.load p "")

def store (v p : Value) : Emit Unit := do
  let _ ← emit (.store v p)

def castTo (op : Ssa.Op) (v : Value) (t : Ssa.Ty) : Emit Value := emit (.cast op v t "")

def pointerTo (v : Value) (t : Ssa.Ty) : Emit Value := emitOr v (Instr.pointerCast? v t "")

def emitCall (f : FuncId) (args : List Value) : Emit Value := do
  let u ← getThe CompilationUnit
  let ret := ((u.module.function? f).map (·.ret)).getD .void
  emit (.call f ret (args.map some) "")

def counterpart (t : Ty) : Lower Ssa.Ty := do codeType (← read).world t

def operandSize (t : Ty) : Lower Int := do sizeOf (← counterpart t)

def push (v : Operand) : Emit Unit := modify fun s ↦ { s with pending := v :: s.pending }

def materialize (v : Operand) : Emit Operand := do
  if v.slot then return ⟨v.type.elem, ← load v.value, false⟩ else return v

def deref (v : Operand) : Emit Operand := do
  let v ← materialize v
  if v.type.isByRef then return ⟨v.type.elem, ← load v.value, false⟩ else return v

/-- Reads every pending slot. What may write a local or an argument does this first, so that earlier
loads keep what they saw. -/
def settle : Emit Unit := do
  let settled ← (← get).pending.reverse.mapM materialize
  modify fun s ↦ { s with pending := settled.reverse }

def unsupported {α : Type} (i : Instruction) (reason : String) : Lower α := do
  throw (.unsupportedInstruction i.op i.offset (← read).method.text reason)

end CilSsa.Lowering
