import CilSsa.Bytecode.Opcode
import CilSsa.Metadata.Token
import CilSsa.Number.Decimal

namespace CilSsa.Bytecode

open CilSsa.Metadata CilSsa.Number CilSsa.Text

/-- An operand by what it means: a number, the pattern of a double, a token or absolute targets. -/
inductive Operand
  | none
  | int (value : Int)
  | float (bits : UInt64)
  | token (t : Token)
  | targets (offsets : List Int)
deriving DecidableEq

/-- One instruction where it stands; `size` counts the code and the operand. -/
structure Instruction where
  offset : Nat
  op : Opcode
  size : Nat
  operand : Operand
deriving DecidableEq

def offsetLabel (n : Int) : String := "IL_" ++ hexPaddedInt 4 n

namespace Instruction

variable (i : Instruction)

def next : Nat := i.offset + i.size

def target : Int := match i.operand with
  | .targets (t :: _) => t
  | _ => -1

def intOperand : Int := match i.operand with
  | .int v => v
  | _ => 0

def tokenOperand : Token := match i.operand with
  | .token t => t
  | _ => ⟨0⟩

def floatOperand : UInt64 := match i.operand with
  | .float b => b
  | _ => 0

/-- The instruction as the assembler language writes it, with targets as offsets. -/
def text : String :=
  let name := i.op.mnemonic
  match i.op.operandKind with
  | .none => name
  | .token => name ++ " " ++ i.tokenOperand.text
  | .float32 | .float64 => name ++ " " ++ formatDouble i.floatOperand
  | .branch8 | .branch32 => name ++ " " ++ offsetLabel i.target
  | .table =>
    let ts := match i.operand with
      | .targets ts => ts
      | _ => []
    name ++ " [" ++ " ".intercalate (ts.map toString) ++ "]"
  | _ => name ++ " " ++ toString i.intOperand

def listed : String := offsetLabel i.offset ++ ": " ++ i.text

end Instruction

end CilSsa.Bytecode
