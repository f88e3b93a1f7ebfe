import CilSsa.Metadata.Type
import CilSsa.Number.Decimal
import CilSsa.Number.Word
import CilSsa.Ssa.Eval

namespace CilSsa.Command

open CilSsa.Metadata CilSsa.Number CilSsa.Text

inductive ArgumentError
  | notScalar (t : Ty)
  | literal (e : LiteralError)

def ArgumentError.message : ArgumentError → String
  | .notScalar t => "cannot pass " ++ t.text ++ " from the command line"
  | .literal e => e.message

def literalBits : Prim → Nat
  | .int8 | .uint8 => 8
  | .int16 | .uint16 | .char => 16
  | .int32 | .uint32 => 32
  | _ => 64

def parseScalar (p : Prim) (s : String) : Except LiteralError UInt64 := do
  match p with
  | .bool => return if ← parseBool s then 1 else 0
  | .float32 => return (← parseFloat .single s).toUInt64
  | .float64 => return (← parseFloat .double s).toUInt64
  | _ =>
    if (Ty.prim p).isUnsigned then return (← parseUnsigned (literalBits p) s).toUInt64
    else return wordOfInt (← parseSigned (literalBits p) s)

def parseArgument (t : Ty) (s : String) : Except ArgumentError UInt64 :=
  match t.prim? with
  | some p => (parseScalar p s).mapError .literal
  | none => .error (.notScalar t)

def formatScalar (p : Prim) (v : UInt64) : String :=
  match p with
  | .bool => if Ssa.isTrueBits v then "true" else "false"
  | .int8 | .int16 | .int32 | .int64 | .intPtr => toString (intOfWord (signExtend v (literalBits p)))
  | .uint8 | .uint16 | .char | .uint32 | .uint64 | .uintPtr => toString (zeroExtend v (literalBits p)).toNat
  | .float32 => formatSingle v.toUInt32
  | .float64 => formatDouble v

def formatResult (t : Ty) (v : UInt64) : String :=
  if t.isVoid then "(void)"
  else match t.prim? with
    | some p => formatScalar p v
    | none => t.text ++ " @ 0x" ++ hexDigits v.toNat

end CilSsa.Command
