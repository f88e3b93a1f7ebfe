import CilSsa.Bytecode.Blocks
import CilSsa.Metadata.Resolver
import CilSsa.Ssa.Layout
import CilSsa.Ssa.Verify

namespace CilSsa.Lowering

open CilSsa.Bytecode CilSsa.Metadata CilSsa.Text

/-- Why a type has no counterpart in the intermediate code. -/
inductive TypeProblem
  | voidParameter
  | doubleReference
  | referenceType
  | openParameter
  | openType
  | unmapped
  | noStorage (field : String)
  | layout (e : Ssa.LayoutError)

def TypeProblem.message : TypeProblem → String
  | .voidParameter => "void parameter"
  | .doubleReference => "reference to a reference"
  | .referenceType => "reference types are not supported"
  | .openParameter => "open generic parameter"
  | .openType => "open generic type"
  | .unmapped => "primitive has no backend mapping"
  | .noStorage f => "field " ++ f ++ " has no storage"
  | .layout e => e.message

inductive Part
  | parameter (index : Nat) (method : String)
  | returnType (method : String)
  | local (index : Nat)
  | field (name : String)
  | argument (index : Nat) (method : String)
  | receiver (method : String)

def Part.text : Part → String
  | .parameter i m => "parameter " ++ toString i ++ " of " ++ m
  | .returnType m => "return type of " ++ m
  | .local i => "local " ++ toString i
  | .field f => "field " ++ f
  | .argument i m => "argument " ++ toString i ++ " of " ++ m
  | .receiver m => "receiver of " ++ m

inductive CompileError
  | closed
  | unsupportedType (t : Ty) (p : TypeProblem)
  | unsupportedInstruction (op : Opcode) (offset : Nat) (method : String) (reason : String)
  | cast (src dst : Ty) (reason : String)
  | discovery (method : String) (e : BlockError)
  | verification (method : String) (errors : List Ssa.VerifyError)
  | lowering (method : String) (offset : Nat) (op : Opcode) (cause : CompileError)
  | within (part : Part) (cause : CompileError)
  | resolution (e : ResolutionError)
  | fieldIndex (e : FieldIndexError)
  | layout (e : Ssa.LayoutError)
  | declare (e : Ssa.DeclareError)
  | noOwner (method : String)
  | operandUnknown
  | underflow
  | overflow (live size : Int)
  | shape (got recorded : List Ty) (offset : Nat)
  | slotRange (what : String) (index : Int) (count : Nat)
  | notConstructor (method : String)
  | notAddress (t elem : Ty)
  | tooDeep

def typeList (ts : List Ty) : String := "[" ++ " ".intercalate (ts.map Ty.text) ++ "]"

def CompileError.message : CompileError → String
  | .closed => "compilation unit closed"
  | .unsupportedType t p => "unsupported type " ++ t.text ++ ": " ++ p.message
  | .unsupportedInstruction op offset m reason =>
    "unsupported instruction " ++ op.mnemonic ++ " at " ++ offsetLabel offset ++ " in " ++ m ++
      (if reason = "" then "" else ": " ++ reason)
  | .cast a b reason =>
    "cannot cast " ++ a.text ++ " to " ++ b.text ++ (if reason = "" then "" else ": " ++ reason)
  | .discovery m e => e.message (some m)
  | .verification m es =>
    "verification of " ++ m ++ " failed: " ++ "\n".intercalate (es.map Ssa.VerifyError.message)
  | .lowering m offset op e => m ++ ": " ++ offsetLabel offset ++ " " ++ op.mnemonic ++ ": " ++ e.message
  | .within part e => part.text ++ ": " ++ e.message
  | .resolution e => e.message
  | .fieldIndex e => e.message
  | .layout e => e.message
  | .declare e => e.message
  | .noOwner m => "instance method " ++ m ++ " has no declaring type"
  | .operandUnknown => "operand type unknown at block entry"
  | .underflow => "evaluation stack underflow"
  | .overflow live size =>
    "evaluation stack overflow: " ++ toString live ++ " bytes live, buffer holds " ++ toString size
  | .shape got recorded offset =>
    "stack shape " ++ typeList got ++ " does not match " ++ typeList recorded ++ " already recorded for " ++
      offsetLabel offset
  | .slotRange what i n => what ++ " " ++ toString i ++ " out of range (" ++ toString n ++ " declared)"
  | .notConstructor m => "newobj target " ++ m ++ " is not a constructor"
  | .notAddress t elem => t.text ++ " is not an address of " ++ elem.text
  | .tooDeep => "nesting too deep"

end CilSsa.Lowering
