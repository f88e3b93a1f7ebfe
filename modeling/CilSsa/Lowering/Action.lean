import CilSsa.Bytecode.Instruction
import CilSsa.Metadata.Type
import CilSsa.Ssa.Op

namespace CilSsa.Lowering

open CilSsa.Bytecode CilSsa.Metadata

inductive Arith
  | add | sub | mul
deriving DecidableEq

/-- A comparison: its predicate for integers and pointers, and its predicate for floats. -/
structure Comparison where
  ints : Ssa.Pred
  floats : Ssa.Pred
deriving DecidableEq

inductive Action
  | nothing
  | loadArg (n : Int)
  | argAddress (n : Int)
  | storeArg (n : Int)
  | loadLocal (n : Int)
  | localAddress (n : Int)
  | storeLocal (n : Int)
  | int32 (v : Int)
  | int64 (v : Int)
  | float32 (double : UInt64)
  | float64 (double : UInt64)
  | dup
  | pop
  | arith (op : Arith)
  | compare (c : Comparison)
  | convert (p : Prim)
  | convertUnsigned
  | loadThrough (p : Prim)
  | storeThrough (p : Prim)
  | loadObject
  | storeObject
  | sizeOf
  | initObject
  | loadField
  | fieldAddress
  | storeField
  | newObject
  | call
  | ret
  | jump
  | jumpIf (want : Bool)
  | jumpCompare (c : Comparison)
  | unsupported
deriving DecidableEq

/-- The action of an opcode with an integer operand `n` and a floating-point operand `f`. -/
def actionOf (op : Opcode) (n : Int) (f : UInt64) : Action :=
  match op with
  | .nop => .nothing
  | .ldarg0 => .loadArg 0
  | .ldarg1 => .loadArg 1
  | .ldarg2 => .loadArg 2
  | .ldarg3 => .loadArg 3
  | .ldargS | .ldarg => .loadArg n
  | .ldargaS | .ldarga => .argAddress n
  | .stargS | .starg => .storeArg n
  | .ldloc0 => .loadLocal 0
  | .ldloc1 => .loadLocal 1
  | .ldloc2 => .loadLocal 2
  | .ldloc3 => .loadLocal 3
  | .ldlocS | .ldloc => .loadLocal n
  | .ldlocaS | .ldloca => .localAddress n
  | .stloc0 => .storeLocal 0
  | .stloc1 => .storeLocal 1
  | .stloc2 => .storeLocal 2
  | .stloc3 => .storeLocal 3
  | .stlocS | .stloc => .storeLocal n
  | .ldcI4M1 => .int32 (-1)
  | .ldcI40 => .int32 0
  | .ldcI41 => .int32 1
  | .ldcI42 => .int32 2
  | .ldcI43 => .int32 3
  | .ldcI44 => .int32 4
  | .ldcI45 => .int32 5
  | .ldcI46 => .int32 6
  | .ldcI47 => .int32 7
  | .ldcI48 => .int32 8
  | .ldcI4S | .ldcI4 => .int32 n
  | .ldcI8 => .int64 n
  | .ldcR4 => .float32 f
  | .ldcR8 => .float64 f
  | .dup => .dup
  | .pop => .pop
  | .add => .arith .add
  | .sub => .arith .sub
  | .mul => .arith .mul
  | .ceq => .compare ⟨.eq, .oeq⟩
  | .cgt => .compare ⟨.sgt, .ogt⟩
  | .cgtUn => .compare ⟨.ugt, .fugt⟩
  | .clt => .compare ⟨.slt, .olt⟩
  | .cltUn => .compare ⟨.ult, .fult⟩
  | .convI1 => .convert .int8
  | .convI2 => .convert .int16
  | .convI4 => .convert .int32
  | .convI8 => .convert .int64
  | .convI => .convert .intPtr
  | .convU1 => .convert .uint8
  | .convU2 => .convert .uint16
  | .convU4 => .convert .uint32
  | .convU8 => .convert .uint64
  | .convU => .convert .uintPtr
  | .convR4 => .convert .float32
  | .convR8 => .convert .float64
  | .convRUn => .convertUnsigned
  | .ldindI1 => .loadThrough .int8
  | .ldindU1 => .loadThrough .uint8
  | .ldindI2 => .loadThrough .int16
  | .ldindU2 => .loadThrough .uint16
  | .ldindI4 => .loadThrough .int32
  | .ldindU4 => .loadThrough .uint32
  | .ldindI8 => .loadThrough .int64
  | .ldindI => .loadThrough .intPtr
  | .ldindR4 => .loadThrough .float32
  | .ldindR8 => .loadThrough .float64
  | .stindI1 => .storeThrough .int8
  | .stindI2 => .storeThrough .int16
  | .stindI4 => .storeThrough .int32
  | .stindI8 => .storeThrough .int64
  | .stindI => .storeThrough .intPtr
  | .stindR4 => .storeThrough .float32
  | .stindR8 => .storeThrough .float64
  | .ldobj => .loadObject
  | .stobj => .storeObject
  | .sizeof => .sizeOf
  | .initobj => .initObject
  | .ldfld => .loadField
  | .ldflda => .fieldAddress
  | .stfld => .storeField
  | .newobj => .newObject
  | .call => .call
  | .ret => .ret
  | .brS => .jump
  | .brtrueS => .jumpIf true
  | .brfalseS => .jumpIf false
  | .beqS => .jumpCompare ⟨.eq, .oeq⟩
  | .bneUnS => .jumpCompare ⟨.ne, .une⟩
  | .bgeS => .jumpCompare ⟨.sge, .oge⟩
  | .bgeUnS => .jumpCompare ⟨.uge, .fuge⟩
  | .bgtS => .jumpCompare ⟨.sgt, .ogt⟩
  | .bgtUnS => .jumpCompare ⟨.ugt, .fugt⟩
  | .bleS => .jumpCompare ⟨.sle, .ole⟩
  | .bleUnS => .jumpCompare ⟨.ule, .fule⟩
  | .bltS => .jumpCompare ⟨.slt, .olt⟩
  | .bltUnS => .jumpCompare ⟨.ult, .fult⟩
  | _ => .unsupported

def action (i : Instruction) : Action := actionOf i.op i.intOperand i.floatOperand

end CilSsa.Lowering
