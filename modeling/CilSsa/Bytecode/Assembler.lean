import CilSsa.Bytecode.Instruction

namespace CilSsa.Bytecode

open CilSsa.Metadata CilSsa.Number CilSsa.Text

inductive AssemblyError
  | unknownOpcode (offset : Nat) (code : UInt16)
  | operandSize (offset : Nat) (op : Opcode)
  | labelTwice (label : String)
  | labelMissing (offset : Nat) (label : String)
  | shortBranchRange (offset : Nat) (label : String) (distance : Int)
  | branchRange (offset : Nat) (label : String)
deriving DecidableEq

def AssemblyError.message : AssemblyError → String
  | .unknownOpcode at_ code => offsetLabel at_ ++ ": unknown opcode " ++ codeName code
  | .operandSize at_ op =>
    offsetLabel at_ ++ ": " ++ op.mnemonic ++ " takes a " ++ toString op.operandKind.size ++ "-byte operand"
  | .labelTwice l => "label " ++ quote l ++ " defined twice"
  | .labelMissing at_ l => offsetLabel at_ ++ ": undefined label " ++ quote l
  | .shortBranchRange at_ l d => offsetLabel at_ ++ ": short branch to " ++ quote l ++
      " out of range (" ++ toString d ++ "): out of range"
  | .branchRange at_ l => offsetLabel at_ ++ ": branch to " ++ quote l ++ " out of range: out of range"

structure Fixup where
  position : Nat
  next : Nat
  width : Nat
  label : String
  source : Nat

structure Assembler where
  code : Array UInt8 := #[]
  labels : List (String × Nat) := []
  fixups : Array Fixup := #[]
  fault : Option AssemblyError := none

namespace Assembler

variable (a : Assembler)

def size : Nat := a.code.size

def fail (e : AssemblyError) : Assembler :=
  match a.fault with
  | none => { a with fault := some e }
  | some _ => a

def append (bs : Bytes) : Assembler := { a with code := a.code ++ bs.toArray }

def emitCode (code : UInt16) (kinds : List OperandKind) : Assembler :=
  match Opcode.ofCode? code with
  | none => a.fail (.unknownOpcode a.size code)
  | some op =>
    let a := if kinds.contains op.operandKind then a else a.fail (.operandSize a.size op)
    a.append (codeBytes code)

def emit (code : UInt16) : Assembler := a.emitCode code [.none]

def emitByte (code : UInt16) (v : Nat) : Assembler :=
  (a.emitCode code [.int8, .uint8]).append (littleEndian 1 v)

def emitIndex (code : UInt16) (v : Nat) : Assembler :=
  (a.emitCode code [.uint16]).append (littleEndian 2 v)

def emitInt32 (code : UInt16) (v : Nat) : Assembler :=
  (a.emitCode code [.int32]).append (littleEndian 4 v)

def emitInt64 (code : UInt16) (v : Nat) : Assembler :=
  (a.emitCode code [.int64]).append (littleEndian 8 v)

def emitFloat32 (code : UInt16) (bits : UInt32) : Assembler :=
  (a.emitCode code [.float32]).append (littleEndian 4 bits.toNat)

def emitFloat64 (code : UInt16) (bits : UInt64) : Assembler :=
  (a.emitCode code [.float64]).append (littleEndian 8 bits.toNat)

def emitToken (code : UInt16) (t : Token) : Assembler :=
  (a.emitCode code [.token]).append (littleEndian 4 t.raw.toNat)

def emitBranch (code : UInt16) (label : String) : Assembler :=
  let source := a.size
  let a := a.emitCode code [.branch8, .branch32]
  let width := match Opcode.ofCode? code with
    | some op => op.operandKind.size
    | none => 0
  let position := a.size
  let a := a.append (List.replicate width 0)
  { a with fixups := a.fixups.push ⟨position, a.size, width, label, source⟩ }

def emitSwitch (labels : List String) : Assembler :=
  let source := a.size
  let a := a.emitCode Opcode.switch.code [.table]
  let a := a.append (littleEndian 4 labels.length)
  let first := a.size
  let a := a.append (List.replicate (4 * labels.length) 0)
  let fixups := labels.zipIdx.map fun (l, k) ↦ ⟨first + 4 * k, a.size, 4, l, source⟩
  { a with fixups := a.fixups ++ fixups.toArray }

def mark (label : String) : Assembler :=
  match a.labels.lookup label with
  | some _ => a.fail (.labelTwice label)
  | none => { a with labels := (label, a.size) :: a.labels }

def patch (code : Array UInt8) (position : Nat) : Bytes → Array UInt8
  | [] => code
  | b :: bs => patch (code.setIfInBounds position b) (position + 1) bs

def resolve (labels : List (String × Nat)) (code : Array UInt8) (f : Fixup) :
    Except AssemblyError (Array UInt8) :=
  match labels.lookup f.label with
  | none => .error (.labelMissing f.source f.label)
  | some target =>
    let distance : Int := (target : Int) - f.next
    let pattern := (wordOfInt distance).toNat
    if f.width = 1 then
      if -128 ≤ distance ∧ distance ≤ 127 then .ok (patch code f.position (littleEndian 1 pattern))
      else .error (.shortBranchRange f.source f.label distance)
    else if f.width = 4 then
      if -2147483648 ≤ distance ∧ distance ≤ 2147483647 then
        .ok (patch code f.position (littleEndian 4 pattern))
      else .error (.branchRange f.source f.label)
    else .ok code

def bytes : Except AssemblyError Bytes :=
  match a.fault with
  | some e => .error e
  | none => (a.fixups.toList.foldlM (resolve a.labels) a.code).map Array.toList

end Assembler

end CilSsa.Bytecode
