import CilSsa.Bytecode.Instruction

namespace CilSsa.Bytecode

open CilSsa.Metadata CilSsa.Number CilSsa.Text

inductive DecodeProblem
  | truncated (need have_ : Nat)
  | unknownOpcode (code : UInt16)
  | tableTooLong (entries : Nat)
deriving DecidableEq

/-- A malformed stream: the offset of the instruction at fault, and the fault. -/
structure DecodeError where
  offset : Nat
  problem : DecodeProblem
deriving DecidableEq

def DecodeProblem.message : DecodeProblem → String
  | .truncated need have_ =>
    "truncated operand: need " ++ toString need ++ " bytes, have " ++ toString have_
  | .unknownOpcode code => "unknown opcode " ++ codeName code
  | .tableTooLong n => "switch table of " ++ toString n ++ " entries exceeds stream"

def DecodeError.message (e : DecodeError) : String := offsetLabel e.offset ++ ": " ++ e.problem.message

def takeBytes (n : Nat) (bs : Bytes) : Except DecodeProblem Bytes :=
  if n ≤ bs.length then .ok (bs.take n) else .error (.truncated n bs.length)

/-- The targets of a jump table of `n` entries whose next instruction is at `base`. -/
def tableTargets (base : Nat) : Nat → Bytes → List Int
  | 0, _ => []
  | n + 1, bs =>
    ((base : Int) + signedOf 32 (ofLittleEndian (bs.take 4))) :: tableTargets base n (bs.drop 4)

/-- Reads the operand at the head of `bs`, where `pos` is its offset; also gives its length. -/
def decodeOperand (kind : OperandKind) (pos : Nat) (bs : Bytes) : Except DecodeProblem (Operand × Nat) := do
  let raw ← takeBytes kind.size bs
  let n := ofLittleEndian raw
  match kind with
  | .none => return (.none, 0)
  | .int8 => return (.int (signedOf 8 n), 1)
  | .uint8 => return (.int n, 1)
  | .uint16 => return (.int n, 2)
  | .int32 => return (.int (signedOf 32 n), 4)
  | .int64 => return (.int (signedOf 64 n), 8)
  | .float32 => return (.float (widen n.toUInt32), 4)
  | .float64 => return (.float n.toUInt64, 8)
  | .token => return (.token ⟨n.toUInt32⟩, 4)
  | .branch8 => return (.targets [(pos + 1 : Nat) + signedOf 8 n], 1)
  | .branch32 => return (.targets [(pos + 4 : Nat) + signedOf 32 n], 4)
  | .table =>
    if bs.length - 4 < n * 4 then throw (.tableTooLong n)
    return (.targets (tableTargets (pos + 4 + n * 4) n (bs.drop 4)), 4 + n * 4)

def decodeCode (b : UInt8) (rest : Bytes) : Except DecodeProblem (UInt16 × Nat) :=
  if b = leadByte then
    match rest with
    | [] => .error (.truncated 1 0)
    | c :: _ => .ok ((0xFE00 + c.toNat).toUInt16, 2)
  else .ok (b.toNat.toUInt16, 1)

def decodeOne (offset : Nat) (b : UInt8) (rest : Bytes) : Except DecodeError Instruction :=
  let result : Except DecodeProblem Instruction := do
    let (code, len) ← decodeCode b rest
    match Opcode.ofCode? code with
    | none => throw (.unknownOpcode code)
    | some op =>
      let (operand, n) ← decodeOperand op.operandKind (offset + len) (rest.drop (len - 1))
      return ⟨offset, op, len + n, operand⟩
  result.mapError (⟨offset, ·⟩)

def decodeFrom (offset : Nat) : Bytes → List Instruction × Option DecodeError
  | [] => ([], none)
  | b :: rest =>
    match decodeOne offset b rest with
    | .error e => ([], some e)
    | .ok i =>
      let (more, fault) := decodeFrom (offset + i.size) (rest.drop (i.size - 1))
      (i :: more, fault)
termination_by code => code.length
decreasing_by
  simp only [List.length_drop, List.length_cons]
  omega

def decodeAll (code : Bytes) : List Instruction × Option DecodeError := decodeFrom 0 code

def listing (is : List Instruction) : String :=
  String.join (is.map fun i ↦ i.listed ++ "\n")

def disassemble (code : Bytes) : String := listing (decodeAll code).1

end CilSsa.Bytecode
