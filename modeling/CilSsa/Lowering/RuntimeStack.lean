import CilSsa.Lowering.Conversion

namespace CilSsa.Lowering

open CilSsa.Bytecode CilSsa.Metadata
open CilSsa.Ssa (Value)

/-- Bytes in the buffer of a body: room for as many eight-byte operands as it declares, and for one at
least. -/
def bufferSize (maxStack : Int) : Int := max (Number.wrapInt (maxStack * 8)) 8

def makeBuffer (size : Int) : Emit Value := do
  let buffer ← emitAt 0 (.arrayAlloca .i8 (some (← intConst .i32 size)) "evalstack")
  let top ← slotFor .bytePointer "evalstack.top"
  let _ ← emitAt 0 (.store buffer top)
  return top

def advance (p : Value) (delta : Int) : Emit Value := do
  let n ← castTo .ptrtoint p .i64
  let sum ← emit (.binary .add n (← intConst .i64 delta) "")
  castTo .inttoptr sum .bytePointer

def pushBuffer (cursor v : Value) (size : Int) : Emit Unit := do
  let top ← load cursor
  store v (← pointerTo top (.pointer v.type))
  store (← advance top size) cursor

def popBuffer (cursor : Value) (t : Ssa.Ty) (size : Int) : Emit Value := do
  let top ← advance (← load cursor) (-size)
  store top cursor
  load (← pointerTo top (.pointer t))

/-- The type of the operand below all that the block pushed. A block whose entry is not known yet takes
what the instruction expects, aggregates by reference. -/
def takeEntry (hint : Option Ty) : Emit Ty := do
  let s ← get
  match s.entry with
  | t :: rest =>
    set { s with entry := rest }
    return t
  | [] =>
    if s.inferring then match hint with
      | some t =>
        let t := if t.kind = .valueType then .byref t else t
        set { s with inferred := t :: s.inferred }
        return t
      | none => throw .operandUnknown
    else throw .underflow

def popRaw (hint : Option Ty) : Lower Operand := do
  let s ← getThe Stage
  match s.pending with
  | v :: rest =>
    set { s with pending := rest }
    return v
  | [] =>
    let t ← takeEntry hint
    let code ← counterpart t
    let size ← sizeOf code
    return ⟨t, ← popBuffer (← read).top code size, false⟩

def pop (t : Ty) : Lower Operand := do convert (← popRaw (some t)) t

def settleEntry (start : Nat) : Emit Unit :=
  modify fun s ↦ if s.inferring then
    { s with entries := (start, s.inferred) :: s.entries, inferring := false } else s

def sameShape : List Ty → List Ty → Lower Bool
  | [], [] => return true
  | a :: as, b :: bs => do
    let x ← counterpart a
    let y ← counterpart b
    if x = y then sameShape as bs else return false
  | _, _ => return false

def spilled (v : Operand) : Emit Operand := do
  let v ← materialize v
  if v.value.type.isStruct then
    let slot ← slotFor v.value.type "spill"
    store v.value slot
    return ⟨.byref v.type, slot, false⟩
  else return v

/-- Pushes operands onto the buffer, bottom first, above `depth` bytes; gives their types. -/
def pushAll : Int → List Operand → Lower (List Ty)
  | _, [] => return []
  | depth, v :: rest => do
    let site ← read
    let v ← spilled v
    let size ← sizeOf v.value.type
    let depth := depth + size
    if depth > site.capacity then throw (.overflow depth site.capacity)
    pushBuffer site.top v.value size
    return v.type :: (← pushAll depth rest)

def recordEntry (shape : List Ty) (offset : Nat) : Lower Unit := do
  let s ← getThe Stage
  match s.entries.lookup offset with
  | none => set { s with entries := (offset, shape) :: s.entries }
  | some known => if !(← sameShape known shape) then throw (.shape shape known offset)

/-- Moves the pending operands to the buffer, and records the stack for each block that follows. -/
def flush (start : Nat) (successors : List Nat) : Lower Unit := do
  settleEntry start
  let s ← getThe Stage
  let below := s.entry.reverse
  let sizes ← below.mapM operandSize
  let above ← pushAll (sizes.foldr (· + ·) 0) s.pending.reverse
  modifyThe Stage fun s ↦ { s with pending := [] }
  successors.forM (recordEntry (below ++ above))

end CilSsa.Lowering
