import CilSsa.Lowering.RuntimeStack

namespace CilSsa.Lowering

open CilSsa.Bytecode CilSsa.Metadata
open CilSsa.Ssa (BlockId Instr Value)

def int32 : Ty := .prim .int32
def int64 : Ty := .prim .int64
def float64 : Ty := .prim .float64

def lowerWithin {α : Type} (part : Part) (c : Lower α) : Lower α := fun site stage ↦ within part (c site stage)

def blockAt (offset : Nat) : Lower BlockId := do
  let i := ((← read).spans.findIdx? fun sp ↦ sp.start == offset).getD 0
  return ⟨(← getThe Stage).fn, i + 1⟩

def slotNumbered (what : String) (slots : List Operand) (n : Int) : Lower Operand := do
  if n < 0 then throw (.slotRange what n slots.length)
  match slots[n.toNat]? with
  | some v => return v
  | none => throw (.slotRange what n slots.length)

def argument (n : Int) : Lower Operand := do slotNumbered "argument" (← read).args n

def localSlot (n : Int) : Lower Operand := do slotNumbered "local" (← read).locals n

def storeSlot (slot : Operand) : Lower Unit := do
  settle
  let v ← pop slot.type.elem
  store v.value slot.value

/-- The two operands of an instruction, read through references, the lower one brought to the type of
the upper one. -/
def operands : Lower (Operand × Operand) := do
  let rhs ← popRaw none
  let lhs ← popRaw none
  let rhs ← deref rhs
  let lhs ← deref lhs
  return (← convert lhs rhs.type, rhs)

def Arith.intOp : Arith → Ssa.Op
  | .add => .add
  | .sub => .sub
  | .mul => .mul

def Arith.floatOp : Arith → Ssa.Op
  | .add => .fadd
  | .sub => .fsub
  | .mul => .fmul

def arith (i : Instruction) (op : Arith) : Lower Unit := do
  let (lhs, rhs) ← operands
  let code ← match rhs.value.type with
    | .int _ => pure op.intOp
    | .float | .double => pure op.floatOp
    | _ => unsupported i ("arithmetic on " ++ rhs.type.text)
  push ⟨rhs.type, ← emit (.binary code lhs.value rhs.value ""), false⟩

def compare (i : Instruction) (c : Comparison) : Lower Value := do
  let (lhs, rhs) ← operands
  match rhs.value.type with
  | .int _ | .pointer _ => emit (.icmp c.ints lhs.value rhs.value "")
  | .float | .double => emit (.fcmp c.floats lhs.value rhs.value "")
  | _ => unsupported i ("comparison of " ++ rhs.type.text)

def truth (i : Instruction) (v : Operand) (want : Bool) : Lower Value := do
  let t := v.value.type
  let ints : Ssa.Pred := if want then .ne else .eq
  let floats : Ssa.Pred := if want then .une else .oeq
  match t with
  | .int _ => emit (.icmp ints v.value (← intConst t 0) "")
  | .pointer _ => emit (.icmp ints v.value (← constant (.null t)) "")
  | .float | .double => emit (.fcmp floats v.value (← constant (.ofDouble t 0)) "")
  | _ => unsupported i ("branch on " ++ v.type.text)

def branchOn (start : Nat) (i : Instruction) (c : Value) : Lower Unit := do
  let target := i.target.toNat
  flush start [target, i.next]
  let _ ← emit (.condbr c (some (← blockAt target)) (some (← blockAt i.next)))

def returnFrom (start : Nat) : Lower Unit := do
  let t := (← read).method.returnType
  if t.isVoid then
    flush start []
    let _ ← emit .retVoid
  else
    let v ← pop t
    flush start []
    let _ ← emit (.ret v.value)

/-- Converts the top operand. An address that becomes an integer keeps its bits. -/
def convertTop (target : Ty) : Lower Unit := do
  let v ← popRaw none
  if v.type.isAddress && !v.slot && (target.isInteger || target.isPointerLike) then
    let dst ← counterpart target
    push ⟨target, ← convertValue v target dst, false⟩
  else push (← convert v target)

/-- Converts the top operand to a double, an integer as an unsigned one. -/
def convertTopUnsigned : Lower Unit := do
  let v ← deref (← popRaw none)
  if v.value.type.isInt then push ⟨float64, ← castTo .uitofp v.value .double, false⟩
  else push (← convert v float64)

def loadObject (t : Ty) : Lower Unit := do
  let p ← address (← popRaw (some (.byref t))) t
  push ⟨t, ← load p, false⟩

def storeObject (t : Ty) : Lower Unit := do
  settle
  let v ← pop t
  let p ← address (← popRaw (some (.byref t))) t
  store v.value p

def clearObject (t : Ty) : Lower Unit := do
  settle
  let p ← address (← popRaw (some (.byref t))) t
  let size ← operandSize t
  clearAt (← getThe Stage).block p size

def typeOperand (i : Instruction) : Lower Ty := do
  let site ← read
  resolve fun r ↦ r.resolveType site.world (some site.method) i.tokenOperand

def methodOperand (i : Instruction) : Lower Method := do
  let site ← read
  let id ← resolve fun r ↦ r.resolveMethod site.world (some site.method) i.tokenOperand
  match site.world.method? id with
  | some m => return m
  | none => throw .tooDeep

/-- The field that the instruction's token names, and its place in its aggregate. -/
def fieldOperand (i : Instruction) : Lower (Field × Nat) := do
  let site ← read
  let f ← resolve fun r ↦ r.resolveField site.world (some site.method) i.tokenOperand
  if f.isStatic then unsupported i ("static field " ++ f.text)
  let _ ← counterpart f.owner
  match site.world.fieldIndex f with
  | .ok index => return (f, index)
  | .error e => throw (.fieldIndex e)

def fieldPointer (f : Field) (index : Nat) : Lower Value := do
  let base ← address (← popRaw (some (.byref f.owner))) f.owner
  let members := (← getThe CompilationUnit).module.fields? base.type.pointee
  emit (.gep members base index "")

def callArguments (m : Method) : Lower (List Value) := do
  let taken ← (m.params.zipIdx).reverse.mapM fun (p, k) ↦ do
    let v ← lowerWithin (.argument k m.text) (pop p.type)
    return v.value
  return taken.reverse

/-- Makes an object in a slot of the function, cleared, and runs the constructor on it. -/
def newObject (i : Instruction) : Lower Unit := do
  let m ← methodOperand i
  if !m.isCtor then throw (.notConstructor m.text)
  let t := m.owner.getD .missing
  settle
  let f ← (← read).compile m
  let code ← counterpart t
  let size ← sizeOf code
  let args ← callArguments m
  let object ← slotFor code "new"
  clearAt (← getThe Stage).block object size
  let _ ← emitCall f (object :: args)
  push ⟨.byref t, object, false⟩

def call (i : Instruction) : Lower Unit := do
  let m ← methodOperand i
  settle
  let f ← (← read).compile m
  let args ← callArguments m
  let receiver ← if m.isInstance then do
      let t := m.owner.getD .missing
      let v ← popRaw (some (.byref t))
      pure [← lowerWithin (.receiver m.text) (address v t)]
    else pure []
  let r ← emitCall f (receiver ++ args)
  if !m.returnType.isVoid then push ⟨m.returnType, r, false⟩

def lower (start : Nat) (i : Instruction) : Lower Unit := do
  match action i with
  | .nothing => return
  | .loadArg n => push (← argument n)
  | .argAddress n =>
    let a ← argument n
    if a.slot then push { a with slot := false } else unsupported i "address of a by-reference argument"
  | .storeArg n =>
    let a ← argument n
    if a.slot then storeSlot a else unsupported i "store to a by-reference argument"
  | .loadLocal n => push (← localSlot n)
  | .localAddress n => push { ← localSlot n with slot := false }
  | .storeLocal n => storeSlot (← localSlot n)
  | .int32 n => push ⟨int32, ← intConst .i32 n, false⟩
  | .int64 n => push ⟨int64, ← intConst .i64 n, false⟩
  | .float32 d => push ⟨.prim .float32, ← constant (.ofDouble .float d), false⟩
  | .float64 d => push ⟨float64, ← constant (.ofDouble .double d), false⟩
  | .dup =>
    let v ← popRaw none
    push v
    push v
  | .pop => let _ ← popRaw none
  | .arith op => arith i op
  | .compare c =>
    let b ← compare i c
    let one ← intConst .i32 1
    let zero ← intConst .i32 0
    push ⟨int32, ← emit (.select b one zero ""), false⟩
  | .convert p => convertTop (.prim p)
  | .convertUnsigned => convertTopUnsigned
  | .loadThrough p => loadObject (.prim p)
  | .storeThrough p => storeObject (.prim p)
  | .loadObject => loadObject (← typeOperand i)
  | .storeObject => storeObject (← typeOperand i)
  | .sizeOf => push ⟨int64, ← intConst .i64 (← operandSize (← typeOperand i)), false⟩
  | .initObject => clearObject (← typeOperand i)
  | .loadField =>
    let (f, index) ← fieldOperand i
    push ⟨f.type, ← load (← fieldPointer f index), false⟩
  | .fieldAddress =>
    let (f, index) ← fieldOperand i
    push ⟨.byref f.type, ← fieldPointer f index, false⟩
  | .storeField =>
    let (f, index) ← fieldOperand i
    settle
    let v ← pop f.type
    store v.value (← fieldPointer f index)
  | .newObject => newObject i
  | .call => call i
  | .ret => returnFrom start
  | .jump =>
    flush start [i.target.toNat]
    let _ ← emit (.br (some (← blockAt i.target.toNat)))
  | .jumpIf want =>
    let v ← popRaw none
    branchOn start i (← truth i (← deref v) want)
  | .jumpCompare c => branchOn start i (← compare i c)
  | .unsupported => unsupported i ""

end CilSsa.Lowering
