import CilSsa.Machine.Memory
import CilSsa.Ssa.Eval
import CilSsa.Ssa.Layout
import CilSsa.Ssa.Printer
import Std.Data.HashMap

namespace CilSsa.Machine

open CilSsa.Ssa CilSsa.Number CilSsa.Text

inductive FaultCode
  | badAddress | stackOverflow | undefined | badValue | unimplemented
deriving DecidableEq

def FaultCode.number : FaultCode → Int
  | .badAddress => 1001
  | .stackOverflow => 1002
  | .undefined => 1003
  | .badValue => 1004
  | .unimplemented => 1999

def faultCodeText (n : Int) : String := "EX" ++ toString n

def FaultCode.text (c : FaultCode) : String := faultCodeText c.number

structure Fault where
  code : FaultCode
  detail : String
  backtrace : List String
deriving DecidableEq

def Fault.message (f : Fault) : String :=
  "fault " ++ f.code.text ++ ": " ++ f.detail ++
    (if f.backtrace.isEmpty then "" else " (in " ++ " <- ".intercalate f.backtrace ++ ")")

structure Limits where
  maxDepth : Int
  stackSize : Int
  heapSize : Int

/-- The bounds asked for, with defaults for those that are not positive. -/
def Limits.ofRequest (maxDepth stackSize heapSize : Int) : Limits where
  maxDepth := if maxDepth ≤ 0 then 512 else maxDepth
  stackSize := if stackSize ≤ 0 then 1048576 else stackSize
  heapSize := if heapSize ≤ 0 then 67108864 else heapSize

/-- What an engine keeps between calls: memory, layouts, and the functions that have an address, in the
order in which they got it. -/
structure Engine where
  limits : Limits := .ofRequest 0 0 0
  layouts : Layouts := {}
  memory : Memory := {}
  addressed : List FuncId := []
  closed : Bool := false

/-- One active call: where it is, what it computed so far, and where its part of the stack begins. The
instruction that it is at comes first in `rest`. -/
structure Frame where
  fn : FuncId
  name : String
  args : List UInt64
  values : Std.HashMap InstrId UInt64 := {}
  block : BlockId
  rest : List Nat
  mark : Nat

/-- Why a run ends without a result. Code that was never verified can also do what has no meaning. -/
inductive Stop
  | fault (f : Fault)
  | meaningless
deriving DecidableEq

abbrev Run := ExceptT Stop (StateM Engine)

/-- What a call gives back: a pattern, or the bytes of an aggregate. -/
structure Returned where
  pattern : UInt64
  aggregate : Bytes := []
deriving DecidableEq

inductive Progress
  | running (frames : List Frame)
  | returned (r : Returned)

def functionAddress (place : Nat) : UInt64 := functionBase + (place + 1).toUInt64 * functionStep

def addressOf (f : FuncId) : Run UInt64 := do
  let e ← get
  match e.addressed.idxOf? f with
  | some i => return functionAddress i
  | none =>
    set { e with addressed := e.addressed ++ [f] }
    return functionAddress e.addressed.length

section

variable (m : Module) (trace : List String)

def raise {α : Type} (code : FaultCode) (detail : String) : Run α :=
  throw (.fault ⟨code, detail, trace⟩)

def meaningless {α : Type} : Run α := throw .meaningless

def sizeOf (t : Ty) : Run Nat := do
  let e ← get
  let (r, layouts) := e.layouts.sizeOf m t
  set { e with layouts }
  match r with
  | .ok n => return n
  | .error err => raise trace .badValue err.message

def takeStack (t : Ty) (count size : Int) (align : Nat) : Run UInt64 := do
  let e ← get
  match e.memory.stack.room size align e.limits.stackSize with
  | .ok (address, stop) =>
    set { e with memory := { e.memory with stack := e.memory.stack.grow stop } }
    return address
  | .error .exhausted =>
    raise trace .stackOverflow ("stack exhausted allocating " ++ toString count ++ " x " ++ t.text)
  | .error .wrapped => meaningless

def stackAlloc (t : Ty) (count : Int) : Run UInt64 := do
  let size ← sizeOf m trace t
  let e ← get
  takeStack trace t count (wrapInt (size * count)) ((e.layouts.alignOf m t).1.toOption.getD 1)

def badAccess {α : Type} (address : UInt64) (n : Int) : Run α :=
  raise trace .badAddress ("access of " ++ toString n ++ " bytes at 0x" ++ hexDigits address.toNat)

def readBytes (address : UInt64) (n : Int) : Run Bytes := do
  match (← get).memory.read? address n with
  | some bs => return bs
  | none => badAccess trace address n

def needBytes (address : UInt64) (n : Int) : Run Unit := do
  unless (← get).memory.maps address n do badAccess trace address n

def writeBytes (address : UInt64) (bs : Bytes) : Run Unit := do
  needBytes trace address bs.length
  modify fun e ↦ { e with memory := e.memory.write address bs }

def readPattern (address : UInt64) (n : Nat) : Run UInt64 := do
  match readWord? (← readBytes trace address n) with
  | some v => return v
  | none => meaningless

def writePattern (address : UInt64) (n : Nat) (v : UInt64) : Run Unit := do
  needBytes trace address n
  match wordBytes? n v with
  | some bs => writeBytes trace address bs
  | none => meaningless

def load (address : UInt64) (t : Ty) : Run UInt64 := do
  match t with
  | .int bits => return signExtend (← readPattern trace address (byteWidth bits)) bits
  | .float => readPattern trace address 4
  | .double | .pointer _ => readPattern trace address 8
  | .struct .. =>
    let size ← sizeOf m trace t
    let bs ← readBytes trace address size
    let copy ← stackAlloc m trace t 1
    writeBytes trace copy bs
    return copy
  | .untyped => meaningless
  | .void | .func .. => raise trace .badValue ("cannot load a value of type " ++ t.text)

def store (address : UInt64) (t : Ty) (v : UInt64) : Run Unit := do
  match t with
  | .int bits => writePattern trace address (byteWidth bits) (zeroExtend v bits)
  | .float => writePattern trace address 4 v
  | .double | .pointer _ => writePattern trace address 8 v
  | .struct .. =>
    let size ← sizeOf m trace t
    let bs ← readBytes trace v size
    writeBytes trace address bs
  | .untyped => meaningless
  | .void | .func .. => raise trace .badValue ("cannot store a value of type " ++ t.text)

def operand (fr : Frame) : Option Value → Run UInt64
  | none => raise trace .badValue "unsupported operand <nil>"
  | some v => match v with
    | .instr id _ => match fr.values[id]? with
      | some p => return p
      | none => raise trace .badValue ("use of " ++ m.ref v ++ " before it is computed")
    | .param _ i _ => match fr.args[i]? with
      | some p => return p
      | none => meaningless
    | .func f _ => addressOf f
    | .const c _ => return c.bits?.getD 0

def compute (i : Instr) (ops : List UInt64) : Run UInt64 := do
  match i.op, ops with
  | .alloca, _ =>
    let count : Int := match ops with
      | [n] => intOfWord n
      | _ => 1
    if count < 0 then raise trace .badValue ("alloca count " ++ toString count)
    stackAlloc m trace i.allocated count
  | .load, p :: _ => load m trace p i.type
  | .store, v :: p :: _ =>
    store m trace p i.firstType v
    return 0
  | .gep, p :: _ => match i.firstType with
    | .pointer t =>
      let e ← get
      let (r, layouts) := e.layouts.fieldOffset m t i.index
      set { e with layouts }
      match r with
      | .ok o => return p + o.toUInt64
      | .error err => raise trace .badValue err.message
    | _ => meaningless
  | .icmp, a :: b :: _ | .fcmp, a :: b :: _ =>
    return boolBits (evalCompare i.pred i.firstType a b)
  | .select, c :: a :: b :: _ => return if isTrueBits c then a else b
  | .other _, _ => raise trace .unimplemented ("instruction " ++ i.op.text)
  | op, _ =>
    if op.isBinary then
      match ops with
      | a :: b :: _ => match evalBinary op i.type a b with
        | .ok v => return v
        | .error err => raise trace .unimplemented err.message
      | _ => meaningless
    else if op.isCast then
      match ops with
      | v :: _ => match evalCast op i.firstType i.type v with
        | .ok v => return v
        | .error err => raise trace .unimplemented err.message
      | _ => meaningless
    else meaningless

def fill (ops : List UInt64) : Run Unit := do
  match ops with
  | p :: v :: n :: _ =>
    let n := intOfWord n
    if n < 0 then raise trace .badValue ("memset length " ++ toString n)
    needBytes trace p n
    writeBytes trace p (List.replicate n.toNat v.toUInt8)
  | _ => meaningless

/-- A frame for a call, if the function has a body and the depth allows it. -/
def enter (depth : Nat) (f : FuncId) (args : List UInt64) : Run Frame := do
  match m.function? f with
  | none => meaningless
  | some fn =>
    let e ← get
    if e.limits.maxDepth ≤ depth then
      raise trace .stackOverflow ("call depth limit " ++ toString e.limits.maxDepth ++ " reached")
    match fn.blocks[0]? with
    | none => raise trace .undefined ("call to undefined function " ++ fn.name)
    | some b =>
      return { fn := f, name := fn.name, args, block := ⟨f, 0⟩, rest := b.instrs, mark := e.memory.stack.top }

def goto (fr : Frame) (target : Option (Option BlockId)) : Run Frame := do
  match target with
  | some (some b) => match m.block? b with
    | some blk => return { fr with block := b, rest := blk.instrs }
    | none => meaningless
  | _ => meaningless

def Frame.advance (fr : Frame) (i : Instr) (v : UInt64) : Frame :=
  match fr.rest with
  | [] => fr
  | k :: rest =>
    if i.hasValue then { fr with values := fr.values.insert ⟨fr.block.fn, k⟩ v, rest } else { fr with rest }

def returnedBytes (t : Ty) (v : UInt64) : Run Bytes := do
  if t.isStruct then
    let size ← sizeOf m trace t
    readBytes trace v size
  else return []

/-- What was returned as the caller gets it: an aggregate is copied to its part of the stack. -/
def receive (t : Ty) (r : Returned) : Run UInt64 := do
  if r.aggregate.isEmpty then return r.pattern
  else
    let copy ← stackAlloc m trace t 1
    writeBytes trace copy r.aggregate
    return copy

def resume (callers : List Frame) (r : Returned) : Run Progress := do
  match callers with
  | [] => return .returned r
  | caller :: outer =>
    match (caller.rest.head?).bind fun k ↦ m.instr? ⟨caller.block.fn, k⟩ with
    | none => meaningless
    | some i => return .running (caller.advance i (← receive m (callers.map (·.name)) i.type r) :: outer)

/-- Leaves the innermost frame with a result, and puts it where the caller waits for it. -/
def leave (fr : Frame) (callers : List Frame) (v : UInt64) : Run Progress := do
  let ret := ((m.function? fr.fn).map (·.ret)).getD .untyped
  let bytes ← returnedBytes m trace ret v
  modify fun e ↦ { e with memory := { e.memory with stack := e.memory.stack.release fr.mark } }
  resume m callers ⟨if ret.isStruct then 0 else v, bytes⟩

end

def step (m : Module) (frames : List Frame) : Run Progress := do
  let trace := frames.map (·.name)
  match frames with
  | [] => meaningless
  | fr :: callers =>
    match fr.rest with
    | [] =>
      let name := ((m.block? fr.block).map (·.name)).getD ""
      raise trace .badValue ("block " ++ name ++ " has no terminator")
    | k :: _ => match m.instr? ⟨fr.block.fn, k⟩ with
      | none => meaningless
      | some i =>
        let ops ← i.operands.mapM (operand m trace fr)
        match i.op with
        | .br => return .running ((← goto m fr i.targets[0]?) :: callers)
        | .condbr => match ops with
          | c :: _ => return .running ((← goto m fr i.targets[if isTrueBits c then 0 else 1]?) :: callers)
          | [] => meaningless
        | .ret => leave m trace fr callers (ops.headD 0)
        | .call => match i.callee.bind m.function? with
          | none => meaningless
          | some f =>
            if f.name = memsetName then
              fill trace ops
              return .running (fr.advance i 0 :: callers)
            else
              let callee ← enter m trace frames.length f.id ops
              return .running (callee :: frames)
        | _ =>
          let v ← compute m trace i ops
          return .running (fr.advance i v :: callers)

inductive Outcome
  | returned (r : Returned)
  | stopped (s : Stop)
  | outOfFuel
deriving DecidableEq

def run (m : Module) : Nat → List Frame → Engine → Outcome × Engine
  | 0, _, e => (.outOfFuel, e)
  | fuel + 1, frames, e =>
    match (step m frames).run.run e with
    | (.ok (.running frames), e) => run m fuel frames e
    | (.ok (.returned r), e) => (.returned r, e)
    | (.error s, e) => (.stopped s, e)

def ample : Nat := 1000000000000000000

inductive EngineError
  | closed
  | fault (f : Fault)
  | noFunction (name module : String)
  | argumentCount (name : String) (want got : Nat)
  | layout (e : LayoutError)
  | meaningless
  | outOfFuel
deriving DecidableEq

def EngineError.message : EngineError → String
  | .closed => "execution engine closed"
  | .fault f => f.message
  | .noFunction n m => "function " ++ quote n ++ " not found in module " ++ m
  | .argumentCount n want got => n ++ " expects " ++ toString want ++ " arguments, got " ++ toString got
  | .layout e => e.message
  | .meaningless => "meaningless code"
  | .outOfFuel => "out of fuel"

def Stop.error : Stop → EngineError
  | .fault f => .fault f
  | .meaningless => .meaningless

abbrev Request (α : Type) := Engine → Except EngineError α × Engine

namespace Engine

def ifOpen {α : Type} (r : Request α) : Request α := fun e ↦
  if e.closed then (.error .closed, e) else r e

def request {α : Type} (r : Run α) : Request α := ifOpen fun e ↦
  match r.run.run e with
  | (.ok a, e) => (.ok a, e)
  | (.error s, e) => (.error s.error, e)

def close (e : Engine) : Engine := { e with closed := true, memory := {} }

/-- The address of the function that was found under a name, if it has a body. -/
def addressFound (m : Module) (name : String) (found : Option Function) : Request UInt64 := ifOpen fun e ↦
  match found with
  | none => (.error (.noFunction name m.name), e)
  | some f =>
    if f.isDeclaration then (.error (.fault ⟨.undefined, "function " ++ f.name ++ " has no body", []⟩), e)
    else request (addressOf f.id) e

def functionAddress (m : Module) (name : String) : Request UInt64 := addressFound m name (m.functionNamed? name)

def reserveHeap (size : Int) (align : Nat) : Run UInt64 := do
  let e ← get
  match e.memory.heap.room size align e.limits.heapSize with
  | .ok (address, stop) =>
    modify fun e ↦ { e with memory := { e.memory with heap := e.memory.heap.grow stop } }
    return address
  | .error .exhausted =>
    raise [] .badAddress ("heap exhausted allocating " ++ toString size ++ " bytes")
  | .error .wrapped => Machine.meaningless

def alloc (size : Int) : Request UInt64 := request (reserveHeap size 8)

def functionAt? (e : Engine) (address : UInt64) : Option FuncId :=
  (List.range e.addressed.length).findSome? fun i ↦
    if Machine.functionAddress i = address then e.addressed[i]? else none

def keepAggregate (m : Module) (t : Ty) (bs : Bytes) : Request UInt64 := fun e ↦
  let (r, layouts) := e.layouts.alignOf m t
  let e := { e with layouts }
  match r with
  | .error err => (.error (.layout err), e)
  | .ok align => request (do
      let address ← reserveHeap bs.length align
      writeBytes [] address bs
      return address) e

def execute (m : Module) (fuel : Nat) (f : FuncId) (args : List UInt64) (e : Engine) : Outcome × Engine :=
  match (enter m [] 0 f args).run.run e with
  | (.ok fr, e) => run m fuel [fr] e
  | (.error s, e) => (.stopped s, e)

/-- What the outcome of a run is to the caller. Where there is no result, no frame is left on the stack. -/
def conclude (m : Module) (t : Ty) : Outcome → Request UInt64
  | .returned r => fun e ↦ if r.aggregate.isEmpty then (.ok r.pattern, e) else keepAggregate m t r.aggregate e
  | .stopped s => fun e ↦ (.error s.error, { e with memory := e.memory.clearStack })
  | .outOfFuel => fun e ↦ (.error .outOfFuel, { e with memory := e.memory.clearStack })

/-- Calls the function at an address. Aggregate results are put on the heap. -/
def callAddress (m : Module) (fuel : Nat) (address : UInt64) (args : List UInt64) : Request UInt64 := ifOpen fun e ↦
  match e.functionAt? address with
  | none => (.error (.fault ⟨.badAddress, "no function at 0x" ++ hexDigits address.toNat, []⟩), e)
  | some f => match m.function? f with
    | none => (.error .meaningless, e)
    | some fn =>
      if args.length ≠ fn.params.length then (.error (.argumentCount fn.name fn.params.length args.length), e)
      else
        let (out, e) := execute m fuel f args e
        conclude m fn.ret out e

def call (m : Module) (fuel : Nat) (name : String) (args : List UInt64) : Request UInt64 := fun e ↦
  match functionAddress m name e with
  | (.ok address, e) => callAddress m fuel address args e
  | (.error err, e) => (.error err, e)

def read (address : UInt64) (n : Int) : Request Bytes := request (readBytes [] address n)

def write (address : UInt64) (bs : Bytes) : Request Unit := request (writeBytes [] address bs)

def readValue (m : Module) (address : UInt64) (t : Ty) : Request UInt64 := request (load m [] address t)

end Engine

end CilSsa.Machine
