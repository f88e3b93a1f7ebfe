import CilSsa.Ssa.Value
import CilSsa.Text.Composed

namespace CilSsa.Ssa

open CilSsa.Text

/-- An instruction. `home` is the block that it takes itself to be in, and `number` its name where it
has no other. -/
structure Instr where
  op : Op
  type : Ty
  operands : List (Option Value) := []
  name : String := ""
  pred : Pred := .other 0
  index : Int := 0
  allocated : Ty := .untyped
  callee : Option FuncId := none
  targets : List (Option BlockId) := []
  home : Option BlockId := none
  number : Nat := 0

/-- A basic block: its name and its instructions by their places in the function. -/
structure Block where
  name : String
  instrs : List Nat := []

structure Param where
  name : String
  type : Ty

structure Function where
  id : FuncId
  name : String
  signature : Ty
  params : List Param
  blocks : Array Block := #[]
  instrs : Array Instr := #[]
  /-- The names given out, each with how often it was asked for. -/
  names : List (String × Nat) := []
  nextNumber : Nat := 0

structure StructDef where
  name : String
  body : Option (List Ty) := none

structure Module where
  name : String
  structs : Array StructDef := #[]
  liveStructs : List Nat := []
  functions : Array Function := #[]
  liveFunctions : List Nat := []

def Instr.hasValue (i : Instr) : Bool := i.type.hasValue

def Instr.firstType (i : Instr) : Ty :=
  match i.operands with
  | some v :: _ => v.type
  | _ => .untyped

def Instr.successors (i : Instr) : List (Option BlockId) :=
  match i.op with
  | .br | .condbr => i.targets
  | _ => []

namespace Function

def renameParams (f : Function) (names : List String) : Function :=
  { f with params := f.params.zipIdx.map fun (p, i) ↦ { p with name := names.getD i "" } }

variable (f : Function)

def isDeclaration : Bool := f.blocks.isEmpty

def ret : Ty := match f.signature with
  | .func r _ => r
  | _ => .untyped

def paramTypes : List Ty := match f.signature with
  | .func _ ps => ps
  | _ => []

def value : Value := .func f.id f.signature

def param (i : Nat) : Value := .param f.id i (f.paramTypes.getD i .untyped)

def blockId (i : Nat) : BlockId := ⟨f.id, i⟩

def blockIds : List BlockId := (List.range f.blocks.size).map f.blockId

def instr? (i : Nat) : Option Instr := f.instrs[i]?

def instrsOf (b : Block) : List (Nat × Instr) := b.instrs.filterMap fun i ↦ (f.instr? i).map fun x ↦ (i, x)

def instructions : List (Nat × Instr) := f.blocks.toList.flatMap f.instrsOf

def terminator? (b : Block) : Option Instr :=
  match (b.instrs.getLast?).bind f.instr? with
  | some i => if i.op.isTerminator then some i else none
  | none => none

/-- The first candidate `base.n`, `base.n+1`, … that is not taken; the fuel bounds the search, and
one more than the number of names taken is enough. -/
def freshSuffix (base : String) (names : List (String × Nat)) : Nat → Nat → String
  | 0, n => base ++ "." ++ toString n
  | fuel + 1, n =>
    let candidate := base ++ "." ++ toString n
    if (names.lookup candidate).isNone then candidate else freshSuffix base names fuel (n + 1)

/-- A name not given out before, the one asked for if possible. The empty name asks for none. -/
def uniqueName (name : String) : String × Function :=
  if name = "" then ("", f)
  else match f.names.lookup name with
    | none => (name, { f with names := (name, 1) :: f.names })
    | some n =>
      let names := f.names.map fun (k, c) ↦ if k = name then (k, c + 1) else (k, c)
      let fresh := freshSuffix name names (names.length + 1) n
      (fresh, { f with names := (fresh, 1) :: names })

def addBlock (name : String) : Function × Nat :=
  let (unique, g) := f.uniqueName (if name = "" then "bb" else name)
  ({ g with blocks := g.blocks.push ⟨unique, []⟩ }, f.blocks.size)

/-- Puts an instruction at the end of a block under a unique name and the next number. -/
def append (block : Nat) (i : Instr) : Function × Nat :=
  let (unique, g) := f.uniqueName i.name
  let placed := { i with name := unique, home := some (f.blockId block), number := f.nextNumber }
  ({ g with
      instrs := g.instrs.push placed
      blocks := g.blocks.modify block fun b ↦ { b with instrs := b.instrs ++ [f.instrs.size] }
      nextNumber := f.nextNumber + 1 }, f.instrs.size)

def appendRaw (block : Nat) (i : Instr) : Function × Nat :=
  ({ f with
      instrs := f.instrs.push i
      blocks := f.blocks.modify block fun b ↦ { b with instrs := b.instrs ++ [f.instrs.size] } }, f.instrs.size)

def removeFrom (block i : Nat) : Function :=
  if ((f.blocks[block]?).map fun b ↦ b.instrs.contains i) = some true then
    { f with
      blocks := f.blocks.modify block fun b ↦ { b with instrs := b.instrs.erase i }
      instrs := f.instrs.modify i fun x ↦ { x with home := none } }
  else f

/-- Takes an instruction out of the block that it takes itself to be in. -/
def remove (i : Nat) : Function :=
  match (f.instr? i).bind (·.home) with
  | some b => if b.fn = f.id then f.removeFrom b.index i else f
  | none => f

def replaceOperand (i : Nat) (old : Option Value) (new : Option Value) : Function :=
  { f with instrs := f.instrs.modify i fun x ↦
      { x with operands := x.operands.map fun v ↦ if v = old then new else v } }

def replaceAllUses (old new : Value) : Function :=
  f.instructions.foldl (fun g (i, _) ↦ g.replaceOperand i (some old) (some new)) f

def result (i : Nat) : Value := .instr ⟨f.id, i⟩ (((f.instr? i).map (·.type)).getD .untyped)

def renumber : Function :=
  let (instrs, next) := f.instructions.foldl (fun (acc : Array Instr × Nat) (i, x) ↦
    if x.name = "" ∧ x.hasValue then (acc.1.modify i fun x ↦ { x with number := acc.2 }, acc.2 + 1) else acc)
    (f.instrs, 0)
  { f with instrs := instrs, nextNumber := next }

end Function

inductive DeclareError
  | notStruct (kind : Nat)
  | bodySet (name : String)
  | notSignature (name : String) (type : Ty)
  | nameTaken (name : String)
deriving DecidableEq

def DeclareError.message : DeclareError → String
  | .notStruct k => "SetBody on " ++ kindName k ++ " type"
  | .bodySet n => "%" ++ n ++ ": struct body already set"
  | .notSignature n t => "function @" ++ n ++ ": signature " ++ t.text ++ " is not a function type"
  | .nameTaken n => "function @" ++ n ++ " already defined"

def memsetName : String := "llvm.memset.p0i8.i64"

def memsetSignature : Ty := .func .void [.bytePointer, .i8, .i64, .i1]

namespace Module

variable (m : Module)

def function? (f : FuncId) : Option Function := m.functions[f.index]?

def modifyFunction (id : FuncId) (g : Function → Function) : Module :=
  { m with functions := m.functions.modify id.index g }

def block? (b : BlockId) : Option Block := (m.function? b.fn).bind fun f ↦ f.blocks[b.index]?

def instr? (i : InstrId) : Option Instr := (m.function? i.fn).bind fun f ↦ f.instr? i.index

def structType (id : Nat) : Ty := .struct id (((m.structs[id]?).map (·.name)).getD "")

/-- The living struct of a name. Names in different compositions of one text are one name. -/
def structNamed? (name : String) : Option Ty :=
  let key := composed name
  (m.liveStructs.find? fun i ↦ ((m.structs[i]?).map (·.name)) == some key).map m.structType

def typeOfText? (s : String) : Option Ty :=
  let (stars, base) := s.toList.reverse.span (· = '*')
  let plain := match base.reverse with
    | '%' :: name => m.structNamed? (String.ofList name)
    | 'i' :: digits => (String.ofList digits).toNat?.map Ty.int
    | cs => [Ty.void, .float, .double].find? fun t ↦ t.text.toList == cs
  plain.map fun t ↦ stars.foldl (fun t _ ↦ .pointer t) t

def namedStruct (name : String) : Module × Ty :=
  match m.structNamed? name with
  | some t => (m, t)
  | none =>
    let id := m.structs.size
    ({ m with structs := m.structs.push ⟨composed name, none⟩, liveStructs := m.liveStructs ++ [id] },
      .struct id (composed name))

def removeStruct (name : String) : Module :=
  let key := composed name
  { m with liveStructs := m.liveStructs.eraseP fun i ↦ ((m.structs[i]?).map (·.name)) == some key }

/-- The members of a struct type; nothing if it has no body yet or is no struct. -/
def fields? (t : Ty) : Option (List Ty) :=
  match t with
  | .struct id _ => (m.structs[id]?).bind (·.body)
  | _ => none

def lacksBody (t : Ty) : Bool := t.isStruct && (m.fields? t).isNone

def setBody (t : Ty) (fields : List Ty) : Except DeclareError Module :=
  match t with
  | .struct id name =>
    if (m.fields? t).isSome then .error (.bodySet name)
    else .ok { m with structs := m.structs.modify id fun d ↦ { d with body := some fields } }
  | t => .error (.notStruct t.kind)

def functionCalled? (key : String) : Option Function :=
  (m.liveFunctions.filterMap fun i ↦ m.functions[i]?).find? fun f ↦ f.name == key

def functionNamed? (name : String) : Option Function := m.functionCalled? (composed name)

def addFunction (name : String) (signature : Ty) : Except DeclareError (Module × FuncId) :=
  match signature with
  | .func _ params =>
    if (m.functionNamed? name).isSome then .error (.nameTaken (composed name))
    else
      let id : FuncId := ⟨m.functions.size⟩
      .ok ({ m with
        functions := m.functions.push { id, name := composed name, signature, params := params.map fun t ↦ ⟨"", t⟩ }
        liveFunctions := m.liveFunctions ++ [id.index] }, id)
  | t => .error (.notSignature (composed name) t)

def removeFunction (name : String) : Module :=
  let key := composed name
  { m with liveFunctions := m.liveFunctions.eraseP fun i ↦ ((m.functions[i]?).map (·.name)) == some key }

def memset : Module × FuncId :=
  match m.functionNamed? memsetName with
  | some f => (m, f.id)
  | none => match m.addFunction memsetName memsetSignature with
    | .ok r => r
    | .error _ => (m, ⟨0⟩)

def addBlock (fn : FuncId) (name : String) : Module × BlockId :=
  match m.function? fn with
  | some f =>
    let (f, i) := f.addBlock name
    (m.modifyFunction fn fun _ ↦ f, ⟨fn, i⟩)
  | none => (m, ⟨fn, 0⟩)

def append (b : BlockId) (i : Instr) : Module × Value :=
  match m.function? b.fn with
  | some f =>
    let (f, k) := f.append b.index i
    (m.modifyFunction b.fn fun _ ↦ f, .instr ⟨b.fn, k⟩ i.type)
  | none => (m, .instr ⟨b.fn, 0⟩ i.type)

end Module

end CilSsa.Ssa
