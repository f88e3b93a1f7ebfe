import CilSsa.Metadata.Type
import Std.Data.HashMap

namespace CilSsa.Metadata

open CilSsa.Text

/-- A method by the row that defines it, or by its place among the members of an instance. -/
inductive MethodId
  | defined (home : ModuleRef) (row : Nat)
  | special (owner : Ty) (slot : Nat)
deriving DecidableEq, Hashable

structure Param where
  name : String
  type : Ty
deriving DecidableEq

structure Body where
  maxStack : Int
  locals : List Ty
  code : Bytes
deriving DecidableEq

structure Method where
  id : MethodId
  name : String
  owner : Option Ty
  params : List Param
  ret : Ty
  isStatic : Bool
  isCtor : Bool
  body : Option Body
  token : Token
  scope : ModuleRef
deriving DecidableEq

structure Field where
  name : String
  type : Ty
  owner : Ty
  isStatic : Bool
  token : Token
deriving DecidableEq

/-- A row that names a member of a type: a field, or a method with so many parameters. -/
structure MemberRef where
  parent : Ty
  name : String
  isField : Bool
  params : Int

structure ModuleTables where
  ref : ModuleRef
  types : Array TypeDef := #[]
  specs : Array Ty := #[]
  fields : Array Field := #[]
  methods : Array Method := #[]
  memberRefs : Array MemberRef := #[]

/-- The members recorded for a type; an instance that is not opened still lacks those that come
from its definition. -/
structure MemberList where
  fields : Array Field := #[]
  methods : Array MethodId := #[]
  opened : Bool := false

/-- Modules with what is recorded of their types and members. How deep the types and calls of a program may be nested when
it is compiled goes with the program. -/
structure Universe where
  modules : Array ModuleTables := #[]
  members : Std.HashMap Ty MemberList := {}
  specials : Std.HashMap MethodId Method := {}
  nesting : Nat := 9999

def Universe.nestingLimit (world : Universe) : Nat := world.nesting + 1

namespace Method

variable (m : Method)

def isInstance : Bool := m.isCtor || !m.isStatic

def returnType : Ty := if m.isCtor || m.ret == .missing then .void else m.ret

def text : String :=
  let owner := match m.owner with
    | some t => t.text
    | none => "<module>"
  owner ++ "::" ++ m.name ++ "(" ++ ", ".intercalate (m.params.map fun p ↦ p.type.text) ++ ")"

/-- A static method of one parameter with the name of a conversion operator. -/
def isConversion : Bool :=
  m.isStatic && m.params.length == 1 && (m.name == "op_Implicit" || m.name == "op_Explicit")

def specialise (owner : Ty) (slot : Nat) (args : List Ty) : Method :=
  { id := .special owner slot
    name := m.name
    owner := some owner
    params := m.params.map fun p ↦ { p with type := p.type.subst args }
    ret := m.ret.subst args
    isStatic := m.isStatic
    isCtor := m.isCtor
    body := m.body.map fun b ↦ { b with locals := b.locals.map (·.subst args) }
    token := m.token
    scope := m.scope }

end Method

namespace Field

def text (f : Field) : String := f.owner.text ++ "::" ++ f.name

def specialise (f : Field) (owner : Ty) (args : List Ty) : Field :=
  { f with type := f.type.subst args, owner := owner }

end Field

namespace Universe

variable (u : Universe)

def tables (m : ModuleRef) : ModuleTables := u.modules.getD m.index { ref := m }

def modifyTables (m : ModuleRef) (f : ModuleTables → ModuleTables) : Universe :=
  { u with modules := u.modules.modify m.index f }

def recorded (t : Ty) : MemberList := u.members.getD t {}

def definedMethod? (home : ModuleRef) (row : Nat) : Option Method := (u.tables home).methods[row]?

def method? : MethodId → Option Method
  | .defined home row => u.definedMethod? home row
  | .special owner slot =>
    match u.specials[MethodId.special owner slot]? with
    | some m => some m
    | none => match owner with
      | .inst g args => match (u.recorded g).methods[slot]? with
        | some (.defined home row) =>
          (u.definedMethod? home row).map fun m ↦ m.specialise owner slot args
        | some id => (u.specials[id]?).map fun m ↦ m.specialise owner slot args
        | none => none
      | _ => none

def membersOf (t : Ty) : MemberList :=
  let own := u.recorded t
  match t with
  | .inst g args =>
    if own.opened then own
    else
      let source := u.recorded g
      { fields := own.fields ++ source.fields.map fun f ↦ f.specialise t args
        methods := own.methods ++ (Array.range source.methods.size).map (.special t)
        opened := true }
  | _ => own

def openType (t : Ty) : Universe :=
  match t with
  | .inst _ _ =>
    if (u.recorded t).opened then u
    else
      let found := u.membersOf t
      let made := found.methods.toList.filterMap fun id ↦ match id with
        | .special .. => (u.method? id).map fun m ↦ (id, m)
        | .defined .. => none
      { u with members := u.members.insert t found
               specials := made.foldl (fun s (id, m) ↦ s.insert id m) u.specials }
  | _ => u

def fields (t : Ty) : List Field := (u.membersOf t).fields.toList

def methods (t : Ty) : List Method := (u.membersOf t).methods.toList.filterMap u.method?

/-- The instance fields in declaration order: the order of members in an aggregate. -/
def instanceFields (t : Ty) : List Field := (u.fields t).filter fun f ↦ !f.isStatic

def fieldByName (t : Ty) (name : String) : Option Field := (u.fields t).find? fun f ↦ f.name == name

/-- The first method of a name and number of parameters; a negative number fits any. -/
def methodByName (t : Ty) (name : String) (params : Int) : Option Method :=
  (u.methods t).find? fun m ↦ m.name == name && (params < 0 || (m.params.length : Int) == params)

def conversion? (src dst : Ty) : Option Method :=
  ((u.methods src) ++ (u.methods dst)).find? fun m ↦
    m.isConversion && (m.params.map (·.type)) == [src] && m.ret == dst

def hasConversion (src dst : Ty) : Bool := (u.conversion? src dst).isSome

def addModule (name : String) : Universe × ModuleRef :=
  let ref := ⟨u.modules.size, name⟩
  ({ u with modules := u.modules.push { ref := ref } }, ref)

def defineType (m : ModuleRef) (space name : String) (kind : DefKind) (arity : Nat) : Universe × TypeDef :=
  let d : TypeDef := ⟨m, (u.tables m).types.size, space, name, kind, arity⟩
  (u.modifyTables m fun t ↦ { t with types := t.types.push d }, d)

def recordMembers (t : Ty) (f : MemberList → MemberList) : Universe :=
  { u with members := u.members.insert t (f (u.recorded t)) }

def defineField (m : ModuleRef) (owner : Ty) (name : String) (type : Ty) (isStatic : Bool) :
    Universe × Field :=
  let token := Token.make .field ((u.tables m).fields.size + 1)
  let f : Field := ⟨name, type, owner, isStatic, token⟩
  let u := u.modifyTables m fun t ↦ { t with fields := t.fields.push f }
  (u.recordMembers owner fun l ↦ { l with fields := l.fields.push f }, f)

def numberParams (types : List Ty) : List Param :=
  types.zipIdx.map fun (t, i) ↦ ⟨"arg" ++ toString i, t⟩

def addMethod (m : ModuleRef) (owner : Option Ty) (build : MethodId → Token → Method) : Universe × Method :=
  let row := (u.tables m).methods.size
  let method := build (.defined m row) (Token.make .method (row + 1))
  let u := u.modifyTables m fun t ↦ { t with methods := t.methods.push method }
  match owner with
  | none => (u, method)
  | some t => (u.recordMembers t fun l ↦ { l with methods := l.methods.push method.id }, method)

def defineMethod (m : ModuleRef) (owner : Option Ty) (name : String) (isStatic : Bool) (ret : Ty)
    (params : List Ty) : Universe × Method :=
  u.addMethod m owner fun id token ↦
    { id, name, owner, params := numberParams params, ret := if ret == .missing then .void else ret,
      isStatic, isCtor := false, body := none, token, scope := m }

def defineConstructor (m : ModuleRef) (owner : Option Ty) (params : List Ty) : Universe × Method :=
  u.addMethod m owner fun id token ↦
    { id, name := ".ctor", owner, params := numberParams params, ret := .void,
      isStatic := false, isCtor := true, body := none, token, scope := m }

def setBody (id : MethodId) (body : Body) : Universe :=
  match id with
  | .defined home row => u.modifyTables home fun t ↦
      { t with methods := t.methods.modify row fun m ↦ { m with body := some body } }
  | .special .. => match u.method? id with
    | some m => { u with specials := u.specials.insert id { m with body := some body } }
    | none => u

def addTypeSpec (m : ModuleRef) (t : Ty) : Universe × Token :=
  let token := Token.make .typeSpec ((u.tables m).specs.size + 1)
  (u.modifyTables m fun ts ↦ { ts with specs := ts.specs.push t }, token)

/-- The token by which module `m` names a type: its own row for a definition of `m`. -/
def typeToken (m : ModuleRef) (t : Ty) : Universe × Token :=
  match t with
  | .defined d => if d.home = m then (u, d.token) else u.addTypeSpec m t
  | _ => u.addTypeSpec m t

def addMemberRef (m : ModuleRef) (r : MemberRef) : Universe × Token :=
  let token := Token.make .memberRef ((u.tables m).memberRefs.size + 1)
  (u.modifyTables m fun t ↦ { t with memberRefs := t.memberRefs.push r }, token)

def typesOf (m : ModuleRef) : List TypeDef := (u.tables m).types.toList

end Universe

end CilSsa.Metadata
