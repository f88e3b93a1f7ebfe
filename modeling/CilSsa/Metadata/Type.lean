import CilSsa.Metadata.Token

namespace CilSsa.Metadata

inductive Prim
  | bool | char | int8 | uint8 | int16 | uint16 | int32 | uint32 | int64 | uint64
  | float32 | float64 | intPtr | uintPtr
deriving DecidableEq, Hashable

def Prim.all : List Prim :=
  [.bool, .char, .int8, .uint8, .int16, .uint16, .int32, .uint32, .int64, .uint64,
   .float32, .float64, .intPtr, .uintPtr]

def Prim.text : Prim → String
  | .bool => "bool"
  | .char => "char"
  | .int8 => "int8"
  | .uint8 => "uint8"
  | .int16 => "int16"
  | .uint16 => "uint16"
  | .int32 => "int32"
  | .uint32 => "uint32"
  | .int64 => "int64"
  | .uint64 => "uint64"
  | .float32 => "float32"
  | .float64 => "float64"
  | .intPtr => "native int"
  | .uintPtr => "native uint"

def Prim.systemName : Prim → String
  | .bool => "Boolean"
  | .char => "Char"
  | .int8 => "SByte"
  | .uint8 => "Byte"
  | .int16 => "Int16"
  | .uint16 => "UInt16"
  | .int32 => "Int32"
  | .uint32 => "UInt32"
  | .int64 => "Int64"
  | .uint64 => "UInt64"
  | .float32 => "Single"
  | .float64 => "Double"
  | .intPtr => "IntPtr"
  | .uintPtr => "UIntPtr"

/-- A module by its place in the universe, with its name. -/
structure ModuleRef where
  index : Nat
  name : String
deriving DecidableEq, Hashable

inductive DefKind
  | valueType | refType
deriving DecidableEq, Hashable

/-- A type definition: where it stands, how it is named, and how many type parameters it has. -/
structure TypeDef where
  home : ModuleRef
  row : Nat
  space : String
  name : String
  kind : DefKind
  arity : Nat
deriving DecidableEq, Hashable

/-- Types. `missing` stands where a signature leaves a type out. A context interns types, so its pointers are equal just if
the types are built alike; here equality is structural. -/
inductive Ty
  | missing
  | void
  | prim (p : Prim)
  | param (index : Nat)
  | byref (elem : Ty)
  | pointer (elem : Ty)
  | defined (d : TypeDef)
  | inst (generic : Ty) (args : List Ty)

instance : Inhabited Ty := ⟨.missing⟩

mutual

def Ty.decEq : (a b : Ty) → Decidable (a = b)
  | .missing, b => match b with
    | .missing => isTrue rfl
    | .void | .prim _ | .param _ | .byref _ | .pointer _ | .defined _ | .inst .. => isFalse nofun
  | .void, b => match b with
    | .void => isTrue rfl
    | .missing | .prim _ | .param _ | .byref _ | .pointer _ | .defined _ | .inst .. => isFalse nofun
  | .prim p, b => match b with
    | .prim q => decidable_of_iff (p = q) ⟨congrArg _, fun h ↦ by injection h⟩
    | .missing | .void | .param _ | .byref _ | .pointer _ | .defined _ | .inst .. => isFalse nofun
  | .param i, b => match b with
    | .param j => decidable_of_iff (i = j) ⟨congrArg _, fun h ↦ by injection h⟩
    | .missing | .void | .prim _ | .byref _ | .pointer _ | .defined _ | .inst .. => isFalse nofun
  | .byref x, b => match b with
    | .byref y => match x.decEq y with
      | isTrue h => isTrue (congrArg _ h)
      | isFalse h => isFalse fun e ↦ h (by injection e)
    | .missing | .void | .prim _ | .param _ | .pointer _ | .defined _ | .inst .. => isFalse nofun
  | .pointer x, b => match b with
    | .pointer y => match x.decEq y with
      | isTrue h => isTrue (congrArg _ h)
      | isFalse h => isFalse fun e ↦ h (by injection e)
    | .missing | .void | .prim _ | .param _ | .byref _ | .defined _ | .inst .. => isFalse nofun
  | .defined d, b => match b with
    | .defined d' => decidable_of_iff (d = d') ⟨congrArg _, fun h ↦ by injection h⟩
    | .missing | .void | .prim _ | .param _ | .byref _ | .pointer _ | .inst .. => isFalse nofun
  | .inst g as, b => match b with
    | .inst g' as' => match g.decEq g', Ty.decEqList as as' with
      | isTrue hg, isTrue ha => isTrue (hg ▸ ha ▸ rfl)
      | isFalse h, _ => isFalse fun e ↦ h (by injection e)
      | _, isFalse h => isFalse fun e ↦ h (by injection e)
    | .missing | .void | .prim _ | .param _ | .byref _ | .pointer _ | .defined _ => isFalse nofun

def Ty.decEqList : (as bs : List Ty) → Decidable (as = bs)
  | [], [] => isTrue rfl
  | [], _ :: _ => isFalse nofun
  | _ :: _, [] => isFalse nofun
  | a :: as, b :: bs => match a.decEq b, Ty.decEqList as bs with
    | isTrue h, isTrue hs => isTrue (h ▸ hs ▸ rfl)
    | isFalse h, _ => isFalse fun e ↦ h (by injection e)
    | _, isFalse h => isFalse fun e ↦ h (by injection e)

end

instance : DecidableEq Ty := Ty.decEq

mutual

def Ty.hash : Ty → UInt64
  | .missing => 3
  | .void => 5
  | .prim p => mixHash 7 (Hashable.hash p)
  | .param i => mixHash 11 (Hashable.hash i)
  | .byref e => mixHash 13 e.hash
  | .pointer e => mixHash 17 e.hash
  | .defined d => mixHash 19 (mixHash (Hashable.hash d.home.index) (Hashable.hash d.row))
  | .inst g as => mixHash g.hash (Ty.hashList as)

def Ty.hashList : List Ty → UInt64
  | [] => 23
  | a :: as => mixHash a.hash (Ty.hashList as)

end

instance : Hashable Ty := ⟨Ty.hash⟩

inductive Kind
  | void | primitive | pointer | byref | refType | valueType | param
deriving DecidableEq

def Kind.text : Kind → String
  | .void => "void"
  | .primitive => "primitive"
  | .pointer => "pointer"
  | .byref => "byref"
  | .refType => "class"
  | .valueType => "struct"
  | .param => "generic-param"

namespace TypeDef

variable (d : TypeDef)

def token : Token := Token.make .typeDef (d.row + 1)

def fullName : String := if d.space = "" then d.name else d.space ++ "." ++ d.name

def params : List Ty := (List.range d.arity).map .param

end TypeDef

namespace Ty

def kind : Ty → Kind
  | .missing | .void => .void
  | .prim _ => .primitive
  | .param _ => .param
  | .byref _ => .byref
  | .pointer _ => .pointer
  | .defined d => match d.kind with
    | .valueType => .valueType
    | .refType => .refType
  | .inst g _ => g.kind

/-- The scalar type that `t` is; an instance is none, whatever it is an instance of. -/
def prim? : Ty → Option Prim
  | .prim p => some p
  | _ => none

def elem : Ty → Ty
  | .byref e => e
  | .pointer e => e
  | _ => .missing

def name : Ty → String
  | .missing => ""
  | .void => "Void"
  | .prim p => p.systemName
  | .param i => "!" ++ toString i
  | .byref e => e.name ++ "&"
  | .pointer e => e.name ++ "*"
  | .defined d => d.name
  | .inst g _ => g.name

def space : Ty → String
  | .void | .prim _ => "System"
  | .missing | .param _ => ""
  | .byref e => e.space
  | .pointer e => e.space
  | .defined d => d.space
  | .inst g _ => g.space

def fullName (t : Ty) : String := if t.space = "" then t.name else t.space ++ "." ++ t.name

def scope : Ty → Option ModuleRef
  | .missing | .void | .prim _ | .param _ => none
  | .byref e => e.scope
  | .pointer e => e.scope
  | .defined d => some d.home
  | .inst g _ => g.scope

def token : Ty → Token
  | .defined d => d.token
  | .inst g _ => g.token
  | _ => ⟨0⟩

/-- The parameters of an open definition or the arguments of an instance. -/
def genericArgs : Ty → List Ty
  | .defined d => d.params
  | .inst _ as => as
  | _ => []

def isInstance : Ty → Bool
  | .inst .. => true
  | _ => false

def isByRef (t : Ty) : Bool := t.kind = .byref
def isPointer (t : Ty) : Bool := t.kind = .pointer
def isVoid (t : Ty) : Bool := t.kind = .void
def isGeneric (t : Ty) : Bool := !t.genericArgs.isEmpty

mutual

def isOpen : Ty → Bool
  | .missing | .void | .prim _ => false
  | .param _ => true
  | .byref e => e.isOpen
  | .pointer e => e.isOpen
  | .defined d => d.arity != 0
  | .inst g as => match g.kind with
    | .param => true
    | .byref | .pointer => false
    | _ => anyOpen as

def anyOpen : List Ty → Bool
  | [] => false
  | a :: as => a.isOpen || anyOpen as

end

def withArgs (name : String) : List String → String
  | [] => name
  | args => name ++ (Char.ofNat 96).toString ++ toString args.length ++ "<" ++ ",".intercalate args ++ ">"

mutual

def text : Ty → String
  | .missing => "<nil>"
  | .void => "void"
  | .prim p => p.text
  | .param i => "!" ++ toString i
  | .byref e => e.text ++ "&"
  | .pointer e => e.text ++ "*"
  | .defined d => withArgs d.fullName ((List.range d.arity).map fun i ↦ "!" ++ toString i)
  | .inst g as => match g.kind with
    | .void => "void"
    | .primitive => "<none>"
    | .byref => "<nil>&"
    | .pointer => "<nil>*"
    | .param => "!0"
    | .refType | .valueType => withArgs g.fullName (texts as)

def texts : List Ty → List String
  | [] => []
  | a :: as => a.text :: texts as

end

mutual

/-- `t` with each type parameter replaced by the argument of its number, if there is one. An open
definition becomes an instance. A parameter with arguments of its own counts as the first. -/
def substAll (args : List Ty) : Ty → Ty
  | .param i => args.getD i (.param i)
  | .byref e => .byref (substAll args e)
  | .pointer e => .pointer (substAll args e)
  | .defined d =>
    if d.arity = 0 then .defined d
    else .inst (.defined d) (d.params.map fun
      | .param i => args.getD i (.param i)
      | t => t)
  | .inst g as => if g.kind = .param then args.getD 0 (.inst g as) else .inst g (substList args as)
  | t => t

def substList (args : List Ty) : List Ty → List Ty
  | [] => []
  | a :: as => substAll args a :: substList args as

end

def subst (t : Ty) (args : List Ty) : Ty := if args.isEmpty then t else substAll args t

/-- Integers of one signedness count; native integers and characters are integers. -/
def isUnsigned : Ty → Bool
  | .prim p => [Prim.uint8, .uint16, .uint32, .uint64, .uintPtr, .char].contains p
  | _ => false

def isInteger : Ty → Bool
  | .prim p => p != .float32 && p != .float64
  | _ => false

def isFloat : Ty → Bool
  | .prim p => p == .float32 || p == .float64
  | _ => false

def isPointerLike (t : Ty) : Bool :=
  t.isPointer || t == .prim .intPtr || t == .prim .uintPtr

/-- Managed references and unmanaged pointers, which share one representation. -/
def isAddress (t : Ty) : Bool := t.isByRef || t.isPointer

end Ty

def builtinNames : List (String × Ty) :=
  [("void", .void), ("bool", .prim .bool), ("char", .prim .char),
   ("int8", .prim .int8), ("sbyte", .prim .int8), ("uint8", .prim .uint8), ("byte", .prim .uint8),
   ("int16", .prim .int16), ("short", .prim .int16), ("uint16", .prim .uint16), ("ushort", .prim .uint16),
   ("int32", .prim .int32), ("int", .prim .int32), ("uint32", .prim .uint32), ("uint", .prim .uint32),
   ("int64", .prim .int64), ("long", .prim .int64), ("uint64", .prim .uint64), ("ulong", .prim .uint64),
   ("float32", .prim .float32), ("float", .prim .float32), ("float64", .prim .float64),
   ("double", .prim .float64), ("native int", .prim .intPtr), ("nint", .prim .intPtr),
   ("native uint", .prim .uintPtr), ("nuint", .prim .uintPtr)]

def builtin? (name : String) : Option Ty := builtinNames.lookup name

/-- A type with suffixes: `&` for a reference to it, any other for a pointer. -/
def Ty.suffixed (t : Ty) (suffixes : List Char) : Ty :=
  suffixes.foldl (fun t c ↦ if c = '&' then .byref t else .pointer t) t

/-- The type that a text means: a known name, a built-in name or `!N`, with suffixes. -/
def Ty.ofText? (known : List (String × Ty)) (s : String) : Option Ty :=
  let (suffixes, base) := s.toList.reverse.span fun c ↦ c = '&' || c = '*'
  let name := String.ofList base.reverse
  let parameter := match base.reverse with
    | '!' :: digits => (String.ofList digits).toNat?.map Ty.param
    | _ => none
  (known.lookup s).or ((((known.lookup name).or (builtin? name)).or parameter).map (·.suffixed suffixes.reverse))

end CilSsa.Metadata
