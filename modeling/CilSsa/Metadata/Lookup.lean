import CilSsa.Metadata.Universe
import CilSsa.Number.Literal
import CilSsa.Text.Blank

namespace CilSsa.Metadata

open CilSsa.Text CilSsa.Number

inductive LookupError
  | noRow (token : Token) (module : String)
  | noField (name : String) (parent : Ty)
  | noMethod (name : String) (params : Int) (parent : Ty)
  | openSpec (token : Token) (module : String)
  | openMember (token : Token) (module : String)
  | notType (token : Token)
  | notField (token : Token)
  | notMethod (token : Token)
  | isMethod (token : Token)
  | isField (token : Token)

inductive LookupReason
  | notFound | openGeneric | otherKind
deriving DecidableEq

def LookupReason.message : LookupReason → String
  | .notFound => "token not found"
  | .openGeneric => "entry requires generic type arguments"
  | .otherKind => "token refers to a different kind of member"

def LookupError.reason : LookupError → LookupReason
  | .noRow .. | .noField .. | .noMethod .. => .notFound
  | .openSpec .. | .openMember .. => .openGeneric
  | .notType _ | .notField _ | .notMethod _ | .isMethod _ | .isField _ => .otherKind

def LookupError.detail : LookupError → String
  | .noRow t m => t.text ++ " in module " ++ m
  | .noField n p => "field " ++ n ++ " on " ++ p.text
  | .noMethod n k p => "method " ++ n ++ "/" ++ toString k ++ " on " ++ p.text
  | .openSpec t m => "type spec " ++ t.text ++ " in module " ++ m
  | .openMember t m => "member ref " ++ t.text ++ " in module " ++ m
  | .notType t => t.text ++ " is not a type token"
  | .notField t => t.text ++ " is not a field token"
  | .notMethod t => t.text ++ " is not a method token"
  | .isMethod t => t.text ++ " is a method reference"
  | .isField t => t.text ++ " is a field reference"

def LookupError.message (e : LookupError) : String := e.reason.message ++ ": " ++ e.detail

def rowAt? {α : Type} (table : Array α) (t : Token) : Option α :=
  if t.row = 0 then none else table[t.row - 1]?

namespace Universe

variable (u : Universe)

/-- A type token in a module; without arguments, an open entry is refused. -/
def resolveType (m : ModuleRef) (t : Token) (args : Option (List Ty)) : Except LookupError Ty := do
  let tables := u.tables m
  let found ← match t.table? with
    | some .typeDef => match rowAt? tables.types t with
      | some d => pure (.defined d)
      | none => throw (.noRow t m.name)
    | some .typeSpec => match rowAt? tables.specs t with
      | some spec =>
        if spec.isOpen && args.isNone then throw (.openSpec t m.name) else pure spec
      | none => throw (.noRow t m.name)
    | some .field | some .method | some .memberRef => throw (.notType t)
    | none => throw (.noRow t m.name)
  match args with
  | some args => return found.subst args
  | none => return found

def memberParent (m : ModuleRef) (r : MemberRef) (t : Token) (args : Option (List Ty)) :
    Except LookupError Ty :=
  if r.parent.isOpen then
    match args with
    | none => .error (.openMember t m.name)
    | some args => .ok (r.parent.subst args)
  else .ok r.parent

def openedBy? (m : ModuleRef) (t : Token) (args : Option (List Ty)) : Option Ty :=
  match t.table? with
  | some .memberRef => match rowAt? (u.tables m).memberRefs t with
    | some r => (memberParent m r t args).toOption
    | none => none
  | _ => none

def openAsked (t : Token) (asked : List (ModuleRef × Option (List Ty))) : Universe :=
  asked.foldl (fun u (m, args) ↦ ((u.openedBy? m t args).map u.openType).getD u) u

def resolveField (m : ModuleRef) (t : Token) (args : Option (List Ty)) : Except LookupError Field := do
  let tables := u.tables m
  match t.table? with
  | some .field => match rowAt? tables.fields t with
    | some f => return f
    | none => throw (.noRow t m.name)
  | some .memberRef => match rowAt? tables.memberRefs t with
    | none => throw (.noRow t m.name)
    | some r =>
      if !r.isField then throw (.isMethod t)
      let parent ← memberParent m r t args
      match u.fieldByName parent r.name with
      | some f => return f
      | none => throw (.noField r.name parent)
  | _ => throw (.notField t)

def resolveMethod (m : ModuleRef) (t : Token) (args : Option (List Ty)) : Except LookupError Method := do
  let tables := u.tables m
  match t.table? with
  | some .method => match rowAt? tables.methods t with
    | some f => return f
    | none => throw (.noRow t m.name)
  | some .memberRef => match rowAt? tables.memberRefs t with
    | none => throw (.noRow t m.name)
    | some r =>
      if r.isField then throw (.isField t)
      let parent ← memberParent m r t args
      match u.methodByName parent r.name r.params with
      | some f => return f
      | none => throw (.noMethod r.name r.params parent)
  | _ => throw (.notMethod t)

end Universe

inductive SelectorError
  | malformed (selector : String)
  | badArity (selector : String)
  | notFound (selector : String) (module : String)
deriving DecidableEq

def SelectorError.message : SelectorError → String
  | .malformed s => "invalid method selector " ++ quote s ++ " (expected Type::Method)"
  | .badArity s => "invalid arity in selector " ++ quote s
  | .notFound s m => "method " ++ quote s ++ " not found in module " ++ m

/-- The integer at the front of a text, white space skipped; what follows it does not matter. -/
def leadingInt? (s : String) : Option Int :=
  let (neg, rest) := splitSign (trimLeftChars s.toList)
  let digits := rest.takeWhile Char.isDigit
  if digits = [] then none
  else match signedRange 64 neg (readDigits 10 false (18446744073709551615) 0 digits) with
    | .ok n => some n
    | .error _ => none

/-- The method of a module that `Type::Name` or `Type::Name/N` selects. -/
def Universe.findMethod (u : Universe) (m : ModuleRef) (selector : String) : Except SelectorError Method := do
  match cut selector "::" with
  | none => throw (.malformed selector)
  | some (typeName, rest) =>
    let (name, arity) ← match cut rest "/" with
      | none => pure (rest, -1)
      | some (name, n) => match leadingInt? n with
        | some k => pure (name, k)
        | none => throw (.badArity selector)
    let hits := (u.typesOf m).filterMap fun d ↦
      if d.fullName == typeName || d.name == typeName then u.methodByName (.defined d) name arity else none
    match hits with
    | found :: _ => return found
    | [] => throw (.notFound selector m.name)

/-- The method that a selector finds first in some modules; `[Module]` in front of it asks the modules of that name
only. -/
def Universe.findMethodIn (u : Universe) (modules : List ModuleRef) (selector : String) : Except SelectorError Method :=
  let (home, rest) := ((after? selector "[").bind fun s ↦ cut s "]").getD ("", selector)
  let answers := (modules.filter fun m ↦ home == "" || m.name == home).map fun m ↦ u.findMethod m rest
  (answers.find? Except.isOk).getD (answers.headD (.error (.malformed rest)))

end CilSsa.Metadata
