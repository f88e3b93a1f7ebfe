import CilSsa.Bytecode.Source
import CilSsa.Image.Basic
import CilSsa.Image.TypeName

namespace CilSsa.Image

open CilSsa.Metadata CilSsa.Text CilSsa.Bytecode CilSsa.Number

inductive OperandError
  | typeName (e : TypeNameError)
  | noField (parent : Ty) (name : String)
  | noMethod (parent : Ty) (name : String)
  | badArity (operand : String)
  | arityNeeded (operand : String)

def OperandError.message : OperandError → String
  | .typeName e => e.message
  | .noField t n => t.text ++ " has no field " ++ n
  | .noMethod t n => t.text ++ " has no method " ++ n
  | .badArity s => "invalid arity in " ++ quote s
  | .arityNeeded s => "reference " ++ quote s ++ " needs an explicit /N arity"

inductive BuildProblem
  | missingName
  | importMissing (name : String)
  | unknownKind (kind : String)
  | negativeArity (n : Int)
  | definedTwice
  | fieldUnnamed
  | fieldTwice
  | typeName (e : TypeNameError)
  | constructorShape
  | methodUnnamed
  | twoBodies
  | hex (e : HexError)
  | source (e : SourceError OperandError)

structure BuildError where
  image : String
  place : String
  problem : BuildProblem

def BuildProblem.message : BuildProblem → String
  | .missingName => "missing name"
  | .importMissing n => "import " ++ quote n ++ " is not loaded"
  | .unknownKind k => "unknown kind " ++ quote k
  | .negativeArity n => "negative arity " ++ toString n
  | .definedTwice => "defined twice"
  | .fieldUnnamed => "field without a name"
  | .fieldTwice => "field defined twice"
  | .typeName e => e.message
  | .constructorShape => "constructors are instance methods returning void"
  | .methodUnnamed => "method without a name"
  | .twoBodies => "both il and hex given"
  | .hex e => e.message
  | .source e => e.message OperandError.message

def BuildError.message (e : BuildError) : String :=
  "image " ++ e.image ++ ": " ++ (if e.place = "" then "" else e.place ++ ": ") ++ e.problem.message

def BuildProblem.typeNameError? : BuildProblem → Option TypeNameError
  | .typeName e => some e
  | .source (.line _ (.token _ _ (.typeName e))) => some e
  | _ => none

def namesField (op : Opcode) : Bool :=
  [Opcode.ldfld, .ldflda, .stfld, .ldsfld, .ldsflda, .stsfld].contains op

/-- The token of a textual operand. `Type::Field` and `Type::Method/N` name members, anything else
a type. Members of the image's own plain types have their own rows; all else goes through
reference rows. -/
def Scope.token (sc : Scope) (op : Opcode) (operand : String) (u : Universe) :
    Except OperandError (Token × Universe) := do
  let typeOf (s : String) : Except OperandError Ty := (sc.parseType s).mapError .typeName
  match cut operand "::" with
  | none =>
    let t ← typeOf operand
    let (u, tok) := u.typeToken sc.home t
    return (tok, u)
  | some (typeName, member) =>
    let parent ← typeOf typeName
    let own := parent.scope == some sc.home && !parent.isInstance
    if namesField op then
      if own then
        match u.fieldByName parent member with
        | some f => return (f.token, u)
        | none => throw (.noField parent member)
      else
        let (u, tok) := u.addMemberRef sc.home ⟨parent, member, true, 0⟩
        return (tok, u)
    else
      let (name, arity) ← match cut member "/" with
        | none => pure (member, (-1 : Int))
        | some (name, count) => match parseDecimal? count with
          | some n => if n < 0 then throw (.badArity operand) else pure (name, n)
          | none => throw (.badArity operand)
      if own then
        match u.methodByName parent name arity with
        | some m => return (m.token, u)
        | none => throw (.noMethod parent member)
      else if arity < 0 then throw (.arityNeeded operand)
      else
        let (u, tok) := u.addMemberRef sc.home ⟨parent, name, false, arity⟩
        return (tok, u)

section

variable (image : String)

def defineTypeDecl (m : ModuleRef) (state : Universe × List TypeDef) (td : TypeDecl) :
    Except BuildError (Universe × List TypeDef) := do
  let (u, defs) := state
  let refuse (p : BuildProblem) : Except BuildError (Universe × List TypeDef) :=
    throw ⟨image, "type " ++ td.fullName, p⟩
  if td.name = "" then refuse .missingName
  else if td.kind ≠ "struct" ∧ td.kind ≠ "" ∧ td.kind ≠ "class" then refuse (.unknownKind td.kind)
  else if td.arity < 0 then refuse (.negativeArity td.arity)
  else if defs.any fun d ↦ d.fullName == td.fullName then refuse .definedTwice
  else
    let kind := if td.kind = "class" then .refType else .valueType
    let (u, d) := u.defineType m td.space td.name kind td.arity.toNat
    return (u, defs ++ [d])

def defineFieldDecl (sc : Scope) (owner : TypeDef) (u : Universe) (fd : FieldDecl) :
    Except BuildError Universe := do
  let place := owner.fullName ++ "::" ++ fd.name
  if fd.name = "" then throw ⟨image, place, .fieldUnnamed⟩
  if (u.fieldByName (.defined owner) fd.name).isSome then throw ⟨image, place, .fieldTwice⟩
  let t ← (sc.parseType fd.type).mapError fun e ↦ ⟨image, place, .typeName e⟩
  return (u.defineField sc.home (.defined owner) fd.name t fd.isStatic).1

def defineMethodDecl (sc : Scope) (owner : TypeDef) (u : Universe) (md : MethodDecl) :
    Except BuildError (Universe × Method) := do
  let place := owner.fullName ++ "::" ++ md.name
  let typed (s : String) : Except BuildError Ty :=
    (sc.parseType s).mapError fun e ↦ ⟨image, place, .typeName e⟩
  let params ← md.params.mapM typed
  if md.isCtor then
    if md.isStatic ∨ (md.returns ≠ "" ∧ md.returns ≠ "void") then throw ⟨image, place, .constructorShape⟩
    return u.defineConstructor sc.home (some (.defined owner)) params
  else
    if md.name = "" then throw ⟨image, place, .methodUnnamed⟩
    let ret ← if md.returns = "" then pure .void else typed md.returns
    return u.defineMethod sc.home (some (.defined owner)) md.name md.isStatic ret params

def defineMembers (sc : Scope) (state : Universe × List (Method × MethodDecl)) (entry : TypeDef × TypeDecl) :
    Except BuildError (Universe × List (Method × MethodDecl)) := do
  let (owner, td) := entry
  let u ← td.fields.foldlM (defineFieldDecl image sc owner) state.1
  td.methods.foldlM (fun (u, out) md ↦ do
    let (u, m) ← defineMethodDecl image sc owner u md
    return (u, out ++ [(m, md)])) (u, state.2)

def defineBody (sc : Scope) (u : Universe) (entry : Method × MethodDecl) : Except BuildError Universe := do
  let (m, md) := entry
  if !md.hasBody then return u
  let refuse {α : Type} (p : BuildProblem) : Except BuildError α := throw ⟨image, m.text, p⟩
  if md.source ≠ "" ∧ md.hex ≠ "" then refuse .twoBodies
  let locals ← md.locals.mapM fun s ↦ (sc.parseType s).mapError fun e ↦ ⟨image, m.text, .typeName e⟩
  let (code, u) ← if md.hex ≠ "" then
      match bytesOfHex (String.join (fields md.hex)) with
      | .ok bs => pure (bs, u)
      | .error e => refuse (.hex e)
    else match assemble (some sc.token) u md.source with
      | .ok r => pure r
      | .error e => refuse (.source e)
  let maxStack := if md.maxStack ≤ 0 then defaultMaxStack else md.maxStack
  return u.setBody m.id ⟨maxStack, locals, code⟩

end

/-- Builds an image into the universe. `refs` names the modules that it may import. -/
def build (img : Image) (refs : List (String × ModuleRef)) (u : Universe) :
    Except BuildError (ModuleRef × Universe) := do
  if img.name = "" then throw ⟨"<unnamed>", "", .missingName⟩
  let imports ← img.imports.mapM fun name ↦ match refs.lookup name with
    | some m => pure (name, u.typesOf m)
    | none => throw ⟨img.name, "", .importMissing name⟩
  let (u, home) := u.addModule img.name
  let (u, defs) ← img.typeList.foldlM (defineTypeDecl img.name home) (u, [])
  let sc : Scope := ⟨home, imports, defs⟩
  let (u, methods) ← (defs.zip img.typeList).foldlM (defineMembers img.name sc) (u, [])
  let u ← methods.foldlM (defineBody img.name sc) u
  return (home, u)

/-- Builds images in order, each with those before it to import from; of two with one name the later counts.
Gives the modules that were built, and what stopped it. -/
def buildAll (refs : List (String × ModuleRef)) (u : Universe) : List Image →
    Universe × List ModuleRef × Option BuildError
  | [] => (u, [], none)
  | img :: rest => match img.build refs u with
    | .error e => (u, [], some e)
    | .ok (m, u) =>
      let (u, ms, e) := buildAll ((m.name, m) :: refs) u rest
      (u, m :: ms, e)

/-- The type that an expression means among some modules: that of the only field of an image which imports them
all. -/
def readType (modules : List ModuleRef) (expression : String) (u : Universe) : Except BuildError (Ty × Universe) := do
  let probe : TypeDecl := { name := "?Probe", kind := "struct", fields := [⟨"t", expression, true⟩] }
  let img : Image := { name := "?probe", imports := modules.map (·.name), types := some [probe] }
  let (m, u) ← img.build (modules.reverse.map fun m ↦ (m.name, m)) u
  let fields := (u.typesOf m).flatMap fun d ↦ u.fields (.defined d)
  return ((fields.head?.map (·.type)).getD .missing, u)

end CilSsa.Image

