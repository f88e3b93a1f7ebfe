import CilSsa.Metadata.Lookup

namespace CilSsa.Metadata

inductive TokenUse
  | type | method | field
deriving DecidableEq

def TokenUse.text : TokenUse → String
  | .type => "type"
  | .method => "method"
  | .field => "field"

structure Refusal where
  module : String
  error : LookupError

def Refusal.message (r : Refusal) : String := r.module ++ ": " ++ r.error.message

/-- A token that no known module resolves. Without a caller nothing is asked. -/
structure ResolutionError where
  use : TokenUse
  token : Token
  caller : Option String
  refusals : List Refusal

def ResolutionError.message (e : ResolutionError) : String :=
  let head := "cannot resolve " ++ e.use.text ++ " token " ++ e.token.text
  match e.caller with
  | none => head ++ ": no calling method"
  | some c => head ++ " in " ++ c ++
    (if e.refusals.isEmpty then "" else ": " ++ "\n".intercalate (e.refusals.map Refusal.message))

/-- How often a resolver found a remembered answer, asked, asked with arguments, and failed. -/
structure ResolverStats where
  hits : Nat := 0
  misses : Nat := 0
  retries : Nat := 0
  failures : Nat := 0
deriving DecidableEq

abbrev TokenCache (α : Type) := Std.HashMap (ModuleRef × Token) α

structure Resolver where
  known : List ModuleRef := []
  types : TokenCache Ty := {}
  methods : TokenCache MethodId := {}
  fields : TokenCache Field := {}
  stats : ResolverStats := {}

namespace Resolver

def learn (r : Resolver) (m : ModuleRef) : Resolver :=
  if r.known.contains m then r else { r with known := r.known ++ [m] }

def ofModules (home : List ModuleRef) : Resolver := home.foldl learn {}

abbrev Attempt := ModuleRef × Option (List Ty)

def scopes (r : Resolver) (caller : Method) : List ModuleRef :=
  caller.scope :: r.known.filter (· ≠ caller.scope)

/-- The questions as written, and the questions with the caller's type arguments. -/
def attempts (r : Resolver) (caller : Method) : List Attempt × List Attempt :=
  let plain := (r.scopes caller).map fun m ↦ (m, none)
  let retried := match caller.owner with
    | some owner => if owner.isGeneric then (r.scopes caller).map fun m ↦ (m, some owner.genericArgs) else []
    | none => []
  (plain, retried)

/-- The first answer, or every refusal; with the questions that were asked. An entry that names nothing is
neither. -/
def firstAnswer {α : Type} (ask : ModuleRef → Option (List Ty) → Except LookupError (Option α)) :
    List Attempt → Except (List Refusal) α × List Attempt
  | [] => (.error [], [])
  | (m, args) :: rest =>
    match ask m args with
    | .ok (some a) => (.ok a, [(m, args)])
    | .ok none =>
      let (out, asked) := firstAnswer ask rest
      (out, (m, args) :: asked)
    | .error e =>
      let (out, asked) := firstAnswer ask rest
      (match out with
        | .ok a => .ok a
        | .error es => .error (⟨m.name, e⟩ :: es), (m, args) :: asked)

/-- What a resolution gave: the answer, whether to remember it, the counts, and the questions asked. -/
structure Outcome (α : Type) where
  answer : Except ResolutionError α
  remember : Bool
  stats : ResolverStats
  asked : List Attempt

def run {α : Type} (r : Resolver) (use : TokenUse) (caller : Option Method) (t : Token)
    (remembered : ModuleRef × Token → Option α)
    (ask : ModuleRef → Option (List Ty) → Except LookupError (Option α)) : Outcome α :=
  match caller with
  | none => ⟨.error ⟨use, t, none, []⟩, false, r.stats, []⟩
  | some c =>
    match remembered (c.scope, t) with
    | some a => ⟨.ok a, false, { r.stats with hits := r.stats.hits + 1 }, []⟩
    | none =>
      let stats := { r.stats with misses := r.stats.misses + 1 }
      let (plain, retried) := r.attempts c
      match firstAnswer ask plain with
      | (.ok a, asked) => ⟨.ok a, true, stats, asked⟩
      | (.error es, asked) =>
        let stats := if retried.isEmpty then stats else { stats with retries := stats.retries + 1 }
        match firstAnswer ask retried with
        | (.ok a, again) => ⟨.ok a, false, stats, asked ++ again⟩
        | (.error es', again) =>
          ⟨.error ⟨use, t, some c.text, es ++ es'⟩, false, { stats with failures := stats.failures + 1 },
            asked ++ again⟩

/-- The resolver after a resolution. An answer to be remembered is kept for the caller's module, which is
known from then on. -/
def conclude {α : Type} (r : Resolver) (caller : Option Method) (t : Token) (o : Outcome α)
    (keep : Resolver → ModuleRef × Token → α → Resolver) : Except ResolutionError α × Resolver × List Attempt :=
  let r := { r with stats := o.stats }
  match o.answer, caller with
  | .ok a, some c => (.ok a, if o.remember then (keep r (c.scope, t) a).learn c.scope else r, o.asked)
  | answer, _ => (answer, r, o.asked)

def resolveType (r : Resolver) (u : Universe) (caller : Option Method) (t : Token) :
    Except ResolutionError Ty × Resolver × List Attempt :=
  r.conclude caller t
    (r.run .type caller t (r.types[·]?) fun m args ↦
      (u.resolveType m t args).map fun found ↦ if found = .missing then none else some found)
    fun r k a ↦ { r with types := r.types.insert k a }

def resolveMethod (r : Resolver) (u : Universe) (caller : Option Method) (t : Token) :
    Except ResolutionError MethodId × Resolver × List Attempt :=
  r.conclude caller t
    (r.run .method caller t (r.methods[·]?) fun m args ↦ (u.resolveMethod m t args).map fun found ↦ some found.id)
    fun r k a ↦ { r with methods := r.methods.insert k a }

def resolveField (r : Resolver) (u : Universe) (caller : Option Method) (t : Token) :
    Except ResolutionError Field × Resolver × List Attempt :=
  r.conclude caller t
    (r.run .field caller t (r.fields[·]?) fun m args ↦ (u.resolveField m t args).map some)
    fun r k a ↦ { r with fields := r.fields.insert k a }

end Resolver

inductive FieldIndexError
  | noField
  | static (field : String)
  | absent (field owner : String)
deriving DecidableEq

def FieldIndexError.message : FieldIndexError → String
  | .noField => "resolve: nil field"
  | .static f => "resolve: static field " ++ f ++ " has no aggregate slot"
  | .absent f t => "resolve: field " ++ f ++ " not found on " ++ t

def Universe.fieldIndex (u : Universe) (f : Field) : Except FieldIndexError Nat :=
  if f.isStatic then .error (.static f.text)
  else match (u.instanceFields f.owner).findIdx? (· == f) with
    | some i => .ok i
    | none => .error (.absent f.text f.owner.text)

end CilSsa.Metadata
