import CilSsa.Number.Literal
import CilSsa.Text.Blank
import CilSsa.Text.Duration

namespace CilSsa.Command

open CilSsa.Number CilSsa.Text

/-- What a flag takes. A toggle and a counter need no value. -/
inductive FlagKind
  | text | texts | toggle | counter | number | duration
deriving DecidableEq

structure Flag where
  name : String
  kind : FlagKind
  short : Option Char := none
  default : String := ""

def FlagKind.implied? : FlagKind → Option String
  | .toggle => some "true"
  | .counter => some "+1"
  | _ => none

inductive ValueError
  | literal (e : LiteralError)
  | duration (e : DurationError)
deriving DecidableEq

def ValueError.message : ValueError → String
  | .literal e => e.message
  | .duration e => e.message

def FlagKind.check (k : FlagKind) (v : String) : Except ValueError Unit :=
  match k with
  | .text | .texts => .ok ()
  | .toggle => ((parseBool v).map fun _ ↦ ()).mapError .literal
  | .number => ((parseSigned 64 v).map fun _ ↦ ()).mapError .literal
  | .counter => if v = "+1" then .ok () else ((parseSigned 64 v).map fun _ ↦ ()).mapError .literal
  | .duration => ((parseDuration v).map fun _ ↦ ()).mapError .duration

inductive FlagError
  | malformed (argument : String)
  | unknown (name : String)
  | unknownShort (c : Char) (group : String)
  | missingValue (argument : String)
  | missingShortValue (c : Char) (group : String)
  | badValue (flag : Flag) (value : String) (e : ValueError)

def Flag.shown (f : Flag) : String :=
  match f.short with
  | some c => "-" ++ c.toString ++ ", --" ++ f.name
  | none => "--" ++ f.name

def FlagError.message : FlagError → String
  | .malformed a => "bad flag syntax: " ++ a
  | .unknown n => "unknown flag: --" ++ n
  | .unknownShort c g => "unknown shorthand flag: " ++ quoteChar c ++ " in -" ++ g
  | .missingValue a => "flag needs an argument: " ++ a
  | .missingShortValue c g => "flag needs an argument: " ++ quoteChar c ++ " in -" ++ g
  | .badValue f v e => "invalid argument " ++ quote v ++ " for " ++ quote f.shown ++ " flag: " ++ e.message
where
  quoteChar (c : Char) : String := "'" ++ (if c = '\'' || c = '\\' then "\\" else "") ++ c.toString ++ "'"

/-- What was given: the values of flags in order, and the other arguments. -/
structure Arguments where
  flags : List Flag
  values : List (String × String) := []
  rest : List String := []

def findFlag? (flags : List Flag) (name : String) : Option Flag := flags.find? (·.name == name)

def findShort? (flags : List Flag) (c : Char) : Option Flag := flags.find? (·.short == some c)

namespace Arguments

def note (a : Arguments) (f : Flag) (v : String) : Except FlagError Arguments :=
  match f.kind.check v with
  | .ok () => .ok { a with values := a.values ++ [(f.name, v)] }
  | .error e => .error (.badValue f v e)

/-- Reads `--name`, `--name=value` or `--name value`; gives what is left of the arguments. -/
def long (a : Arguments) (argument body : String) (next : List String) :
    Except FlagError (Arguments × List String) := do
  if body.toList.head? = some '-' || body.toList.head? = some '=' then throw (.malformed argument)
  let (name, given) := match cut body "=" with
    | some (n, v) => (n, some v)
    | none => (body, none)
  let some f := findFlag? a.flags name | throw (.unknown name)
  match given.or f.kind.implied?, next with
  | some v, _ => return (← a.note f v, next)
  | none, v :: next => return (← a.note f v, next)
  | none, [] => throw (.missingValue argument)

/-- Reads a group of one-letter flags, the last of which may have its value behind it. -/
def shorts (next : List String) : List Char → Arguments → Except FlagError (Arguments × List String)
  | [], a => .ok (a, next)
  | c :: cs, a => do
    let some f := findShort? a.flags c | throw (.unknownShort c (String.ofList (c :: cs)))
    match cs, f.kind.implied?, next with
    | '=' :: d :: ds, _, _ => return (← a.note f (String.ofList (d :: ds)), next)
    | cs, some v, _ => shorts next cs (← a.note f v)
    | d :: ds, none, _ => return (← a.note f (String.ofList (d :: ds)), next)
    | [], none, v :: next => return (← a.note f v, next)
    | [], none, [] => throw (.missingShortValue c (String.ofList (c :: cs)))

/-- Reads arguments; each takes at least one of them, so their number bounds the steps. -/
def readAll : Nat → List String → Arguments → Except FlagError Arguments
  | 0, _, a => .ok a
  | _ + 1, [], a => .ok a
  | fuel + 1, arg :: next, a => do
    match arg.toList with
    | ['-', '-'] => return { a with rest := a.rest ++ next }
    | '-' :: '-' :: body =>
      let (a, next) ← a.long arg (String.ofList body) next
      readAll fuel next a
    | '-' :: c :: cs =>
      let (a, next) ← shorts next (c :: cs) a
      readAll fuel next a
    | _ => readAll fuel next { a with rest := a.rest ++ [arg] }

def parse (flags : List Flag) (args : List String) : Except FlagError Arguments :=
    readAll (args.length + 1) args { flags }

variable (a : Arguments)

def isGiven (name : String) : Bool := a.values.any (·.1 == name)

def texts (name : String) : List String := (a.values.filter (·.1 == name)).map (·.2)

def text (name : String) : String :=
  ((a.texts name).getLast?).getD (((findFlag? a.flags name).map (·.default)).getD "")

def toggle (name : String) : Bool := (parseBool (a.text name)).toOption.getD false

def number (name : String) : Int := (parseSigned 64 (a.text name)).toOption.getD 0

end Arguments

end CilSsa.Command

