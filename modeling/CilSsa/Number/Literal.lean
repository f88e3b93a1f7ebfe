import CilSsa.Text.Quoted

namespace CilSsa.Number

open CilSsa.Text

inductive LiteralProblem
  | malformed
  | outOfRange
deriving DecidableEq

/-- A refused number: which reader refused it, and the text it was given. -/
structure LiteralError where
  reader : String
  text : String
  problem : LiteralProblem
deriving DecidableEq

def LiteralProblem.message : LiteralProblem → String
  | .malformed => "invalid syntax"
  | .outOfRange => "value out of range"

def LiteralError.message (e : LiteralError) : String :=
  "strconv." ++ e.reader ++ ": parsing " ++ quote e.text ++ ": " ++ e.problem.message

def digitValue? (c : Char) : Option Nat :=
  if '0' ≤ c ∧ c ≤ '9' then some (c.toNat - '0'.toNat)
  else if 'a' ≤ c ∧ c ≤ 'z' then some (c.toNat - 'a'.toNat + 10)
  else if 'A' ≤ c ∧ c ≤ 'Z' then some (c.toNat - 'A'.toNat + 10)
  else none

inductive Seen
  | start | digit | underscore | other
deriving DecidableEq

def underscoresFrom (hex : Bool) : Seen → List Char → Bool
  | seen, [] => seen != .underscore
  | seen, c :: cs =>
    if ('0' ≤ c ∧ c ≤ '9') ∨ (hex = true ∧ (hexValue? c).isSome) then underscoresFrom hex .digit cs
    else if c = '_' then
      if seen = .digit then underscoresFrom hex .underscore cs else false
    else if seen = .underscore then false
    else underscoresFrom hex .other cs

/-- Every underscore stands between digits, or between a base mark and a digit. -/
def underscoresOk (cs : List Char) : Bool :=
  let body := match cs with
    | '-' :: r => r
    | '+' :: r => r
    | r => r
  match body with
  | '0' :: m :: rest =>
    if m.toLower = 'x' then underscoresFrom true .digit rest
    else if m.toLower = 'b' ∨ m.toLower = 'o' then underscoresFrom false .digit rest
    else underscoresFrom false .start body
  | _ => underscoresFrom false .start body

def literalBase : List Char → Nat × List Char
  | '0' :: m :: d :: rest =>
    if m.toLower = 'b' then (2, d :: rest)
    else if m.toLower = 'o' then (8, d :: rest)
    else if m.toLower = 'x' then (16, d :: rest)
    else (8, m :: d :: rest)
  | '0' :: rest => (8, rest)
  | cs => (10, cs)

/-- Reads digits from the left and stops at the first fault: a bad digit, or a value above `max`. -/
def readDigits (base : Nat) (underscores : Bool) (max : Nat) :
    Nat → List Char → Except LiteralProblem Nat
  | n, [] => .ok n
  | n, c :: cs =>
    if c = '_' ∧ underscores = true then readDigits base underscores max n cs
    else match digitValue? c with
      | none => .error .malformed
      | some d =>
        if base ≤ d then .error .malformed
        else if max < n * base + d then .error .outOfRange
        else readDigits base underscores max (n * base + d) cs

def natLiteral (bits : Nat) (cs : List Char) : Except LiteralProblem Nat :=
  if cs = [] then .error .malformed
  else
    let (base, digits) := literalBase cs
    match readDigits base true (Nat.pow 2 bits - 1) 0 digits with
    | .error p => .error p
    | .ok n => if cs.contains '_' && !underscoresOk cs then .error .malformed else .ok n

def splitSign : List Char → Bool × List Char
  | '+' :: r => (false, r)
  | '-' :: r => (true, r)
  | r => (false, r)

def signedRange (bits : Nat) (neg : Bool) : Except LiteralProblem Nat → Except LiteralProblem Int
  | .error .malformed => .error .malformed
  | .error .outOfRange => .error .outOfRange
  | .ok n =>
    if neg then (if Nat.pow 2 (bits - 1) < n then .error .outOfRange else .ok (-(n : Int)))
    else if Nat.pow 2 (bits - 1) ≤ n then .error .outOfRange else .ok n

def parseUnsigned (bits : Nat) (s : String) : Except LiteralError Nat :=
  (natLiteral bits s.toList).mapError fun p ↦ ⟨"ParseUint", s, p⟩

def parseSigned (bits : Nat) (s : String) : Except LiteralError Int :=
  let (neg, rest) := splitSign s.toList
  (signedRange bits neg (natLiteral bits rest)).mapError fun p ↦ ⟨"ParseInt", s, p⟩

def parseInBase? (base : Nat) (s : String) : Option Int :=
  let (neg, rest) := splitSign s.toList
  if rest = [] then none
  else match signedRange 64 neg (readDigits base false (18446744073709551615) 0 rest) with
    | .ok n => some n
    | .error _ => none

def parseDecimal? (s : String) : Option Int := parseInBase? 10 s

/-- A truth value: `1`, `t`, `T`, `true`, `True`, `TRUE` and their opposites. -/
def parseBool (s : String) : Except LiteralError Bool :=
  if ["1", "t", "T", "true", "TRUE", "True"].contains s then .ok true
  else if ["0", "f", "F", "false", "FALSE", "False"].contains s then .ok false
  else .error ⟨"ParseBool", s, .malformed⟩

end CilSsa.Number
