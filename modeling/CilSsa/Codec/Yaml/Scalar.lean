import CilSsa.Number.Decimal
import CilSsa.Number.Word
import CilSsa.Text.Base64
import CilSsa.Text.Blank
import CilSsa.Text.Hex
import CilSsa.Text.Utf8

namespace CilSsa.Codec.Yaml

open CilSsa.Number CilSsa.Text

def daysIn (year month : Nat) : Nat :=
  let leap := year % 4 = 0 ∧ (year % 100 ≠ 0 ∨ year % 400 = 0)
  if month = 2 then (if leap then 29 else 28)
  else if month = 4 ∨ month = 6 ∨ month = 9 ∨ month = 11 then 30
  else 31

def digitsValue (cs : List Char) : Nat := cs.foldl (fun n c ↦ 10 * n + (c.toNat - '0'.toNat)) 0

def shortNumber? (cs : List Char) : Option (Nat × List Char) :=
  let digits := (cs.take 2).takeWhile Char.isDigit
  if digits.isEmpty then none else some (digitsValue digits, cs.drop digits.length)

def below? (bound : Nat) (cs : List Char) : Option (List Char) := do
  let (n, rest) ← shortNumber? cs
  if n < bound then some rest else none

def date? (cs : List Char) : Option (List Char) := do
  let year := cs.takeWhile Char.isDigit
  if year.length ≠ 4 then none
  let '-' :: cs := cs.drop 4 | none
  let (month, cs) ← shortNumber? cs
  let '-' :: cs := cs | none
  let (day, cs) ← shortNumber? cs
  if 1 ≤ month ∧ month ≤ 12 ∧ 1 ≤ day ∧ day ≤ daysIn (digitsValue year) month then some cs else none

def clock? (cs : List Char) : Option (List Char) := do
  let ':' :: cs ← below? 24 cs | none
  let ':' :: cs ← below? 60 cs | none
  let cs ← below? 60 cs
  match cs with
  | c :: d :: rest => some (if (c = '.' || c = ',') && d.isDigit then rest.dropWhile Char.isDigit else cs)
  | cs => some cs

def isZone : List Char → Bool
  | ['Z'] => true
  | [s, a, b, ':', c, d] =>
    (s = '+' || s = '-') && [a, b, c, d].all Char.isDigit && digitsValue [a, b] ≤ 24 && digitsValue [c, d] ≤ 60
  | _ => false

/-- A date, alone, with a time of day behind spaces, or with a time of day and a zone behind a T. -/
def isTime (s : String) : Bool :=
  match date? s.toList with
  | none => false
  | some [] => true
  | some (c :: rest) =>
    if c = 'T' || c = 't' then ((clock? rest).map isZone).getD false
    else c = ' ' && ((clock? (rest.dropWhile (· = ' '))).map List.isEmpty).getD false

inductive Meaning
  | null
  | bool (b : Bool)
  | int (n : Int)
  | float (bits : UInt64)
  | time
  | text (s : String)

def isNull (s : String) : Bool := ["", "~", "null", "Null", "NULL"].contains s

def bool? (s : String) : Option Bool :=
  if ["true", "True", "TRUE"].contains s then some true
  else if ["false", "False", "FALSE"].contains s then some false
  else none

def specialFloat? (s : String) : Option UInt64 :=
  if [".nan", ".NaN", ".NAN"].contains s then some 0x7FF8000000000001
  else if [".inf", ".Inf", ".INF", "+.inf", "+.Inf", "+.INF"].contains s then some 0x7FF0000000000000
  else if ["-.inf", "-.Inf", "-.INF"].contains s then some 0xFFF0000000000000
  else none

/-- A number in the base that the text names behind its mark; the sign stands in front of the mark or, if
there is none there, behind it. -/
def marked? (base : Nat) (mark s : String) : Option Int :=
  match after? s mark with
  | some digits => parseInBase? base digits
  | none => (after? s ("-" ++ mark)).bind fun digits ↦ parseInBase? base ("-" ++ digits)

def looksFloat (s : String) : Bool :=
  let cs := (splitSign s.toList).2
  let whole := cs.takeWhile Char.isDigit
  let (fraction, rest) := match cs.dropWhile Char.isDigit with
    | '.' :: cs => (cs.takeWhile Char.isDigit, cs.dropWhile Char.isDigit)
    | cs => ([], cs)
  let exponent := match rest with
    | [] => true
    | e :: cs =>
      let digits := (splitSign cs).2
      (e = 'e' || e = 'E') && !digits.isEmpty && digits.all Char.isDigit
  !(whole.isEmpty && fraction.isEmpty) && exponent

def double? (s : String) : Option UInt64 := ((parseFloat .double s).toOption).map Nat.toUInt64

/-- The number that a text writes, in which underscores count for nothing. -/
def number? (s : String) : Option Meaning :=
  let t := String.ofList (s.toList.filter (· ≠ '_'))
  let whole := ((parseSigned 64 t).toOption).or (((parseUnsigned 64 t).toOption).map Int.ofNat)
  let double := if looksFloat t then double? t else none
  (whole.map .int).or ((double.map .float).or (((marked? 2 "0b" t).or (marked? 8 "0o" t)).map .int))

/-- What a text means by itself. Its first character tells what it may be. -/
def meaningOf (timed : Bool) (s : String) : Meaning :=
  match s.toList with
  | [] => .null
  | c :: _ =>
    let named : Option Meaning :=
      if isNull s then some .null else ((bool? s).map .bool).or ((specialFloat? s).map .float)
    let other : Option Meaning :=
      if c.isDigit || c = '+' || c = '-' then (if timed && isTime s then some .time else number? s)
      else if c = '.' then (double? s).map .float
      else none
    (named.or other).getD (.text s)

/-- What a scalar means that has a tag. A tag that is not one of the known ones leaves the text as it
is; under a known one nothing else may be meant. -/
def meaningAs? (tag s : String) : Option Meaning :=
  match tag with
  | "!!str" => some (.text s)
  | "!!binary" => (bytesOfBase64? s).map fun bs ↦ .text (textOfBytes bs)
  | "!!null" => match meaningOf false s with
    | .null => some .null
    | _ => none
  | "!!bool" => match meaningOf false s with
    | .bool b => some (.bool b)
    | _ => none
  | "!!int" => match meaningOf false s with
    | .int n => some (.int n)
    | _ => none
  | "!!float" => match meaningOf false s with
    | .float x => some (.float x)
    | .int n => if wrapInt n = n then some (.float (doubleOfInt n)) else none
    | _ => none
  | "!!timestamp" => match meaningOf true s with
    | .time => some .time
    | _ => none
  | _ => some (.text s)

def mergeKey : String := "<<"

def scalarMeaning? (tag : Option String) (quoted : Bool) (s : String) : Option Meaning :=
  match tag with
  | some t => meaningAs? t s
  | none => some (if quoted then .text s else meaningOf true s)

end CilSsa.Codec.Yaml
