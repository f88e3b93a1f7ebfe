import CilSsa.Text.Quoted

namespace CilSsa.Text

def fixedPoint (places n : Nat) : String :=
  let tail := (padLeft places '0' (toString (n % Nat.pow 10 places))).toList.reverse.dropWhile (· = '0')
  toString (n / Nat.pow 10 places) ++ (if tail.isEmpty then "" else "." ++ String.ofList tail.reverse)

/-- Nanoseconds in the largest unit that leaves a whole part, and in hours, minutes and seconds from a second on. -/
def durationText (ns : Int) : String :=
  let n := ns.natAbs
  let second := 1000000000
  let sign := if ns < 0 then "-" else ""
  sign ++
    if n = 0 then "0s"
    else if n < 1000 then toString n ++ "ns"
    else if n < 1000000 then fixedPoint 3 n ++ "µs"
    else if n < second then fixedPoint 6 n ++ "ms"
    else
      let minutes := n / (60 * second)
      let hours := minutes / 60
      (if hours = 0 then "" else toString hours ++ "h") ++
      (if minutes = 0 then "" else toString (minutes % 60) ++ "m") ++
      fixedPoint 9 (n % (60 * second)) ++ "s"

def roundTo (unit ns : Int) : Int :=
  let r := ns.natAbs % unit.natAbs
  let m : Int := ns.natAbs - r + (if 2 * r < unit.natAbs then 0 else unit.natAbs)
  if ns < 0 then -m else m

inductive DurationError
  | invalid (text : String)
  | missingUnit (text : String)
  | unknownUnit (unit text : String)
deriving DecidableEq

def DurationError.message : DurationError → String
  | .invalid s => "time: invalid duration " ++ quote s
  | .missingUnit s => "time: missing unit in duration " ++ quote s
  | .unknownUnit u s => "time: unknown unit " ++ quote u ++ " in duration " ++ quote s

def durationUnits : List (String × Nat) :=
  [("ns", 1), ("us", 1000), ("µs", 1000), ("μs", 1000), ("ms", 1000000), ("s", 1000000000), ("m", 60 * 1000000000),
   ("h", 3600 * 1000000000)]

def decimalValue (digits : List Char) : Nat := digits.foldl (fun n c ↦ 10 * n + (c.toNat - '0'.toNat)) 0

/-- Sums amounts with units, of which there is at least one; the fuel bounds their number. -/
def amounts (whole : String) : Nat → Nat → List Char → Except DurationError Nat
  | 0, _, _ => .error (.invalid whole)
  | fuel + 1, sum, cs => do
    let front := cs.takeWhile Char.isDigit
    let afterFront := cs.dropWhile Char.isDigit
    let (places, rest) := match afterFront with
      | '.' :: t => (t.takeWhile Char.isDigit, t.dropWhile Char.isDigit)
      | t => ([], t)
    if front.isEmpty && places.isEmpty then throw (.invalid whole)
    let unit := String.ofList (rest.takeWhile fun c ↦ c ≠ '.' && !c.isDigit)
    if unit = "" then throw (.missingUnit whole)
    match durationUnits.lookup unit with
    | none => throw (.unknownUnit unit whole)
    | some ns =>
      let sum := sum + decimalValue front * ns + decimalValue places * ns / Nat.pow 10 places.length
      if 9223372036854775808 ≤ sum then throw (.invalid whole)
      match rest.dropWhile fun c ↦ c ≠ '.' && !c.isDigit with
      | [] => return sum
      | more => amounts whole fuel sum more

def parseDuration (s : String) : Except DurationError Int := do
  let (negative, cs) := match s.toList with
    | '-' :: cs => (true, cs)
    | '+' :: cs => (false, cs)
    | cs => (false, cs)
  if cs = ['0'] then return 0
  let n ← amounts s s.length 0 cs
  return if negative then -(n : Int) else n

end CilSsa.Text
