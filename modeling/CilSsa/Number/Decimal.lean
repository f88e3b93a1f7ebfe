import CilSsa.Number.Binary
import CilSsa.Number.Literal

namespace CilSsa.Number

open CilSsa.Text

structure Digits where
  digits : List Char
  point : Int

def floorLog10 (a b : Nat) : Int :=
  let rec climb : Nat → Int → Int
    | 0, k => k
    | fuel + 1, k =>
      let above := if 0 ≤ k + 1 then b * Nat.pow 10 (k + 1).toNat ≤ a else b ≤ a * Nat.pow 10 (-(k + 1)).toNat
      if above then climb fuel (k + 1) else k
  climb 8 ((floorLog2 a b) * 30103 / 100000 - 3)

/-- Distances below and above a finite positive number to the ends of the interval that rounds to
it, as a common scale: numerator of the value, lower end, upper end, denominator. -/
def roundingInterval (f : BinaryFormat) (m : Nat) (e : Int) : Nat × Nat × Nat × Nat :=
  let narrowBelow := m = Nat.pow 2 f.fractionBits ∧ f.minExponent < e
  let v := 4 * m
  let lo := if narrowBelow then 4 * m - 1 else 4 * m - 2
  let hi := 4 * m + 2
  if 0 ≤ e then
    let s := Nat.pow 2 e.toNat
    (v * s, lo * s, hi * s, 4)
  else (v, lo, hi, 4 * Nat.pow 2 (-e).toNat)

/-- The shortest digits in the interval, nearest to the value and even when two are equally near;
tried from one digit up. -/
def shortestFrom (v lo hi den : Nat) (closed : Bool) (k : Int) : Nat → Nat → Nat × Int
  | 0, n => (v / den, n)
  | fuel + 1, n =>
    -- the grid of n digits has step 10 ^ (k + 1 - n)
    let step := k + 1 - (n : Int)
    let (sv, slo, shi, sden) :=
      if 0 ≤ step then (v, lo, hi, den * Nat.pow 10 step.toNat)
      else (v * Nat.pow 10 (-step).toNat, lo * Nat.pow 10 (-step).toNat, hi * Nat.pow 10 (-step).toNat, den)
    let d := sv / sden
    let inside (x : Nat) : Bool :=
      if closed then slo ≤ x * sden && x * sden ≤ shi else slo < x * sden && x * sden < shi
    let down := inside d
    let up := inside (d + 1)
    if down && up then
      let twice := 2 * (sv - d * sden)
      (if twice < sden ∨ (twice = sden ∧ d % 2 = 0) then d else d + 1, step)
    else if down then (d, step)
    else if up then (d + 1, step)
    else shortestFrom v lo hi den closed k fuel (n + 1)

def dropTrailingZeros (cs : List Char) : List Char := (cs.reverse.dropWhile (· = '0')).reverse

def shortestDigits (f : BinaryFormat) (m : Nat) (e : Int) : Digits :=
  let (v, lo, hi, den) := roundingInterval f m e
  let k := floorLog10 v den
  let (d, step) := shortestFrom v lo hi den (m % 2 = 0) k 20 1
  let text := Nat.toDigits 10 d
  ⟨dropTrailingZeros text, (text.length : Int) + step⟩

/-- Layout of the general float text: scientific below `10⁻⁴` and from `10⁶` on, with a signed
exponent of at least two digits; otherwise positional without a trailing point. -/
def layoutGeneral (d : Digits) : List Char :=
  let exp := d.point - 1
  if exp < -4 ∨ 6 ≤ exp then
    let mantissa := match d.digits with
      | [] => ['0']
      | [c] => [c]
      | c :: rest => c :: '.' :: rest
    let mag := (toString exp.natAbs)
    mantissa ++ ['e', if exp < 0 then '-' else '+'] ++ (padLeft 2 '0' mag).toList
  else if d.point ≤ 0 then
    ['0', '.'] ++ List.replicate (-d.point).toNat '0' ++ d.digits
  else
    let n := d.point.toNat
    if d.digits.length ≤ n then d.digits ++ List.replicate (n - d.digits.length) '0'
    else d.digits.take n ++ '.' :: d.digits.drop n

/-- The general text of a pattern: shortest digits, or the name of a special value. -/
def formatGeneral (f : BinaryFormat) (bits : Nat) : String :=
  match decodeBits f bits with
  | .nan .. => "NaN"
  | .infinite n => if n then "-Inf" else "+Inf"
  | .finite n m e =>
    let body := if m = 0 then ['0'] else layoutGeneral (shortestDigits f m e)
    String.ofList (if n then '-' :: body else body)

def formatDouble (bits : UInt64) : String := formatGeneral .double bits.toNat
def formatSingle (bits : UInt32) : String := formatGeneral .single bits.toNat

def formatFixed (places a b : Nat) : String :=
  let q := divNearest (a * Nat.pow 10 places) b
  let text := padLeft (places + 1) '0' (toString q)
  let cut := text.length - places
  let cs := text.toList
  if places = 0 then text else String.ofList (cs.take cut ++ '.' :: cs.drop cut)

def formatDoubleFixed (places : Nat) (bits : UInt64) : String :=
  match decodeBits .double bits.toNat with
  | .nan .. => "NaN"
  | .infinite n => if n then "-Inf" else "+Inf"
  | .finite n m e =>
    let body := if 0 ≤ e then formatFixed places (m * Nat.pow 2 e.toNat) 1
      else formatFixed places m (Nat.pow 2 (-e).toNat)
    if n then "-" ++ body else body

structure Mantissa where
  value : Nat
  places : Nat
  sawPoint : Bool
  sawDigit : Bool

def readMantissa (base : Nat) : Mantissa → List Char → Mantissa × List Char
  | m, [] => (m, [])
  | m, c :: cs =>
    if c = '_' then readMantissa base m cs
    else if c = '.' then
      if m.sawPoint then (m, c :: cs) else readMantissa base { m with sawPoint := true } cs
    else
      let d? := if base = 16 then hexValue? c else if '0' ≤ c ∧ c ≤ '9' then some (c.toNat - '0'.toNat) else none
      match d? with
      | none => (m, c :: cs)
      | some d => readMantissa base
          { m with value := m.value * base + d, places := if m.sawPoint then m.places + 1 else m.places,
                   sawDigit := true } cs

def readExponent : Nat → List Char → Nat × List Char
  | e, [] => (e, [])
  | e, c :: cs =>
    if c = '_' then readExponent e cs
    else if '0' ≤ c ∧ c ≤ '9' then
      readExponent (if e < 10000 then e * 10 + (c.toNat - '0'.toNat) else e) cs
    else (e, c :: cs)

def readRatio (cs : List Char) : Option (Bool × Nat × Nat × List Char) :=
  let (neg, body) := splitSign cs
  let (base, digits) := match body with
    | '0' :: x :: d :: rest => if x = 'x' ∨ x = 'X' then (16, d :: rest) else (10, body)
    | _ => (10, body)
  let (m, rest) := readMantissa base ⟨0, 0, false, false⟩ digits
  if !m.sawDigit then none
  else
    let mark := if base = 16 then 'p' else 'e'
    let parsed : Option (Int × List Char) := match rest with
      | c :: more =>
        if c.toLower = mark then
          let (eneg, ds) := splitSign more
          match ds with
          | d :: _ =>
            if '0' ≤ d ∧ d ≤ '9' then
              let (e, after) := readExponent 0 ds
              some (if eneg then -(e : Int) else e, after)
            else none
          | [] => none
        else if base = 16 then none else some (0, rest)
      | [] => if base = 16 then none else some (0, [])
    match parsed with
    | none => none
    | some (e, after) =>
      if m.value = 0 then some (neg, 0, 1, after)
      else if base = 16 then
        let e2 := e - 4 * (m.places : Int)
        if 0 ≤ e2 then some (neg, m.value * Nat.pow 2 e2.toNat, 1, after)
        else some (neg, m.value, Nat.pow 2 (-e2).toNat, after)
      else
        let e10 := e - (m.places : Int)
        if 0 ≤ e10 then some (neg, m.value * Nat.pow 10 e10.toNat, 1, after)
        else some (neg, m.value, Nat.pow 10 (-e10).toNat, after)

def specialLiteral (f : BinaryFormat) (s : String) : Option Nat :=
  let cs := s.toList.map Char.toLower
  let (neg, body) := splitSign cs
  if body = "inf".toList ∨ body = "infinity".toList then some (withSign f neg f.infinityBits)
  else if cs = "nan".toList then some (f.infinityBits + f.quietBit + (if f.precision = 53 then 1 else 0))
  else none

def parseFloat (f : BinaryFormat) (s : String) : Except LiteralError Nat :=
  match specialLiteral f s with
  | some bits => .ok bits
  | none => match readRatio s.toList with
    | some (neg, a, b, []) =>
      if s.toList.contains '_' && !underscoresOk s.toList then .error ⟨"ParseFloat", s, .malformed⟩
      else
        let bits := roundRatio f a b
        if bits = f.infinityBits then .error ⟨"ParseFloat", s, .outOfRange⟩
        else .ok (withSign f neg bits)
    | _ => .error ⟨"ParseFloat", s, .malformed⟩

end CilSsa.Number
