import CilSsa.Number.Word

namespace CilSsa.Number

/-- A binary interchange format: significand width with the leading one, and exponent width. -/
structure BinaryFormat where
  precision : Nat
  exponentBits : Nat

namespace BinaryFormat

def single : BinaryFormat := ⟨24, 8⟩
def double : BinaryFormat := ⟨53, 11⟩

variable (f : BinaryFormat)

def fractionBits : Nat := f.precision - 1
def bias : Nat := Nat.pow 2 (f.exponentBits - 1) - 1
def minExponent : Int := 1 - (f.bias : Int) - (f.fractionBits : Int)
def width : Nat := f.precision + f.exponentBits
def signBit : Nat := Nat.pow 2 (f.width - 1)
def infinityBits : Nat := (Nat.pow 2 f.exponentBits - 1) * Nat.pow 2 f.fractionBits
def quietBit : Nat := Nat.pow 2 (f.fractionBits - 1)

end BinaryFormat

/-- What a pattern stands for; a finite number is `mant * 2 ^ exp` with a sign. -/
inductive Datum
  | nan (negative : Bool) (payload : Nat)
  | infinite (negative : Bool)
  | finite (negative : Bool) (mant : Nat) (exp : Int)
deriving DecidableEq

def Datum.isNaN : Datum → Bool
  | .nan .. => true
  | _ => false

def Datum.negative : Datum → Bool
  | .nan n _ => n
  | .infinite n => n
  | .finite n .. => n

def Datum.negate : Datum → Datum
  | .nan n p => .nan n p
  | .infinite n => .infinite (!n)
  | .finite n m e => .finite (!n) m e

def withSign (f : BinaryFormat) (negative : Bool) (bits : Nat) : Nat :=
  if negative then f.signBit + bits else bits

def decodeBits (f : BinaryFormat) (bits : Nat) : Datum :=
  let negative := bits / f.signBit % 2 = 1
  let e := bits / Nat.pow 2 f.fractionBits % Nat.pow 2 f.exponentBits
  let frac := bits % Nat.pow 2 f.fractionBits
  if e = Nat.pow 2 f.exponentBits - 1 then
    if frac = 0 then .infinite negative else .nan negative frac
  else if e = 0 then .finite negative frac f.minExponent
  else .finite negative (Nat.pow 2 f.fractionBits + frac) (f.minExponent + (e : Int) - 1)

def divNearest (a b : Nat) : Nat :=
  let q := a / b
  let r := a % b
  if 2 * r < b then q
  else if b < 2 * r then q + 1
  else if q % 2 = 0 then q else q + 1

def scaleRatio (a b : Nat) (e : Int) : Nat × Nat :=
  if 0 ≤ e then (a, b * Nat.pow 2 e.toNat) else (a * Nat.pow 2 (-e).toNat, b)

def floorLog2 (a b : Nat) : Int :=
  let k := (a.log2 : Int) - (b.log2 : Int)
  let (x, y) := scaleRatio a b k
  if y ≤ x then k else k - 1

/-- The magnitude pattern nearest to `a / b`; too large a value gives infinity. -/
def roundRatio (f : BinaryFormat) (a b : Nat) : Nat :=
  if a = 0 then 0
  else
    let e := max (floorLog2 a b - f.fractionBits) f.minExponent
    let (x, y) := scaleRatio a b e
    let q := divNearest x y
    let bits :=
      if q < Nat.pow 2 f.fractionBits then q
      else ((e - f.minExponent).toNat + 1) * Nat.pow 2 f.fractionBits + (q - Nat.pow 2 f.fractionBits)
    min bits f.infinityBits

/-- The pattern nearest to a datum. A quieted payload keeps its leading bits. -/
def encodeDatum (f : BinaryFormat) : Datum → Nat
  | .nan n p => withSign f n (f.infinityBits + p)
  | .infinite n => withSign f n f.infinityBits
  | .finite n m e =>
    withSign f n (if 0 ≤ e then roundRatio f (m * Nat.pow 2 e.toNat) 1
      else roundRatio f m (Nat.pow 2 (-e).toNat))

/-- The pattern of one format carried over to another. A NaN becomes quiet. -/
def convertBits (src dst : BinaryFormat) (bits : Nat) : Nat :=
  match decodeBits src bits with
  | .nan n p =>
    let moved := if src.fractionBits ≤ dst.fractionBits
      then p * Nat.pow 2 (dst.fractionBits - src.fractionBits)
      else p / Nat.pow 2 (src.fractionBits - dst.fractionBits)
    encodeDatum dst (.nan n (moved % dst.quietBit + dst.quietBit))
  | d => encodeDatum dst d

def widen (bits : UInt32) : UInt64 :=
  UInt64.ofNat (convertBits .single .double bits.toNat)

def narrow (bits : UInt64) : UInt32 :=
  UInt32.ofNat (convertBits .double .single bits.toNat)

/-- The first NaN operand made quiet, or the default NaN of an invalid operation. -/
def invalidResult (f : BinaryFormat) (a b : Datum) : Datum :=
  match a, b with
  | .nan n p, _ => .nan n (p % f.quietBit + f.quietBit)
  | _, .nan n p => .nan n (p % f.quietBit + f.quietBit)
  | _, _ => .nan true f.quietBit

def signedMant (negative : Bool) (m : Nat) : Int := if negative then -(m : Int) else m

def addDatum (f : BinaryFormat) (a b : Datum) : Datum :=
  match a, b with
  | .nan .., _ => invalidResult f a b
  | _, .nan .. => invalidResult f a b
  | .infinite x, .infinite y => if x = y then .infinite x else invalidResult f a b
  | .infinite x, .finite .. => .infinite x
  | .finite .., .infinite y => .infinite y
  | .finite n m e, .finite n' m' e' =>
    let low := min e e'
    let sum := signedMant n m * Nat.pow 2 (e - low).toNat + signedMant n' m' * Nat.pow 2 (e' - low).toNat
    if sum = 0 then .finite (n && n') 0 low
    else .finite (sum < 0) sum.natAbs low

def mulDatum (f : BinaryFormat) (a b : Datum) : Datum :=
  match a, b with
  | .nan .., _ => invalidResult f a b
  | _, .nan .. => invalidResult f a b
  | .infinite x, .infinite y => .infinite (x != y)
  | .infinite x, .finite y m _ => if m = 0 then invalidResult f a b else .infinite (x != y)
  | .finite x m _, .infinite y => if m = 0 then invalidResult f a b else .infinite (x != y)
  | .finite n m e, .finite n' m' e' => .finite (n != n') (m * m') (e + e')

/-- The order of two data; none when either is a NaN. Both zeros are equal. -/
def compareData (a b : Datum) : Option Ordering :=
  match a, b with
  | .nan .., _ => none
  | _, .nan .. => none
  | .infinite x, .infinite y => some (if x = y then .eq else if x then .lt else .gt)
  | .infinite x, .finite .. => some (if x then .lt else .gt)
  | .finite .., .infinite y => some (if y then .gt else .lt)
  | .finite n m e, .finite n' m' e' =>
    let low := min e e'
    some (compare (signedMant n m * Nat.pow 2 (e - low).toNat) (signedMant n' m' * Nat.pow 2 (e' - low).toNat))

def addDouble (a b : UInt64) : UInt64 :=
  UInt64.ofNat (encodeDatum .double (addDatum .double (decodeBits .double a.toNat) (decodeBits .double b.toNat)))

def subDouble (a b : UInt64) : UInt64 :=
  UInt64.ofNat (encodeDatum .double
    (addDatum .double (decodeBits .double a.toNat) (decodeBits .double b.toNat).negate))

def mulDouble (a b : UInt64) : UInt64 :=
  UInt64.ofNat (encodeDatum .double (mulDatum .double (decodeBits .double a.toNat) (decodeBits .double b.toNat)))

def compareDouble (a b : UInt64) : Option Ordering :=
  compareData (decodeBits .double a.toNat) (decodeBits .double b.toNat)

def isNaNDouble (a : UInt64) : Bool := (decodeBits .double a.toNat).isNaN

def doubleOfInt (n : Int) : UInt64 :=
  UInt64.ofNat (encodeDatum .double (.finite (n < 0) n.natAbs 0))

def truncDouble? (bits : UInt64) : Option Int :=
  match decodeBits .double bits.toNat with
  | .finite n m e =>
    let mag := if 0 ≤ e then m * Nat.pow 2 e.toNat else m / Nat.pow 2 (-e).toNat
    some (if n then -(mag : Int) else mag)
  | _ => none

/-- The signed integer pattern of a double's integer part; out of range, the least integer. -/
def doubleToSigned (bits : UInt64) : UInt64 :=
  match truncDouble? bits with
  | some n => if -9223372036854775808 ≤ n ∧ n < 9223372036854775808 then wordOfInt n
    else 0x8000000000000000
  | none => 0x8000000000000000

def doubleToUnsigned (bits : UInt64) : UInt64 :=
  match truncDouble? bits with
  | some n => if -9223372036854775808 ≤ n ∧ n < 18446744073709551616 then wordOfInt n
    else 0x8000000000000000
  | none => 0x8000000000000000

end CilSsa.Number
