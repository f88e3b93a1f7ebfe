namespace CilSsa.Text

abbrev Bytes := List UInt8

def padLeft (width : Nat) (fill : Char) (s : String) : String :=
  String.ofList (List.replicate (width - s.length) fill) ++ s

def padRight (width : Nat) (fill : Char) (s : String) : String :=
  s ++ String.ofList (List.replicate (width - s.length) fill)

def hexDigits (n : Nat) : String := String.ofList (Nat.toDigits 16 n)

def hexPadded (width n : Nat) : String := padLeft width '0' (hexDigits n)

def hexPaddedUpper (width n : Nat) : String :=
  padLeft width '0' (String.ofList ((Nat.toDigits 16 n).map Char.toUpper))

/-- As `hexPadded`, with the sign of a negative number taking one place of the width. -/
def hexPaddedInt (width : Nat) (n : Int) : String :=
  if n < 0 then "-" ++ hexPadded (width - 1) n.natAbs else hexPadded width n.natAbs

def hexWord (w : UInt64) : String := "0x" ++ hexPadded 16 w.toNat

def hexOfByte (b : UInt8) : List Char :=
  [Nat.digitChar (b.toNat / 16), Nat.digitChar (b.toNat % 16)]

def hexOfBytes (bs : Bytes) : String := String.ofList (bs.flatMap hexOfByte)

def hexValue? (c : Char) : Option Nat :=
  if '0' ≤ c ∧ c ≤ '9' then some (c.toNat - '0'.toNat)
  else if 'a' ≤ c ∧ c ≤ 'f' then some (c.toNat - 'a'.toNat + 10)
  else if 'A' ≤ c ∧ c ≤ 'F' then some (c.toNat - 'A'.toNat + 10)
  else none

inductive HexError
  | badByte (b : UInt8)
  | oddLength
deriving DecidableEq

def bytesOfHexBytes : Bytes → Except HexError Bytes
  | [] => .ok []
  | [a] => match hexValue? (Char.ofNat a.toNat) with
    | none => .error (.badByte a)
    | some _ => .error .oddLength
  | a :: b :: rest =>
    match hexValue? (Char.ofNat a.toNat), hexValue? (Char.ofNat b.toNat) with
    | none, _ => .error (.badByte a)
    | some _, none => .error (.badByte b)
    | some x, some y => do
      let tail ← bytesOfHexBytes rest
      return (x * 16 + y).toUInt8 :: tail

def bytesOfHex (s : String) : Except HexError Bytes := bytesOfHexBytes s.toUTF8.toList

end CilSsa.Text
