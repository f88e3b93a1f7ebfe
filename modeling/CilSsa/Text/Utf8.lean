import CilSsa.Text.Hex

namespace CilSsa.Text

def continuation? (b : UInt8) : Option Nat := if 0x80 ≤ b && b < 0xC0 then some (b.toNat - 0x80) else none

def charFrom? (least n : Nat) : Option Char :=
  if least ≤ n ∧ n < 0x110000 ∧ ¬(0xD800 ≤ n ∧ n < 0xE000) then some (Char.ofNat n) else none

/-- The character that starts with byte `a`, and how many of the bytes behind it belong to it. -/
def firstChar (a : UInt8) (rest : Bytes) : Option (Char × Nat) := do
  if a < 0x80 then return (Char.ofNat a.toNat, 0)
  let b ← continuation? (← rest[0]?)
  if 0xC0 ≤ a ∧ a < 0xE0 then return (← charFrom? 0x80 ((a.toNat - 0xC0) * 64 + b), 1)
  let c ← continuation? (← rest[1]?)
  if 0xE0 ≤ a ∧ a < 0xF0 then return (← charFrom? 0x800 (((a.toNat - 0xE0) * 64 + b) * 64 + c), 2)
  let d ← continuation? (← rest[2]?)
  if 0xF0 ≤ a then
    return (← charFrom? 0x10000 ((((a.toNat - 0xF0) * 64 + b) * 64 + c) * 64 + d), 3)
  none

/-- The characters of bytes; a byte that belongs to none becomes a replacement character. -/
def charsOfBytes : Bytes → List Char
  | [] => []
  | a :: t =>
    let (c, n) := (firstChar a t).getD (Char.ofNat 0xFFFD, 0)
    c :: charsOfBytes (t.drop n)
termination_by bs => bs.length
decreasing_by simp only [List.length_drop, List.length_cons]; omega

def utf8Bytes (s : String) : Bytes := s.toUTF8.toList

def textOfBytes? (bs : Bytes) : Option String := String.fromUTF8? ⟨bs.toArray⟩

def textOfBytes (bs : Bytes) : String := (textOfBytes? bs).getD (String.ofList (charsOfBytes bs))

end CilSsa.Text
