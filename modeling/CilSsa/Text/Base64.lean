import CilSsa.Text.Hex

namespace CilSsa.Text

def base64Value? (c : Char) : Option Nat :=
  if 'A' ≤ c ∧ c ≤ 'Z' then some (c.toNat - 'A'.toNat)
  else if 'a' ≤ c ∧ c ≤ 'z' then some (c.toNat - 'a'.toNat + 26)
  else if '0' ≤ c ∧ c ≤ '9' then some (c.toNat - '0'.toNat + 52)
  else if c = '+' then some 62
  else if c = '/' then some 63
  else none

def bytesOfSixes : List Nat → Bytes
  | a :: b :: c :: d :: rest =>
    let n := ((a * 64 + b) * 64 + c) * 64 + d
    (n / 65536).toUInt8 :: (n / 256).toUInt8 :: n.toUInt8 :: bytesOfSixes rest
  | [a, b, c] =>
    let n := (a * 64 + b) * 64 + c
    [(n / 1024).toUInt8, (n / 4).toUInt8]
  | [a, b] => [((a * 64 + b) / 16).toUInt8]
  | _ => []

/-- The bytes of a text whose groups of four characters are complete; the last one may be filled up by
one or two equals signs. Ends of lines count for nothing. -/
def bytesOfBase64? (s : String) : Option Bytes := do
  let cs := s.toList.filter fun c ↦ c ≠ '\n' && c ≠ '\r'
  let fill := (cs.reverse.takeWhile (· = '=')).length
  if 2 < fill || cs.length % 4 ≠ 0 then none
  return bytesOfSixes (← (cs.take (cs.length - fill)).mapM base64Value?)

end CilSsa.Text
