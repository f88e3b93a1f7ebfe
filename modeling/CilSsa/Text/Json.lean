import CilSsa.Text.Hex

namespace CilSsa.Text

def jsonChar (c : Char) : List Char :=
  let escaped := '\\' :: 'u' :: (hexPadded 4 c.toNat).toList
  match c.toNat with
  | 0x22 => ['\\', '"']
  | 0x5C => ['\\', '\\']
  | 8 => ['\\', 'b']
  | 9 => ['\\', 't']
  | 10 => ['\\', 'n']
  | 12 => ['\\', 'f']
  | 13 => ['\\', 'r']
  | 0x26 | 0x3C | 0x3E | 0x2028 | 0x2029 => escaped
  | n => if n < 32 then escaped else [c]

def jsonString (s : String) : String := String.ofList ('"' :: s.toList.flatMap jsonChar ++ ['"'])

end CilSsa.Text
