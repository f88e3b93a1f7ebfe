import CilSsa.Text.Hex

namespace CilSsa.Text

/-- White space: the ASCII blanks and line ends, and the wide, thin and no-break spaces. -/
def isBlank (c : Char) : Bool :=
  let n := c.toNat
  (9 ≤ n && n ≤ 13) || n == 0x20 || n == 0x85 || n == 0xA0 || n == 0x1680 ||
  (0x2000 ≤ n && n ≤ 0x200A) || n == 0x2028 || n == 0x2029 || n == 0x202F || n == 0x205F ||
  n == 0x3000

def trimLeftChars (cs : List Char) : List Char := cs.dropWhile isBlank

def trimChars (cs : List Char) : List Char :=
  (trimLeftChars (trimLeftChars cs).reverse).reverse

def trim (s : String) : String := String.ofList (trimChars s.toList)

def fields (s : String) : List String :=
  ((s.toList.splitBy fun a b ↦ isBlank a == isBlank b).filter
    fun run ↦ run.any fun c ↦ !isBlank c).map String.ofList

def cutChars (sep : List Char) : List Char → Option (List Char × List Char)
  | [] => if sep = [] then some ([], []) else none
  | c :: cs =>
    if sep.isPrefixOf (c :: cs) then some ([], (c :: cs).drop sep.length)
    else (cutChars sep cs).map fun (a, b) ↦ (c :: a, b)

def cut (s sep : String) : Option (String × String) :=
  (cutChars sep.toList s.toList).map fun (a, b) ↦ (String.ofList a, String.ofList b)

def after? (s lead : String) : Option String :=
  if lead.toList.isPrefixOf s.toList then
    some (String.ofList (s.toList.drop lead.length))
  else none

def before? (s tail : String) : Option String :=
  if tail.toList.isSuffixOf s.toList then
    some (String.ofList (s.toList.take (s.length - tail.length)))
  else none

def splitAt (s : String) (sep : Char) : List String :=
  (s.toList.splitOn sep).map String.ofList

/-- Lines without their ends; a last line that is empty does not count, and one carriage return
before a line end is dropped. Each is given as it stands in the text. -/
def rawLines (s : String) : List (List Char) :=
  match (s.toList.splitOn '\n').reverse with
  | [] :: rest => rest.reverse
  | ls => ls.reverse

def chomp (line : List Char) : List Char :=
  match line.reverse with
  | '\r' :: rest => rest.reverse
  | _ => line

def byteLength (cs : List Char) : Nat := cs.foldr (fun c n ↦ c.utf8Size + n) 0

end CilSsa.Text
