import CilSsa.Codec.Data
import CilSsa.Number.Word
import CilSsa.Text.Utf8

namespace CilSsa.Codec.Cbor

open CilSsa.Codec CilSsa.Number CilSsa.Text

def head (major : UInt8) (n : Nat) : Bytes :=
  let b := major * 32
  if n < 24 then [b + n.toUInt8]
  else if n < 256 then (b + 24) :: bigEndian 1 n
  else if n < 65536 then (b + 25) :: bigEndian 2 n
  else if n < 4294967296 then (b + 26) :: bigEndian 4 n
  else (b + 27) :: bigEndian 8 n

def encodeInt (n : Int) : Bytes := if 0 ≤ n then head 0 n.toNat else head 1 (-1 - n).toNat

def encodeText (s : String) : Bytes := head 3 (utf8Bytes s).length ++ utf8Bytes s

def keyLe (a b : Bytes) : Bool :=
  a.length < b.length || (a.length == b.length && (compareLex a b).isLE)
where
  compareLex : Bytes → Bytes → Ordering
    | [], [] => .eq
    | [], _ :: _ => .lt
    | _ :: _, [] => .gt
    | x :: xs, y :: ys => (compare x y).then (compareLex xs ys)

mutual

def encode : Data → Bytes
  | .null | .other => [0xF6]
  | .bool b => [if b then 0xF5 else 0xF4]
  | .int n => encodeInt n
  | .text s => encodeText s
  | .bytes bs => head 2 bs.length ++ bs
  | .list xs => head 4 xs.length ++ encodeList xs
  | .record es =>
    let sorted := (encodeEntries es).mergeSort fun a b ↦ keyLe a.1 b.1
    head 5 es.length ++ sorted.flatMap fun (k, d) ↦ k ++ d

def encodeList : List Data → Bytes
  | [] => []
  | x :: xs => encode x ++ encodeList xs

def encodeEntries : List (String × Data) → List (Bytes × Bytes)
  | [] => []
  | (k, d) :: rest => (encodeText k, encode d) :: encodeEntries rest

end

inductive Argument
  | value (n : Nat)
  | untilBreak

def Argument.pred : Argument → Argument
  | .value n => .value (n - 1)
  | .untilBreak => .untilBreak

def parseHead : Bytes → Option (Nat × Nat × Argument × Bytes)
  | [] => none
  | c :: rest =>
    let major := c.toNat / 32
    let low := c.toNat % 32
    let wide (k : Nat) :=
      if (rest.take k).length = k then some (major, low, .value (ofBigEndian (rest.take k)), rest.drop k) else none
    if low < 24 then some (major, low, .value low, rest)
    else match low with
      | 24 => wide 1
      | 25 => wide 2
      | 26 => wide 4
      | 27 => wide 8
      | 31 => some (major, low, .untilBreak, rest)
      | _ => none

/-- How deep items may be nested, and how many items a list or record may hold. -/
def maxDepth : Nat := 32
def maxCount : Nat := 131072

/-- Items. A text that is not well formed has none of its characters, and a mark is one of the numbers
that stand for nothing in particular. -/
inductive Item
  | null
  | bool (b : Bool)
  | int (n : Int)
  | mark (n : Nat)
  | float
  | bytes (bs : Bytes)
  | text (s : Option String)
  | list (items : List Item)
  | record (entries : List (Item × Item))
  | tagged (tag : Nat) (content : Item)

instance : Inhabited Item := ⟨.null⟩

/-- The chunks of a string whose end is marked; each is of the same major type and has its length. -/
def chunks (major : Nat) : Nat → Bytes → Option (List Bytes × Bytes)
  | 0, _ => none
  | _ + 1, 0xFF :: rest => some ([], rest)
  | fuel + 1, bs => do
    let (m, _, arg, rest) ← parseHead bs
    match arg with
    | .untilBreak => none
    | .value n =>
      if m ≠ major then none
      let (front, rest) ← take? n rest
      let (more, rest) ← chunks major fuel rest
      return (front :: more, rest)

def textOfChunks? (parts : List Bytes) : Option String := (parts.mapM textOfBytes?).map String.join

def simple (low : Nat) (arg : Argument) : Option Item :=
  match low, arg with
  | _, .untilBreak => none
  | 20, _ => some (.bool false)
  | 21, _ => some (.bool true)
  | 22, _ | 23, _ => some .null
  | 24, .value n => if n < 32 then none else some (.mark n)
  | 25, _ | 26, _ | 27, _ => some .float
  | n, _ => some (.mark n)

def startsTag : Bytes → Bool
  | c :: _ => c.toNat / 32 = 6
  | [] => false

mutual

def item (depth : Nat) : Nat → Bytes → Option (Item × Bytes)
  | 0, _ => none
  | fuel + 1, bs => do
    let (major, low, arg, rest) ← parseHead bs
    match major, arg with
    | 0, .value n => return (.int n, rest)
    | 1, .value n => return (.int (-1 - n), rest)
    | 2, .value n =>
      let (front, rest) ← take? n rest
      return (.bytes front, rest)
    | 2, .untilBreak =>
      let (parts, rest) ← chunks 2 fuel rest
      return (.bytes parts.flatten, rest)
    | 3, .value n =>
      let (front, rest) ← take? n rest
      return (.text (textOfBytes? front), rest)
    | 3, .untilBreak =>
      let (parts, rest) ← chunks 3 fuel rest
      return (.text (textOfChunks? parts), rest)
    | 4, arg =>
      if depth = 0 then none
      let (items, rest) ← itemsFrom (depth - 1) fuel arg rest
      if items.length > maxCount then none
      return (.list items, rest)
    | 5, arg =>
      if depth = 0 then none
      let (pairs, rest) ← pairsFrom (depth - 1) fuel arg rest
      if pairs.length > maxCount then none
      return (.record pairs, rest)
    | 6, .value n =>
      -- only a tag on a tag is nested
      let deeper := startsTag rest
      if deeper && depth = 0 then none
      let (d, rest) ← item (if deeper then depth - 1 else depth) fuel rest
      return (.tagged n d, rest)
    | 7, arg => return (← simple low arg, rest)
    | _, _ => none

def itemsFrom (depth : Nat) : Nat → Argument → Bytes → Option (List Item × Bytes)
  | _, .value 0, bs => some ([], bs)
  | _, .untilBreak, 0xFF :: bs => some ([], bs)
  | 0, _, _ => none
  | fuel + 1, arg, bs => do
    let (d, rest) ← item depth fuel bs
    let (ds, rest) ← itemsFrom depth fuel (arg.pred) rest
    return (d :: ds, rest)

def pairsFrom (depth : Nat) : Nat → Argument → Bytes → Option (List (Item × Item) × Bytes)
  | _, .value 0, bs => some ([], bs)
  | _, .untilBreak, 0xFF :: bs => some ([], bs)
  | 0, _, _ => none
  | fuel + 1, arg, bs => do
    let (k, rest) ← item depth fuel bs
    let (d, rest) ← item depth fuel rest
    let (more, rest) ← pairsFrom depth fuel (arg.pred) rest
    return ((k, d) :: more, rest)

end

def decode? (bs : Bytes) : Option Item := do
  match ← item maxDepth (2 * bs.length + 2) bs with
  | (d, []) => return d
  | _ => none

def sameKey (a b : String) : Bool := a.toList.map Char.toLower == b.toList.map Char.toLower

/-- Whether a tag may stand on an item: times are texts or numbers, and large numbers are byte
strings. -/
def admits (tag : Nat) (content : Item) : Bool :=
  match tag, content with
  | 0, .text _ => true
  | 0, _ => false
  | 1, .int _ | 1, .float => true
  | 1, _ => false
  | 2, .bytes _ | 3, .bytes _ => true
  | 2, _ | 3, _ => false
  | _, _ => true

/-- What an item is under its tags: a large number is its bytes, and other tags change nothing. -/
def untagged : Item → Option Item
  | .tagged t d =>
    if !admits t d then none
    else match t, d with
      | 2, .bytes bs => some (.int (ofBigEndian bs))
      | 3, .bytes bs => some (.int (-1 - ofBigEndian bs))
      | _, d => untagged d
  | d => some d

/-- Gives the entries of a record to fields. The first entry that fits a field counts; an exact match
goes before one up to case. Keys that are numbers fit no field, and others than texts are refused. -/
def assign (keys : List String) : List (Item × Item) → Option (List (String × Item))
  | [] => some []
  | (k, d) :: rest => match k with
    | .int n => if -9223372036854775808 ≤ n then assign keys rest else none
    | .text (some s) => match (keys.find? (· == s)).or (keys.find? (sameKey · s)) with
      | some key => (assign (keys.erase key) rest).map ((key, d) :: ·)
      | none => assign keys rest
    | _ => none

def reading : Reading Option Item where
  text d := (untagged d).bind fun
    | .text s => s
    | .null => some ""
    | _ => none
  int d := (untagged d).bind fun
    | .int n => if wrapInt n = n then some n else none
    | .mark n => some n
    | .null => some 0
    | _ => none
  bool d := (untagged d).bind fun
    | .bool b => some b
    | .null => some false
    | _ => none
  list d := (untagged d).bind fun
    | .list xs => some (some xs)
    | .null => some none
    | _ => none
  fields keys d := (untagged d).bind fun
    | .record es => (assign keys es).map some
    | .null => some none
    | _ => none

def library : Library := ⟨Item, encode, decode?, reading⟩

end CilSsa.Codec.Cbor
