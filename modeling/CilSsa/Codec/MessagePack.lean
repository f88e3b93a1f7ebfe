import CilSsa.Codec.Data
import CilSsa.Number.Word
import CilSsa.Text.Utf8

namespace CilSsa.Codec.MessagePack

open CilSsa.Codec CilSsa.Number CilSsa.Text

def head (code : UInt8) (k n : Nat) : Bytes := code :: bigEndian k n

/-- The head of a text, a list or a record: short ones have their size in the head byte. -/
def sizedHead (short : UInt8) (limit : Nat) (wide : List (UInt8 × Nat)) (n : Nat) : Bytes :=
  if n < limit then [short + n.toUInt8]
  else match wide.find? fun (_, k) ↦ n < Nat.pow 256 k with
    | some (code, k) => head code k n
    | none => head 0xC6 4 n

def textHead (n : Nat) : Bytes := sizedHead 0xA0 32 [(0xD9, 1), (0xDA, 2), (0xDB, 4)] n
def bytesHead (n : Nat) : Bytes := sizedHead 0 0 [(0xC4, 1), (0xC5, 2), (0xC6, 4)] n
def listHead (n : Nat) : Bytes := sizedHead 0x90 16 [(0xDC, 2), (0xDD, 4)] n
def recordHead (n : Nat) : Bytes := sizedHead 0x80 16 [(0xDE, 2), (0xDF, 4)] n

/-- The shortest form of an integer; those not below zero are written without a sign. -/
def encodeInt (n : Int) : Bytes :=
  if 0 ≤ n then
    let m := n.toNat
    if m < 128 then [m.toUInt8]
    else if m < 256 then head 0xCC 1 m
    else if m < 65536 then head 0xCD 2 m
    else if m < 4294967296 then head 0xCE 4 m
    else head 0xCF 8 m
  else
    let m := (n % 18446744073709551616).toNat
    if -32 ≤ n then [m.toUInt8]
    else if -128 ≤ n then head 0xD0 1 m
    else if -32768 ≤ n then head 0xD1 2 m
    else if -2147483648 ≤ n then head 0xD2 4 m
    else head 0xD3 8 m

def encodeText (s : String) : Bytes := textHead (utf8Bytes s).length ++ utf8Bytes s

mutual

def encode : Data → Bytes
  | .null | .other => [0xC0]
  | .bool b => [if b then 0xC3 else 0xC2]
  | .int n => encodeInt n
  | .text s => encodeText s
  | .bytes bs => bytesHead bs.length ++ bs
  | .list xs => listHead xs.length ++ encodeList xs
  | .record es => recordHead es.length ++ encodeEntries es

def encodeList : List Data → Bytes
  | [] => []
  | x :: xs => encode x ++ encodeList xs

def encodeEntries : List (String × Data) → Bytes
  | [] => []
  | (k, d) :: rest => encodeText k ++ encode d ++ encodeEntries rest

end

def number? (k : Nat) (bs : Bytes) : Option (Nat × Bytes) := do
  let (front, rest) ← take? k bs
  return (ofBigEndian front, rest)

inductive Head
  | done (d : Data)
  | text (size : Nat)
  | bytes (size : Nat)
  | skip (size : Nat)
  | list (count : Nat)
  | record (count : Nat)

def parseHead : Bytes → Option (Head × Bytes)
  | [] => none
  | c :: rest =>
    let sized (k : Nat) (f : Nat → Head) := (number? k rest).map fun (n, rest) ↦ (f n, rest)
    let signed (k : Nat) := sized k fun n ↦ .done (.int (signedOf (8 * k) n))
    if c < 0x80 then some (.done (.int c.toNat), rest)
    else if c < 0x90 then some (.record (c.toNat - 0x80), rest)
    else if c < 0xA0 then some (.list (c.toNat - 0x90), rest)
    else if c < 0xC0 then some (.text (c.toNat - 0xA0), rest)
    else if 0xE0 ≤ c then some (.done (.int ((c.toNat : Int) - 256)), rest)
    else match c with
      | 0xC0 => some (.done .null, rest)
      | 0xC2 => some (.done (.bool false), rest)
      | 0xC3 => some (.done (.bool true), rest)
      | 0xC4 => sized 1 .bytes
      | 0xC5 => sized 2 .bytes
      | 0xC6 => sized 4 .bytes
      | 0xC7 => sized 1 fun n ↦ .skip (n + 1)
      | 0xC8 => sized 2 fun n ↦ .skip (n + 1)
      | 0xC9 => sized 4 fun n ↦ .skip (n + 1)
      | 0xCA => some (.skip 4, rest)
      | 0xCB => some (.skip 8, rest)
      | 0xCC => sized 1 fun n ↦ .done (.int n)
      | 0xCD => sized 2 fun n ↦ .done (.int n)
      | 0xCE => sized 4 fun n ↦ .done (.int n)
      | 0xCF => sized 8 fun n ↦ .done (.int n)
      | 0xD0 => signed 1
      | 0xD1 => signed 2
      | 0xD2 => signed 4
      | 0xD3 => signed 8
      | 0xD4 => some (.skip 2, rest)
      | 0xD5 => some (.skip 3, rest)
      | 0xD6 => some (.skip 5, rest)
      | 0xD7 => some (.skip 9, rest)
      | 0xD8 => some (.skip 17, rest)
      | 0xD9 => sized 1 .text
      | 0xDA => sized 2 .text
      | 0xDB => sized 4 .text
      | 0xDC => sized 2 .list
      | 0xDD => sized 4 .list
      | 0xDE => sized 2 .record
      | 0xDF => sized 4 .record
      | _ => none

def keyText? : Data → Option String
  | .text s => some s
  | .bytes bs => some (textOfBytes bs)
  | .null => some ""
  | _ => none

def recordOf (pairs : List (Data × Data)) : Data :=
  match pairs.mapM fun p ↦ (keyText? p.1).map (·, p.2) with
  | some entries => .record entries
  | none => .other

mutual

def item : Nat → Bytes → Option (Data × Bytes)
  | 0, _ => none
  | fuel + 1, bs => do
    match ← parseHead bs with
    | (.done d, rest) => return (d, rest)
    | (.text n, rest) =>
      let (front, rest) ← take? n rest
      return (.text (textOfBytes front), rest)
    | (.bytes n, rest) =>
      let (front, rest) ← take? n rest
      return (.bytes front, rest)
    | (.skip n, rest) =>
      let (_, rest) ← take? n rest
      return (.other, rest)
    | (.list n, rest) =>
      let (items, rest) ← itemsFrom fuel n rest
      return (.list items, rest)
    | (.record n, rest) =>
      let (pairs, rest) ← pairsFrom fuel n rest
      return (recordOf pairs, rest)

def itemsFrom : Nat → Nat → Bytes → Option (List Data × Bytes)
  | _, 0, bs => some ([], bs)
  | 0, _ + 1, _ => none
  | fuel + 1, n + 1, bs => do
    let (d, rest) ← item fuel bs
    let (ds, rest) ← itemsFrom fuel n rest
    return (d :: ds, rest)

def pairsFrom : Nat → Nat → Bytes → Option (List (Data × Data) × Bytes)
  | _, 0, bs => some ([], bs)
  | 0, _ + 1, _ => none
  | fuel + 1, n + 1, bs => do
    let (k, rest) ← item fuel bs
    let (d, rest) ← item fuel rest
    let (more, rest) ← pairsFrom fuel n rest
    return ((k, d) :: more, rest)

end

def decode? (bs : Bytes) : Option Data := (item (2 * bs.length + 2) bs).map (·.1)

/-- Absent values are empty ones, byte strings do for texts, and a list of the right length does for a
record. -/
def reading : Reading Option Data where
  text := keyText?
  int
    | .int n => some (wrapInt n)
    | .null => some 0
    | _ => none
  bool
    | .bool b => some b
    | .null => some false
    | _ => none
  list
    | .list xs => some (some xs)
    | .null => some none
    | _ => none
  fields keys
    | .record es => some (some es)
    | .null => some none
    | .list xs =>
      if xs.isEmpty then some none else if xs.length = keys.length then some (some (keys.zip xs)) else none
    | _ => none

def library : Library := ⟨Data, encode, decode?, reading⟩

end CilSsa.Codec.MessagePack
