import CilSsa.Text.Utf8

namespace CilSsa.Codec.Yaml

open CilSsa.Text

def isBlank (c : Char) : Bool := c = ' ' || c = '\t'

def isSeparator (c : Char) : Bool := c.toNat = 0x2028 || c.toNat = 0x2029

def isBreak (c : Char) : Bool := c = '\n' || c = '\r' || c.toNat = 0x85 || isSeparator c

def isSpace (c : Char) : Bool := isBlank c || isBreak c

def startsSpace : List Char → Bool
  | [] => true
  | c :: _ => isSpace c

def isAllowed (c : Char) : Bool :=
  c = '\t' || c = '\n' || c = '\r' || (' ' ≤ c && c ≤ '~') || c.toNat = 0x85 ||
  (0xA0 ≤ c.toNat && c.toNat ≤ 0xFFFD) || 0x10000 ≤ c.toNat

/-- What the front of some bytes is: a character with its width, the beginning of one, or neither. -/
inductive Front
  | char (c : Char) (width : Nat)
  | cut
  | bad

def utf8Width (a : UInt8) : Option Nat :=
  if a < 0x80 then some 1
  else if a < 0xC0 then none
  else if a < 0xE0 then some 2
  else if a < 0xF0 then some 3
  else if a < 0xF8 then some 4
  else none

def utf8Front : Bytes → Front
  | [] => .cut
  | a :: rest => match utf8Width a with
    | none => .bad
    | some w =>
      if rest.length + 1 < w then .cut
      else match firstChar a rest with
        | some (c, n) => .char c (n + 1)
        | none => .bad

/-- The front of UTF-16 bytes; a character beyond the first plane is a pair of surrogates. -/
def utf16Front (big : Bool) (bs : Bytes) : Front :=
  let unit (a b : UInt8) : Nat := if big then 256 * a.toNat + b.toNat else 256 * b.toNat + a.toNat
  match bs with
  | a :: b :: rest =>
    let u := unit a b
    if 0xDC00 ≤ u && u < 0xE000 then .bad
    else if 0xD800 ≤ u && u < 0xDC00 then match rest with
      | c :: d :: _ =>
        let v := unit c d
        if 0xDC00 ≤ v && v < 0xE000 then .char (Char.ofNat (0x10000 + (u - 0xD800) * 1024 + (v - 0xDC00))) 4
        else .bad
      | _ => .cut
    else .char (Char.ofNat u) 2
  | _ => .cut

/-- The characters of a stream. It is `whole` if nothing behind them is unreadable. -/
structure Stream where
  chars : List Char
  whole : Bool

/-- A stream is read in blocks of this many bytes; an unreadable character spoils its block. -/
def blockSize : Nat := 512

/-- Reads on from byte `offset`: characters with the offsets behind them, and where reading ends early. -/
def readChars (front : Bytes → Front) : Nat → Nat → Bytes → List (Nat × Char) × Option Nat
  | 0, _, _ => ([], none)
  | _, _, [] => ([], none)
  | fuel + 1, offset, bs => match front bs with
    | .cut => ([], some offset)
    | .bad => ([], some (offset - offset % blockSize))
    | .char c w =>
      if isAllowed c then
        let (more, stop) := readChars front fuel (offset + w) (bs.drop w)
        ((offset + w, c) :: more, stop)
      else ([], some (offset - offset % blockSize))

def Stream.ofBytes (bs : Bytes) : Stream :=
  let (front, mark) : (Bytes → Front) × Nat := match bs with
    | 0xEF :: 0xBB :: 0xBF :: _ => (utf8Front, 3)
    | 0xFF :: 0xFE :: _ => (utf16Front false, 2)
    | 0xFE :: 0xFF :: _ => (utf16Front true, 2)
    | _ => (utf8Front, 0)
  match readChars front bs.length mark (bs.drop mark) with
  | (cs, none) => ⟨cs.map (·.2), true⟩
  | (cs, some stop) => ⟨(cs.takeWhile fun e ↦ e.1 ≤ stop).map (·.2), false⟩

/-- A place in a stream: what follows it, and where it is. A place is `fresh` if only blanks lie
between it and the last end of line that was passed. -/
structure Cursor where
  rest : List Char
  index : Nat := 0
  line : Nat := 0
  column : Nat := 0
  fresh : Bool := false

namespace Cursor

def skip (p : Cursor) : Cursor :=
  match p.rest with
  | [] => p
  | c :: rest => { p with rest, index := p.index + 1, column := p.column + 1, fresh := p.fresh && isBlank c }

def skipBreak (p : Cursor) : Cursor :=
  match p.rest with
  | '\r' :: '\n' :: rest => { rest, index := p.index + 2, line := p.line + 1, column := 0, fresh := true }
  | _ :: rest => { rest, index := p.index + 1, line := p.line + 1, column := 0, fresh := true }
  | [] => p

def advance (p : Cursor) : Nat → Cursor
  | 0 => p
  | n + 1 => p.skip.advance n

def takeWhile (p : Cursor) (test : Char → Bool) : List Char × Cursor :=
  let cs := p.rest.takeWhile test
  (cs, p.advance cs.length)

def skipWhile (p : Cursor) (test : Char → Bool) : Cursor := (p.takeWhile test).2

def peek (p : Cursor) : Option Char := p.rest.head?

def atMark (p : Cursor) (mark : List Char) : Bool :=
  p.column = 0 && p.rest.take 3 == mark && startsSpace (p.rest.drop 3)

def atDocumentMark (p : Cursor) : Bool := p.atMark ['-', '-', '-'] || p.atMark ['.', '.', '.']

end Cursor

def breakText (c : Char) : Char := if isSeparator c then c else '\n'

end CilSsa.Codec.Yaml
