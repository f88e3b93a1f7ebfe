import CilSsa.Codec.Yaml.Folding

namespace CilSsa.Codec.Yaml

open CilSsa.Text

inductive Token
  | streamEnd
  | broken
  | version (major minor : Nat)
  | handle (name uri : String)
  | documentStart
  | documentEnd
  | blockList
  | blockRecord
  | blockEnd
  | listOpen
  | listClose
  | recordOpen
  | recordClose
  | comma
  | dash
  | key
  | value
  | alias (name : String)
  | anchor (name : String)
  | tag (handle suffix : String)
  | scalar (quoted : Bool) (text : String)
deriving DecidableEq

/-- A place where a key may have started: how many tokens are in front of it, where it is, and
whether there must be one. -/
structure PossibleKey where
  number : Nat
  place : Cursor
  required : Bool

/-- A stream that is read up to some place: the tokens so far, the last first, the columns of the open blocks,
and for each open bracket, the innermost first, and the blocks around them, where a key may have started. -/
structure Scanner where
  place : Cursor
  /-- Whether the first character of every line is passed over. -/
  marked : Bool := false
  tokens : List Token := []
  count : Nat := 0
  indent : Int := -1
  indents : List Int := []
  keys : List (Option PossibleKey) := [none]
  keyAllowed : Bool := true

def maxNesting : Nat := 10000

def maxKeyLength : Nat := 1024

/-- Past a comment, and past more of them if only blanks and ends of lines lie between them. -/
def skipComments : Nat → Cursor → Cursor
  | 0, p => p
  | fuel + 1, p =>
    let p := p.skipWhile fun c ↦ !isBreak c
    let gap := (p.rest.takeWhile fun c ↦ isBlank c || c = '\n' || c = '\r').length
    if 0 < gap && gap < blockSize && (p.rest.drop gap).head? == some '#' then
      skipComments fuel (skipGap gap p)
    else p
where
  skipGap : Nat → Cursor → Cursor
    | 0, p => p
    | n + 1, p => match p.peek with
      | some '#' | none => p
      | some c => skipGap n (if isBreak c then p.skipBreak else p.skip)

def skipLineComment (p : Cursor) : Cursor :=
  let gap := (p.rest.takeWhile isBlank).length
  if !p.fresh && gap < blockSize && (p.rest.drop gap).head? == some '#' then p.skipWhile fun c ↦ !isBreak c
  else p

namespace Scanner

def inFlow (s : Scanner) : Bool := 1 < s.keys.length

def push (s : Scanner) (t : Token) : Scanner := { s with tokens := t :: s.tokens, count := s.count + 1 }

def insert (s : Scanner) (n : Nat) (t : Token) : Scanner :=
  let behind := s.count - n
  { s with tokens := s.tokens.take behind ++ t :: s.tokens.drop behind, count := s.count + 1 }

def skip (s : Scanner) (n : Nat) : Scanner := { s with place := s.place.advance n }

/-- Past blanks, comments and ends of lines. A tab may stand for a blank where no key can start. -/
def skipSpace : Nat → Scanner → Scanner
  | 0, s => s
  | fuel + 1, s =>
    let p := if s.marked && s.place.column = 0 then s.place.skip else s.place
    let p := p.skipWhile fun c ↦ c = ' ' || (c = '\t' && (s.inFlow || !s.keyAllowed))
    let p := if p.peek == some '#' then skipComments p.rest.length p else p
    if (p.peek.map isBreak).getD false then
      skipSpace fuel { s with place := p.skipBreak, keyAllowed := s.keyAllowed || !s.inFlow }
    else { s with place := p }

def closeBlocks (s : Scanner) (column : Int) : Scanner :=
  if s.inFlow then s else go s.indents s
where
  go : List Int → Scanner → Scanner
    | [], s => s
    | i :: is, s => if s.indent > column then go is { s.push .blockEnd with indent := i, indents := is } else s

/-- Opens a block at a column, if it is to the right of the current one; its token goes behind the
first `n` ones. -/
def openBlock (s : Scanner) (column n : Nat) (t : Token) : Option Scanner :=
  if s.inFlow || (column : Int) ≤ s.indent then some s
  else if maxNesting ≤ s.indents.length then none
  else some { s.insert n t with indent := column, indents := s.indent :: s.indents }

def dropKey (s : Scanner) : Option Scanner :=
  match s.keys with
  | some k :: outer => if k.required then none else some { s with keys := none :: outer }
  | _ => some s

def saveKey (s : Scanner) : Option Scanner :=
  if !s.keyAllowed then some s
  else do
    let required := !s.inFlow && s.indent = (s.place.column : Int)
    let s ← s.dropKey
    return { s with keys := some ⟨s.count, s.place, required⟩ :: s.keys.tail }

def currentKey (s : Scanner) : Option (Option PossibleKey) :=
  match s.keys with
  | some k :: _ =>
    if k.place.line < s.place.line || k.place.index + maxKeyLength < s.place.index then
      (if k.required then none else some none)
    else some (some k)
  | _ => some none

def reset (s : Scanner) : Option Scanner := do
  let s ← (s.closeBlocks (-1)).dropKey
  return { s with keyAllowed := false }

def openFlow (s : Scanner) (t : Token) : Option Scanner := do
  let s ← s.saveKey
  if maxNesting < s.keys.length then none
  return ({ s with keys := none :: s.keys, keyAllowed := true }.push t).skip 1

def closeFlow (s : Scanner) (t : Token) : Option Scanner := do
  let s ← s.dropKey
  let keys := if s.inFlow then s.keys.tail else s.keys
  return ({ s with keys, keyAllowed := false }.push t).skip 1

def comma (s : Scanner) : Option Scanner := do
  let s ← s.dropKey
  return ({ s with keyAllowed := true }.push .comma).skip 1

/-- A dash in front of an item, or a question mark in front of a key: outside of brackets it may open a block. -/
def entry (s : Scanner) (block t : Token) (keyAllowed : Bool) : Option Scanner := do
  if !s.inFlow && !s.keyAllowed then none
  let s ← s.openBlock s.place.column s.count block
  let s ← s.dropKey
  return ({ s with keyAllowed }.push t).skip 1

def colon (s : Scanner) : Option Scanner := do
  match ← s.currentKey with
  | some k =>
    let s ← (s.insert k.number .key).openBlock k.place.column k.number .blockRecord
    return ({ s with keys := none :: s.keys.tail, keyAllowed := false }.push .value).skip 1
  | none =>
    let s := { s with keys := none :: s.keys.tail }
    if !s.inFlow && !s.keyAllowed then none
    let s ← s.openBlock s.place.column s.count .blockRecord
    return ({ s with keyAllowed := !s.inFlow }.push .value).skip 1

def isNameChar (c : Char) : Bool := c.isAlphanum || c = '_' || c = '-'

def anchor (s : Scanner) (t : String → Token) : Option Scanner := do
  let s ← s.saveKey
  let (name, p) := s.place.skip.takeWhile isNameChar
  let ended := startsSpace p.rest || (p.peek.map fun c ↦ ['?', ':', ',', ']', '\x7d', '%', '@',
    Char.ofNat 96].contains c).getD true
  if name.isEmpty || !ended then none
  return { s.push (t (String.ofList name)) with place := p, keyAllowed := false }

/-- Bytes that are written by a percent sign and two digits, as many as make up one character. -/
def percentBytes : Nat → Cursor → Option (Bytes × Cursor)
  | 0, p => some ([], p)
  | n + 1, p => match p.rest with
    | '%' :: a :: b :: _ => do
      let byte := (16 * (← hexValue? a) + (← hexValue? b)).toUInt8
      let (more, p) ← percentBytes n (p.advance 3)
      return (byte :: more, p)
    | _ => none

def uri : Nat → Cursor → Option (Bytes × Cursor)
  | 0, p => some ([], p)
  | fuel + 1, p => match p.rest with
    | [] => some ([], p)
    | '%' :: a :: b :: _ => do
      let width ← utf8Width (16 * (← hexValue? a) + (← hexValue? b)).toUInt8
      let (front, p) ← percentBytes width p
      if !(front.drop 1).all fun b ↦ (continuation? b).isSome then none
      let (more, p) ← uri fuel p
      return (front ++ more, p)
    | c :: _ =>
      if c = '%' then none
      else if isNameChar c || [';', '/', '?', ':', '@', '&', '=', '+', '$', ',', '.', '!', '~', '*', '\'', '(', ')',
        '[', ']'].contains c then do
        let (more, p) ← uri fuel p.skip
        return (utf8Bytes (String.ofList [c]) ++ more, p)
      else some ([], p)

/-- An exclamation mark and a name; behind it another exclamation mark if it is a handle. -/
def tagHandle (p : Cursor) : Option (List Char × Cursor) :=
  if p.peek != some '!' then none
  else
    let (name, p) := p.skip.takeWhile isNameChar
    if p.peek == some '!' then some ('!' :: name ++ ['!'], p.skip) else some ('!' :: name, p)

def tag (s : Scanner) : Option Scanner := do
  let s ← s.saveKey
  let fuel := s.place.rest.length
  let (t, p) ← match s.place.rest with
    | '!' :: '<' :: _ => do
      let (name, p) ← uri fuel (s.place.advance 2)
      if name.isEmpty || p.peek != some '>' then none
      pure (.tag "" (textOfBytes name), p.skip)
    | _ => do
      let (head, p) ← tagHandle s.place
      let (name, p) ← uri fuel p
      if 1 < head.length && head.getLast? == some '!' then
        if name.isEmpty then none
        pure (.tag (String.ofList head) (textOfBytes name), p)
      else
        let suffix := String.ofList (head.drop 1) ++ textOfBytes name
        pure (if suffix = "" then .tag "" "!" else .tag "!" suffix, p)
  if !startsSpace p.rest then none
  return { s.push t with place := p, keyAllowed := false }

def versionNumber (p : Cursor) : Option (Nat × Cursor) :=
  let (digits, p) := p.takeWhile Char.isDigit
  if digits.isEmpty || 2 < digits.length then none
  else some (digits.foldl (fun n c ↦ 10 * n + (c.toNat - '0'.toNat)) 0, p)

def directive (s : Scanner) : Option Scanner := do
  let s ← s.reset
  let (name, p) := s.place.skip.takeWhile isNameChar
  if name.isEmpty || !startsSpace p.rest then none
  let p := p.skipWhile isBlank
  let (t, p) ← match String.ofList name with
    | "YAML" => do
      let (major, p) ← versionNumber p
      if p.peek != some '.' then none
      let (minor, p) ← versionNumber p.skip
      pure (Token.version major minor, p)
    | "TAG" => do
      let (head, p) ← tagHandle p
      if 1 < head.length && head.getLast? != some '!' then none
      if !(p.peek.map isBlank).getD false then none
      let (name, p) ← uri p.rest.length (p.skipWhile isBlank)
      if name.isEmpty || !startsSpace p.rest then none
      pure (Token.handle (String.ofList head) (textOfBytes name), p)
    | _ => none
  let p := p.skipWhile isBlank
  let p := if p.peek == some '#' then p.skipWhile fun c ↦ !isBreak c else p
  if !startsSpace p.rest then none
  return { s.push t with place := p.skipBreak }

def quoted (s : Scanner) (single : Bool) : Option Scanner := do
  let s ← s.saveKey
  let (text, p) ← quotedText single (s.place.rest.length + 1) [] s.place.skip
  return { s.push (.scalar true (String.ofList text)) with place := p, keyAllowed := false }

def block (s : Scanner) (literal : Bool) : Option Scanner := do
  let s ← s.dropKey
  let (text, p) ← blockText literal s.indent s.place.skip
  return { s.push (.scalar true (String.ofList text)) with place := p, keyAllowed := true }

def plain (s : Scanner) : Option Scanner := do
  let s ← s.saveKey
  let (text, broken, p) ← plainText s.inFlow (s.indent + 1).toNat (s.place.rest.length + 1) [] {} s.place
  return { s.push (.scalar false (String.ofList text)) with place := p, keyAllowed := broken }

def isIndicator (c : Char) : Bool :=
  [',', '[', ']', '\x7b', '\x7d', '#', '&', '*', '!', '|', '>', '\'', '"', '%', '@', Char.ofNat 96].contains c

def content (s : Scanner) (c : Char) (rest : List Char) : Option Scanner :=
  let apart := startsSpace rest
  match c with
  | '[' => s.openFlow .listOpen
  | '\x7b' => s.openFlow .recordOpen
  | ']' => s.closeFlow .listClose
  | '\x7d' => s.closeFlow .recordClose
  | ',' => s.comma
  | '*' => s.anchor .alias
  | '&' => s.anchor .anchor
  | '!' => s.tag
  | '\'' => s.quoted true
  | '"' => s.quoted false
  | '-' => if apart then s.entry .blockList .dash true else s.plain
  | '?' => if s.inFlow || apart then s.entry .blockRecord .key (!s.inFlow) else s.plain
  | ':' => if s.inFlow || apart then s.colon else s.plain
  | '|' => if s.inFlow then none else s.block true
  | '>' => if s.inFlow then none else s.block false
  | c => if isIndicator c || isSpace c then none else s.plain

def next (s : Scanner) : Option Scanner := do
  let s := s.skipSpace (s.place.rest.length + 1)
  let s := s.closeBlocks s.place.column
  match s.place.rest with
  | [] => return (← s.reset).push .streamEnd
  | c :: rest =>
    if c = '%' && s.place.column = 0 then s.directive
    else if s.place.atMark ['-', '-', '-'] then return ((← s.reset).push .documentStart).skip 3
    else if s.place.atMark ['.', '.', '.'] then return ((← s.reset).push .documentEnd).skip 3
    else
      let s ← s.content c rest
      return if s.tokens.head? == some .dash then s else { s with place := skipLineComment s.place }

def run (whole : Bool) : Nat → Scanner → List Token
  | 0, s => (.broken :: s.tokens).reverse
  | fuel + 1, s => match s.next with
    | none => (.broken :: s.tokens).reverse
    | some s =>
      if s.tokens.head? == some .streamEnd then (if whole then s.tokens else .broken :: s.tokens.tail).reverse
      else run whole fuel s

end Scanner

/-- The tokens of a stream, the last of which is its end or tells that it cannot be read on. -/
def Stream.tokens (s : Stream) : List Token :=
  let marked := (s.chars.head?.map fun c ↦ c.toNat == 0xFEFF).getD false
  Scanner.run s.whole (s.chars.length + 2) { place := { rest := s.chars }, marked }

end CilSsa.Codec.Yaml

