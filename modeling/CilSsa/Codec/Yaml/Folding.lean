import CilSsa.Codec.Yaml.Stream

namespace CilSsa.Codec.Yaml

open CilSsa.Text

structure Gap where
  blanks : List Char := []
  first : List Char := []
  more : List Char := []
  broken : Bool := false

def Gap.folded (g : Gap) : List Char :=
  if !g.broken then g.blanks
  else if g.first == ['\n'] then (if g.more.isEmpty then [' '] else g.more)
  else g.first ++ g.more

def Gap.read (indent : Nat) : Nat → Gap → Cursor → Option (Gap × Cursor)
  | 0, g, p => some (g, p)
  | fuel + 1, g, p => match p.peek with
    | none => some (g, p)
    | some c =>
      if isBlank c then
        if g.broken then
          if c = '\t' && p.column < indent then none else Gap.read indent fuel g p.skip
        else Gap.read indent fuel { g with blanks := g.blanks ++ [c] } p.skip
      else if isBreak c then
        let b := breakText c
        let g := if g.broken then { g with more := g.more ++ [b] }
          else { blanks := [], first := [b], more := [], broken := true }
        Gap.read indent fuel g p.skipBreak
      else some (g, p)

def isFlowMark (c : Char) : Bool := [',', '?', '[', ']', '\x7b', '\x7d'].contains c

def plainLength (flow : Bool) : List Char → Nat
  | [] => 0
  | c :: rest =>
    if isSpace c || (c = ':' && startsSpace rest) || (flow && isFlowMark c) then 0
    else plainLength flow rest + 1

/-- A text without quotes that goes on at column `indent` or to the right of it; the text so far and
the gap behind it are given. Tells also whether an end of line follows the text. -/
def plainText (flow : Bool) (indent : Nat) : Nat → List Char → Gap → Cursor → Option (List Char × Bool × Cursor)
  | 0, text, g, p => some (text, g.broken, p)
  | fuel + 1, text, g, p =>
    if p.atDocumentMark || p.peek == some '#' then some (text, g.broken, p)
    else
      let n := plainLength flow p.rest
      let (text, g) := if n = 0 then (text, g) else (text ++ g.folded ++ p.rest.take n, {})
      let p := p.advance n
      match p.peek with
      | none => some (text, g.broken, p)
      | some c =>
        if !isSpace c then some (text, g.broken, p)
        else do
          let (g, p) ← g.read indent (p.rest.length + 1) p
          if !flow && p.column < indent then return (text, g.broken, p)
          plainText flow indent fuel text g p

def simpleEscape? : Char → Option Char
  | '0' => some (Char.ofNat 0)
  | 'a' => some (Char.ofNat 7)
  | 'b' => some (Char.ofNat 8)
  | 't' | '\t' => some '\t'
  | 'n' => some '\n'
  | 'v' => some (Char.ofNat 11)
  | 'f' => some (Char.ofNat 12)
  | 'r' => some '\r'
  | 'e' => some (Char.ofNat 27)
  | ' ' => some ' '
  | '"' => some '"'
  | '\'' => some '\''
  | '\\' => some '\\'
  | 'N' => some (Char.ofNat 0x85)
  | '_' => some (Char.ofNat 0xA0)
  | 'L' => some (Char.ofNat 0x2028)
  | 'P' => some (Char.ofNat 0x2029)
  | _ => none

def codedChar? (n : Nat) (cs : List Char) : Option Char := do
  let digits ← (cs.take n).mapM hexValue?
  let code := digits.foldl (fun a d ↦ 16 * a + d) 0
  if digits.length = n ∧ code < 0x110000 ∧ ¬(0xD800 ≤ code ∧ code < 0xE000) then some (Char.ofNat code) else none

def escape? : List Char → Option (Char × Nat)
  | 'x' :: cs => (codedChar? 2 cs).map (·, 4)
  | 'u' :: cs => (codedChar? 4 cs).map (·, 6)
  | 'U' :: cs => (codedChar? 8 cs).map (·, 10)
  | c :: _ => (simpleEscape? c).map (·, 2)
  | [] => none

/-- A word within quotes, up to a space, the closing quote or an escaped end of line; tells whether it
was the last of these. -/
def quotedWord (single : Bool) : Nat → Cursor → Option (List Char × Bool × Cursor)
  | 0, p => some ([], false, p)
  | fuel + 1, p =>
    let onward (c : Char) (n : Nat) :=
      (quotedWord single fuel (p.advance n)).map fun (more, e, p) ↦ (c :: more, e, p)
    match p.rest with
    | [] => some ([], false, p)
    | c :: rest =>
      if isSpace c then some ([], false, p)
      else if single then
        if c = '\'' then (if rest.head? == some '\'' then onward '\'' 2 else some ([], false, p)) else onward c 1
      else if c = '"' then some ([], false, p)
      else if c = '\\' then
        if (rest.head?.map isBreak).getD false then some ([], true, p.skip.skipBreak)
        else do
          let (e, n) ← escape? rest
          onward e n
      else onward c 1

def quotedText (single : Bool) : Nat → List Char → Cursor → Option (List Char × Cursor)
  | 0, _, _ => none
  | fuel + 1, text, p => do
    if p.atDocumentMark || p.rest.isEmpty then none
    let (word, escaped, p) ← quotedWord single (p.rest.length + 1) p
    if p.peek == some (if single then '\'' else '"') then return (text ++ word, p.skip)
    let (g, p) ← Gap.read 0 (p.rest.length + 1) { broken := escaped } p
    quotedText single fuel (text ++ word ++ g.folded) p

inductive Chomping
  | strip | clip | keep
deriving DecidableEq

def chomping? : Char → Option Chomping
  | '-' => some .strip
  | '+' => some .keep
  | _ => none

def blockMarks (p : Cursor) : Option (Chomping × Nat × Cursor) :=
  let digit (p : Cursor) : Option (Nat × Cursor) := match p.peek with
    | some c => if c = '0' then none else if c.isDigit then some (c.toNat - '0'.toNat, p.skip) else some (0, p)
    | none => some (0, p)
  let chomp (p : Cursor) : Chomping × Cursor := match p.peek.bind chomping? with
    | some ch => (ch, p.skip)
    | none => (.clip, p)
  match p.peek.bind chomping? with
  | some ch => (digit p.skip).map fun (n, p) ↦ (ch, n, p)
  | none => (digit p).map fun (n, p) ↦ if n = 0 then (.clip, 0, p) else
      let (ch, p) := chomp p
      (ch, n, p)

/-- Past the indentation of a line and past empty lines. While the indentation is not known (`0`), all
spaces count, and the widest of them is told. -/
def blockBreaks (indent : Nat) : Nat → Nat → List Char → Cursor → Option (Nat × List Char × Cursor)
  | 0, widest, breaks, p => some (widest, breaks, p)
  | fuel + 1, widest, breaks, p =>
    let spaces := (p.rest.takeWhile (· = ' ')).length
    let p := p.advance (if indent = 0 then spaces else min spaces (indent - p.column))
    let widest := max widest p.column
    match p.peek with
    | none => some (widest, breaks, p)
    | some c =>
      if c = '\t' && (indent = 0 || p.column < indent) then none
      else if isBreak c then blockBreaks indent fuel widest (breaks ++ [breakText c]) p.skipBreak
      else some (widest, breaks, p)

/-- A block so far: the parts of its text, the last first, the end of its last line, the ends of empty
lines behind that, and whether its last line starts with a blank. -/
structure Block where
  parts : List (List Char) := []
  leading : List Char := []
  trailing : List Char := []
  blank : Bool := false

def Block.read (literal : Bool) (indent : Nat) : Nat → Block → Cursor → Option (Block × Cursor)
  | 0, b, p => some (b, p)
  | fuel + 1, b, p =>
    if p.column ≠ indent then some (b, p)
    else match p.peek with
      | none => some (b, p)
      | some c => do
        let joined := !literal && !b.blank && !isBlank c && b.leading == ['\n']
        let gap := if joined then (if b.trailing.isEmpty then [' '] else []) else b.leading
        let (line, p) := p.takeWhile fun c ↦ !isBreak c
        let leading := (p.peek.map breakText).toList
        let (_, trailing, p) ← blockBreaks indent (p.rest.length + 1) 0 [] p.skipBreak
        Block.read literal indent fuel
          { parts := (gap ++ b.trailing ++ line) :: b.parts, leading, trailing, blank := isBlank c } p

def blockText (literal : Bool) (parent : Int) (p : Cursor) : Option (List Char × Cursor) := do
  let (chomping, increment, p) ← blockMarks p
  let p := p.skipWhile isBlank
  let p := if p.peek == some '#' then p.skipWhile fun c ↦ !isBreak c else p
  if !startsSpace p.rest || (p.peek.map isBlank).getD false then none
  let p := p.skipBreak
  let fuel := p.rest.length + 1
  let given := if increment = 0 then 0 else parent.toNat + increment
  let (widest, trailing, p) ← blockBreaks given fuel 0 [] p
  let indent := if given = 0 then max widest (max (parent + 1).toNat 1) else given
  let (b, p) ← Block.read literal indent fuel { trailing } p
  let ending := match chomping with
    | .strip => []
    | .clip => b.leading
    | .keep => b.leading ++ b.trailing
  return (b.parts.reverse.flatten ++ ending, p)

end CilSsa.Codec.Yaml
