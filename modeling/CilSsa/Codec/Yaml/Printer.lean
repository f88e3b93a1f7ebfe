import CilSsa.Codec.Data
import CilSsa.Codec.Yaml.Scalar
import CilSsa.Codec.Yaml.Stream

namespace CilSsa.Codec.Yaml

open CilSsa.Codec CilSsa.Number CilSsa.Text

def isOldBool (s : String) : Bool :=
  ["y", "Y", "yes", "Yes", "YES", "on", "On", "ON", "n", "N", "no", "No", "NO", "off", "Off", "OFF"].contains s

/-- Digits with colons between groups below sixty, which older readers take for numbers. -/
def isBase60 (s : String) : Bool :=
  let cs := (splitSign s.toList).2
  let (whole, fraction) := match cutChars ['.'] cs with
    | some (a, b) => (a, b)
    | none => (cs, [])
  match splitAt (String.ofList whole) ':' with
  | first :: group :: more =>
    (first.toList.head?.map Char.isDigit).getD false && (first.toList.all fun c ↦ c.isDigit || c = '_') &&
    ((group :: more).all fun g ↦ match g.toList with
      | [d] => d.isDigit
      | [t, d] => '0' ≤ t && t ≤ '5' && d.isDigit
      | _ => false) && fraction.all fun c ↦ c.isDigit || c = '_'
  | _ => false

def meansItself (s : String) : Bool :=
  match meaningOf true s with
  | .text _ => !isOldBool s && !isBase60 s
  | _ => false

/-- A character that can stand for itself: those of the first plane that are not controls. -/
def isPlainChar (c : Char) : Bool :=
  c = '\n' || (' ' ≤ c && c ≤ '~') || (0xA0 ≤ c.toNat && c.toNat ≤ 0xFFFD && c.toNat ≠ 0xFEFF)

def isFrontMark (c : Char) : Bool :=
  ['#', ',', '[', ']', '\x7b', '\x7d', '&', '*', '!', '|', '>', '\'', '"', '%', '@', Char.ofNat 96].contains c

/-- A mark that would be read as something else: at the front, or with spaces around it. -/
def hasMark (front spaced : Bool) : List Char → Bool
  | [] => false
  | c :: rest =>
    let apart := (rest.head?.map isBlank).getD true
    let here := if front then isFrontMark c || (['-', '?', ':'].contains c && apart)
      else (c = ':' && apart) || (c = '#' && spaced)
    here || hasMark false (isSpace c || c.toNat = 0) rest

structure Features where
  breaks : Bool
  special : Bool
  tabs : Bool
  spaceBreak : Bool
  breakSpace : Bool
  spaceEnd : Bool
  edge : Bool
  mark : Bool

def Features.of (cs : List Char) : Features :=
  let pairs := cs.zip (cs.drop 1)
  let ends (test : Char → Bool) := (cs.head?.map test).getD false || (cs.getLast?.map test).getD false
  { breaks := cs.any isBreak
    special := cs.any fun c ↦ c ≠ '\t' && !isPlainChar c
    tabs := cs.contains '\t'
    spaceBreak := pairs.any fun (a, b) ↦ a = ' ' && isBreak b
    breakSpace := pairs.any fun (a, b) ↦ isBreak a && b = ' '
    spaceEnd := cs.getLast? == some ' '
    edge := ends fun c ↦ c = ' ' || isBreak c
    mark := hasMark true true cs || cs.take 3 == ['-', '-', '-'] || cs.take 3 == ['.', '.', '.'] }

inductive Style
  | plain | single | double | literal

def Style.of (s : String) : Style :=
  let f := Features.of s.toList
  if s.toList.contains '\n' then (if f.spaceEnd || f.spaceBreak || f.special then .double else .literal)
  else if !meansItself s || f.breakSpace || f.spaceBreak || f.tabs || f.special then .double
  else if f.edge || f.breaks || f.mark then .single
  else .plain

def escaped (c : Char) : List Char :=
  match c.toNat with
  | 0 => ['\\', '0']
  | 7 => ['\\', 'a']
  | 8 => ['\\', 'b']
  | 9 => ['\\', 't']
  | 10 => ['\\', 'n']
  | 11 => ['\\', 'v']
  | 12 => ['\\', 'f']
  | 13 => ['\\', 'r']
  | 27 => ['\\', 'e']
  | 0x22 => ['\\', '"']
  | 0x5C => ['\\', '\\']
  | 0x85 => ['\\', 'N']
  | 0xA0 => ['\\', '_']
  | 0x2028 => ['\\', 'L']
  | 0x2029 => ['\\', 'P']
  | n =>
    if n < 0x100 then '\\' :: 'x' :: (hexPaddedUpper 2 n).toList
    else if n < 0x10000 then '\\' :: 'u' :: (hexPaddedUpper 4 n).toList
    else '\\' :: 'U' :: (hexPaddedUpper 8 n).toList

def doubleQuoted (cs : List Char) : List Char :=
  let all := (cs.head?.map fun c ↦ c.toNat == 0xFEFF).getD false
  let needs (c : Char) : Bool := all || !isPlainChar c || isBreak c || c = '"' || c = '\\'
  '"' :: cs.flatMap (fun c ↦ if needs c then escaped c else [c]) ++ ['"']

/-- The marks of a literal block: its indentation if it starts with a space, and how it ends. -/
def literalMarks (cs : List Char) : List Char :=
  let hint := if (cs.head?.map fun c ↦ c = ' ' || isBreak c).getD false then ['2'] else []
  let ending := match cs.reverse with
    | [] => ['-']
    | [c] => if isBreak c then ['+'] else ['-']
    | c :: d :: _ => if !isBreak c then ['-'] else if isBreak d then ['+'] else []
  hint ++ ending

/-- What is written so far, the last character first, and the column behind it. Writing is `fresh` where
nothing but dashes and spaces stands in the line, and `blank` where no space is needed in front of a word. -/
structure Pen where
  text : List Char := []
  column : Nat := 0
  fresh : Bool := true
  blank : Bool := true

namespace Pen

def put (p : Pen) (c : Char) : Pen := { p with text := c :: p.text, column := p.column + 1 }

def endLine (p : Pen) (c : Char) : Pen := { p with text := c :: p.text, column := 0, fresh := true }

def puts (p : Pen) (cs : List Char) : Pen := cs.foldl put p

def indentTo (p : Pen) (n : Nat) : Pen :=
  let p := if !p.fresh || n < p.column || (p.column = n && !p.blank) then p.endLine '\n' else p
  { p.puts (List.replicate (n - p.column) ' ') with blank := true }

def word (p : Pen) (cs : List Char) : Pen :=
  { (if p.blank then p else p.put ' ').puts cs with fresh := false, blank := false }

/-- The characters of a text whose lines start at a column; `broken` says that a line just ended. -/
def lines (indent : Nat) (spell : Char → List Char) : Bool → List Char → Pen → Pen
  | _, [], p => p
  | broken, c :: cs, p =>
    if isBreak c then lines indent spell true cs (p.endLine c)
    else
      let p := if broken then p.indentTo indent else p
      lines indent spell false cs { p.puts (spell c) with fresh := false }

def scalar (p : Pen) (indent : Nat) (s : String) : Pen :=
  let cs := s.toList
  match Style.of s with
  | .plain => p.word cs
  | .double => p.word (doubleQuoted cs)
  | .single =>
    let twice (c : Char) : List Char := if c = '\'' then ['\'', '\''] else [c]
    { (lines indent twice false cs (p.word ['\''])).put '\'' with fresh := false, blank := false }
  | .literal => lines indent (fun c ↦ [c]) true cs { p.word ('|' :: literalMarks cs) with blank := true }

end Pen

mutual

def printValue (indent : Nat) : Data → Pen → Pen
  | .null, p | .other, p => p.word ['n', 'u', 'l', 'l']
  | .bool b, p => p.word (if b then ['t', 'r', 'u', 'e'] else ['f', 'a', 'l', 's', 'e'])
  | .int n, p => p.word (toString n).toList
  | .text s, p => p.scalar (indent + 2) s
  | .bytes bs, p => p.scalar (indent + 2) (hexOfBytes bs)
  | .list [], p => p.word ['[', ']']
  | .record [], p => p.word ['\x7b', '\x7d']
  | .list (x :: xs), p => printItems (indent + 2) (x :: xs) p
  | .record (e :: es), p => printEntries (indent + 2) (e :: es) p

def printItems (indent : Nat) : List Data → Pen → Pen
  | [], p => p
  | x :: xs, p => printItems indent xs (printValue indent x { (p.indentTo indent).put '-' with blank := false })

def printEntries (indent : Nat) : List (String × Data) → Pen → Pen
  | [], p => p
  | (k, d) :: rest, p => printEntries indent rest (printValue indent d (((p.indentTo indent).word k.toList).put ':'))

end

def print (d : Data) : String :=
  let p := match d with
    | .record (e :: es) => printEntries 0 (e :: es) {}
    | d => printValue 0 d {}
  String.ofList (p.indentTo 0).text.reverse

end CilSsa.Codec.Yaml
