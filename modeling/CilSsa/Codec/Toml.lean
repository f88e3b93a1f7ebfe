import CilSsa.Codec.Data
import CilSsa.Number.Literal
import CilSsa.Number.Word
import CilSsa.Text.Utf8

namespace CilSsa.Codec.Toml

open CilSsa.Codec CilSsa.Number CilSsa.Text

abbrev Key := List String

/-- What a key is defined as. A table that other keys only pass through may still be given a head. -/
inductive Definition
  | passage
  | table
  | items
  | value (d : Data)

/-- A document: what each key is, and the keys that are written, in order. -/
structure Document where
  definitions : List (Key × Definition) := []
  keys : List Key := []

abbrev Reader (α : Type) := List Char → Option (α × List Char)

def isBare (c : Char) : Bool := c.isAlphanum || c = '_' || c = '-'

def skipBlanks (cs : List Char) : List Char := cs.dropWhile fun c ↦ c = ' ' || c = '\t'

def isLineChar (c : Char) : Bool := c = '\t' || (' ' ≤ c && c.toNat ≠ 127)

def newline? : List Char → Option (List Char)
  | '\n' :: cs => some cs
  | '\r' :: '\n' :: cs => some cs
  | _ => none

def skipComment (cs : List Char) : List Char :=
  match cs with
  | '#' :: rest => rest.dropWhile isLineChar
  | cs => cs

def skipVoid : Nat → List Char → List Char
  | 0, cs => cs
  | fuel + 1, cs =>
    let cs := skipComment (skipBlanks cs)
    match newline? cs with
    | some rest => skipVoid fuel rest
    | none => cs

def endLine? (cs : List Char) : Option (List Char) :=
  match skipComment (skipBlanks cs) with
  | [] => some []
  | cs => newline? cs

def escape? : Reader Char
  | 'b' :: cs => some (Char.ofNat 8, cs)
  | 't' :: cs => some ('\t', cs)
  | 'n' :: cs => some ('\n', cs)
  | 'f' :: cs => some (Char.ofNat 12, cs)
  | 'r' :: cs => some ('\r', cs)
  | '"' :: cs => some ('"', cs)
  | '\\' :: cs => some ('\\', cs)
  | 'u' :: cs => hex 4 cs
  | 'U' :: cs => hex 8 cs
  | _ => none
where
  hex (n : Nat) (cs : List Char) : Option (Char × List Char) := do
    let digits ← (cs.take n).mapM hexValue?
    let code := digits.foldl (fun a d ↦ 16 * a + d) 0
    if digits.length = n ∧ code < 0x110000 ∧ ¬(0xD800 ≤ code ∧ code < 0xE000) then some (Char.ofNat code, cs.drop n)
    else none

def basicString : Nat → Reader (List Char)
  | 0, _ => none
  | fuel + 1, cs => match cs with
    | '"' :: rest => some ([], rest)
    | '\\' :: rest => do
      let (c, rest) ← escape? rest
      let (more, rest) ← basicString fuel rest
      return (c :: more, rest)
    | c :: rest => if isLineChar c then (basicString fuel rest).map fun (more, rest) ↦ (c :: more, rest) else none
    | [] => none

def literalString : Reader (List Char)
  | '\'' :: rest => some ([], rest)
  | c :: rest => if isLineChar c then (literalString rest).map fun (more, rest) ↦ (c :: more, rest) else none
  | [] => none

/-- The end of a text over several lines: three quotes, with up to two more that belong to the text. -/
def closing? (q : Char) (cs : List Char) : Option (List Char × List Char) :=
  let run := (cs.takeWhile (· = q)).length
  if 3 ≤ run ∧ run ≤ 5 then some (List.replicate (run - 3) q, cs.drop run) else none

def longString (q : Char) : Nat → Reader (List Char)
  | 0, _ => none
  | fuel + 1, cs => match closing? q cs with
    | some r => some r
    | none => match cs with
      | [] => none
      | c :: rest =>
        if c = '\\' && q = '"' then
          match newline? (skipBlanks rest) with
          | some rest => longString q fuel (rest.dropWhile fun c ↦ c = ' ' || c = '\t' || c = '\n' || c = '\r')
          | none => do
            let (c, rest) ← escape? rest
            let (more, rest) ← longString q fuel rest
            return (c :: more, rest)
        else match newline? (c :: rest) with
          | some rest => (longString q fuel rest).map fun (more, rest) ↦ ('\n' :: more, rest)
          | none => if isLineChar c then (longString q fuel rest).map fun (more, rest) ↦ (c :: more, rest) else none

def text? (cs : List Char) : Option (String × List Char) :=
  let fuel := cs.length + 1
  let made (r : Option (List Char × List Char)) := r.map fun (s, rest) ↦ (String.ofList s, rest)
  match cs with
  | '"' :: '"' :: '"' :: rest => made (longString '"' fuel ((newline? rest).getD rest))
  | '\'' :: '\'' :: '\'' :: rest => made (longString '\'' fuel ((newline? rest).getD rest))
  | '"' :: rest => made (basicString fuel rest)
  | '\'' :: rest => made (literalString rest)
  | _ => none

def keyPart? (cs : List Char) : Option (String × List Char) :=
  match cs with
  | '"' :: rest => (basicString (rest.length + 1) rest).map fun (s, rest) ↦ (String.ofList s, rest)
  | '\'' :: rest => (literalString rest).map fun (s, rest) ↦ (String.ofList s, rest)
  | cs =>
    let part := cs.takeWhile isBare
    if part.isEmpty then none else some (String.ofList part, cs.drop part.length)

def key? : Nat → Reader Key
  | 0, _ => none
  | fuel + 1, cs => do
    let (part, rest) ← keyPart? (skipBlanks cs)
    match skipBlanks rest with
    | '.' :: rest =>
      let (more, rest) ← key? fuel rest
      return (part :: more, rest)
    | rest => return ([part], rest)

def digitsOk (isDigit : Char → Bool) : List Char → Bool
  | [] => false
  | [c] => isDigit c
  | c :: '_' :: d :: rest => isDigit c && isDigit d && digitsOk isDigit (d :: rest)
  | c :: rest => isDigit c && digitsOk isDigit rest

def noLeadingZero : List Char → Bool
  | '0' :: _ :: _ => false
  | _ => true

def int? (cs : List Char) : Option Int :=
  let (sign, body) := match cs with
    | '+' :: rest => (some '+', rest)
    | '-' :: rest => (some '-', rest)
    | rest => (none, rest)
  let based (test : Char → Bool) (rest : List Char) := sign.isNone && digitsOk test rest
  let ok := match body with
    | '0' :: 'x' :: rest => based (fun c ↦ (hexValue? c).isSome) rest
    | '0' :: 'o' :: rest => based (fun c ↦ '0' ≤ c && c ≤ '7') rest
    | '0' :: 'b' :: rest => based (fun c ↦ c = '0' || c = '1') rest
    | rest => digitsOk Char.isDigit rest && noLeadingZero rest
  if ok then (parseSigned 64 (String.ofList (cs.filter (· ≠ '_')))).toOption else none

def isFloat (cs : List Char) : Bool :=
  let body : List Char := match cs with
    | '+' :: rest | '-' :: rest => rest
    | rest => rest
  if body = ['i', 'n', 'f'] || body = ['n', 'a', 'n'] then true
  else
    let whole := body.takeWhile fun (c : Char) ↦ c.isDigit || c = '_'
    let rest := body.drop whole.length
    let (fraction, rest) := match rest with
      | '.' :: rest =>
        let part := rest.takeWhile fun (c : Char) ↦ c.isDigit || c = '_'
        (some part, rest.drop part.length)
      | rest => (none, rest)
    let exponent := match rest with
      | 'e' :: rest | 'E' :: rest => some (match rest with
        | '+' :: r | '-' :: r => r
        | r => r)
      | [] => none
      | _ => some ['x']
    digitsOk Char.isDigit whole && noLeadingZero whole &&
      ((fraction.map (digitsOk Char.isDigit)).getD true) && ((exponent.map (digitsOk Char.isDigit)).getD true) &&
      (fraction.isSome || exponent.isSome)

def twoDigits (max : Nat) : List Char → Option (List Char)
  | a :: b :: rest =>
    if a.isDigit && b.isDigit && ((a.toNat - 48) * 10 + (b.toNat - 48) ≤ max) then some rest else none
  | _ => none

def clock? (cs : List Char) : Option (List Char) := do
  let cs ← twoDigits 23 cs
  let ':' :: cs := cs | none
  let cs ← twoDigits 59 cs
  let ':' :: cs := cs | none
  let cs ← twoDigits 60 cs
  match cs with
  | '.' :: rest => if (rest.takeWhile Char.isDigit).isEmpty then none else some (rest.dropWhile Char.isDigit)
  | cs => some cs

def isTime (cs : List Char) : Bool :=
  let date : Option (List Char) := do
    if (cs.take 4).length ≠ 4 || !(cs.take 4).all Char.isDigit then none
    let '-' :: rest := cs.drop 4 | none
    let '-' :: rest ← twoDigits 12 rest | none
    twoDigits 31 rest
  match date with
  | some [] => true
  | some (c :: rest) =>
    (c = 'T' || c = 't' || c = ' ') && match clock? rest with
      | some [] | some ['Z'] | some ['z'] => true
      | some (s :: rest) => (s = '+' || s = '-') && ((do
          let ':' :: rest ← twoDigits 23 rest | none
          let rest ← twoDigits 59 rest
          if rest.isEmpty then some () else none : Option Unit)).isSome
      | none => false
  | none => match clock? cs with
    | some [] => true
    | _ => false

/-- A number, a truth value or a time: what runs up to a mark or a blank. -/
def word? (cs : List Char) : Option (Data × List Char) :=
  let isEnd (c : Char) : Bool := [',', ']', '\x7d', '#', ' ', '\t', '\n', '\r'].contains c
  let word := cs.takeWhile fun c ↦ !isEnd c
  let spaced := match cs.drop word.length with
    | ' ' :: rest => word ++ ' ' :: rest.takeWhile fun c ↦ !isEnd c
    | _ => word
  let rest := cs.drop word.length
  if word = ['t', 'r', 'u', 'e'] then some (.bool true, rest)
  else if word = ['f', 'a', 'l', 's', 'e'] then some (.bool false, rest)
  else if spaced.length > word.length && isTime spaced then some (.other, cs.drop spaced.length)
  else match int? word with
    | some n => some (.int n, rest)
    | none => if isFloat word || isTime word then some (.other, rest) else none

mutual

def value : Nat → Reader (Data × List Key)
  | 0, _ => none
  | fuel + 1, cs => match cs with
    | '[' :: rest => do
      let ((items, keys), rest) ← listItems fuel rest
      return ((.list items, keys), rest)
    | '\x7b' :: rest => do
      let (entries, rest) ← match skipBlanks rest with
        | '\x7d' :: rest => some ([], rest)
        | rest => inlineEntries fuel rest
      let paths := entries.map (·.1)
      let clash := paths.zipIdx.any fun (p, i) ↦ paths.zipIdx.any fun (q, k) ↦ i ≠ k && p.isPrefixOf q
      if clash then none
      let record := entries.filterMap fun (k, d, _) ↦ k.head?.map (·, d)
      return ((.record record, entries.flatMap fun (k, _, inner) ↦ k :: inner.map (k ++ ·)), rest)
    | cs => match text? cs with
      | some (s, rest) => some ((.text s, []), rest)
      | none => (word? cs).map fun (d, rest) ↦ ((d, []), rest)

def listItems : Nat → Reader (List Data × List Key)
  | 0, _ => none
  | fuel + 1, cs => match skipVoid cs.length cs with
    | ']' :: rest => some (([], []), rest)
    | cs => do
      let ((d, keys), rest) ← value fuel cs
      match skipVoid rest.length rest with
      | ']' :: rest => return (([d], keys), rest)
      | ',' :: rest =>
        let ((more, others), rest) ← listItems fuel rest
        return ((d :: more, keys ++ others), rest)
      | _ => none

def inlineEntries : Nat → Reader (List (Key × Data × List Key))
  | 0, _ => none
  | fuel + 1, cs => do
    let (k, rest) ← key? (cs.length + 1) cs
    let '=' :: rest := skipBlanks rest | none
    let ((d, keys), rest) ← value fuel (skipBlanks rest)
    match skipBlanks rest with
    | '\x7d' :: rest => return ([(k, d, keys)], rest)
    | ',' :: rest =>
      let (more, rest) ← inlineEntries fuel rest
      return ((k, d, keys) :: more, rest)
    | _ => none

end

namespace Document

def define (doc : Document) (k : Key) (d : Definition) : Document :=
  { doc with definitions := doc.definitions.filter (·.1 ≠ k) ++ [(k, d)] }

def pass (doc : Document) (k : Key) : Option Document :=
  ((List.range k.length).drop 1).foldlM (fun doc n ↦
    let p := k.take n
    match doc.definitions.lookup p with
    | none => some (doc.define p .passage)
    | some (.value _) => none
    | some _ => some doc) doc

/-- A table with a head of its own; only one that was passed through may exist already. -/
def openTable (doc : Document) (k : Key) : Option Document := do
  let doc ← doc.pass k
  match doc.definitions.lookup k with
  | none | some .passage => return { doc.define k .table with keys := doc.keys ++ [k] }
  | some _ => none

def openItem (doc : Document) (k : Key) : Option Document := do
  let doc ← doc.pass k
  match doc.definitions.lookup k with
  | none => return { doc.define k .items with keys := doc.keys ++ [k] }
  | some .items =>
    return { definitions := doc.definitions.filter (fun e ↦ !(k.isPrefixOf e.1)) ++ [(k, .items)]
             keys := doc.keys ++ [k] }
  | some _ => none

def assign (doc : Document) (k : Key) (d : Data) (inner : List Key) : Option Document := do
  let doc ← doc.pass k
  match doc.definitions.lookup k with
  | none => return { doc.define k (.value d) with keys := doc.keys ++ k :: inner.map (k ++ ·) }
  | some _ => none

end Document

/-- The statements of a document from one on, inside the table `context`. -/
def statements : Nat → Key → Document → List Char → Option Document
  | 0, _, _, _ => none
  | fuel + 1, context, doc, cs => match skipVoid (cs.length + 1) cs with
    | [] => some doc
    | '[' :: '[' :: rest => do
      let (k, rest) ← key? (rest.length + 1) rest
      let ']' :: ']' :: rest := rest | none
      statements fuel k (← doc.openItem k) (← endLine? rest)
    | '[' :: rest => do
      let (k, rest) ← key? (rest.length + 1) rest
      let ']' :: rest := rest | none
      statements fuel k (← doc.openTable k) (← endLine? rest)
    | cs => do
      let (k, rest) ← key? (cs.length + 1) cs
      let '=' :: rest := rest | none
      let ((d, inner), rest) ← value (cs.length + 1) (skipBlanks rest)
      statements fuel context (← doc.assign (context ++ k) d inner) (← endLine? rest)

def decode? (bs : Bytes) : Option Document := do
  let s ← textOfBytes? bs
  let cs := match s.toList with
    | c :: cs => if c.toNat = 0xFEFF then cs else c :: cs
    | [] => []
  statements (cs.length + 1) [] {} cs

def partText (s : String) : String :=
  if s ≠ "" && s.toList.all isBare then s
  else String.ofList ('"' :: s.toList.flatMap (fun c ↦ match c.toNat with
    | 0x22 => ['\\', '"']
    | 0x5C => ['\\', '\\']
    | 8 => ['\\', 'b']
    | 9 => ['\\', 't']
    | 10 => ['\\', 'n']
    | 12 => ['\\', 'f']
    | 13 => ['\\', 'r']
    | n => if n < 32 || n = 127 then ['\\', 'u'] ++ (hexPadded 4 n).toList else [c]) ++ ['"'])

def keyText (k : Key) : String := ".".intercalate (k.map partText)

end CilSsa.Codec.Toml
