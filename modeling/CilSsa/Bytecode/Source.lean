import CilSsa.Bytecode.Assembler
import CilSsa.Text.Blank
import CilSsa.Text.Cases

namespace CilSsa.Bytecode

open CilSsa.Metadata CilSsa.Number CilSsa.Text

/-- Why a line is refused; `ε` is what the resolver of tokens can complain about. -/
inductive LineError (ε : Type)
  | unknownMnemonic (word : String)
  | operandMissing (op : Opcode)
  | operandUnexpected (op : Opcode) (text : String)
  | number (op : Opcode) (e : LiteralError)
  | noResolver (op : Opcode) (text : String)
  | token (op : Opcode) (text : String) (e : ε)
  | badLabel (op : Opcode) (text : String)
  | badTableLabel (text : String)

inductive SourceError (ε : Type)
  | line (number : Nat) (e : LineError ε)
  | lineTooLong
  | assembly (e : AssemblyError)

def LineError.message {ε : Type} (inner : ε → String) : LineError ε → String
  | .unknownMnemonic w => "unknown mnemonic " ++ quote w
  | .operandMissing op => op.mnemonic ++ " requires an operand"
  | .operandUnexpected op t => op.mnemonic ++ " takes no operand, got " ++ quote t
  | .number op e => op.mnemonic ++ ": " ++ e.message
  | .noResolver op t => op.mnemonic ++ ": no token resolver for " ++ quote t
  | .token op t e => op.mnemonic ++ " " ++ t ++ ": " ++ inner e
  | .badLabel op t => op.mnemonic ++ ": invalid label " ++ quote t
  | .badTableLabel t => "switch: invalid label " ++ quote t

def SourceError.message {ε : Type} (inner : ε → String) : SourceError ε → String
  | .line n e => "line " ++ toString n ++ ": " ++ e.message inner
  | .lineTooLong => "bufio.Scanner: token too long"
  | .assembly e => e.message

/-- A resolver of the tokens that operands name; it may note what it was asked in a state. -/
abbrev TokenResolver (σ ε : Type) := Opcode → String → σ → Except ε (Token × σ)

def isLabelStart (c : Char) : Bool := c = '_' || ('a' ≤ c && c ≤ 'z') || ('A' ≤ c && c ≤ 'Z')

def isLabelPart (c : Char) : Bool := isLabelStart c || ('0' ≤ c && c ≤ '9')

def isLabel (s : String) : Bool :=
  match trimChars s.toList with
  | [] => false
  | c :: cs => isLabelStart c && cs.all isLabelPart

def stripComment (line : List Char) : List Char :=
  trimChars (match cutChars "//".toList line with
    | some (before, _) => before
    | none => line)

theorem cutChars_length {sep cs a b : List Char} (h : cutChars sep cs = some (a, b)) (hs : sep ≠ []) :
    b.length < cs.length := by
  induction cs generalizing a b with
  | nil => simp [cutChars, hs] at h
  | cons c cs ih =>
    unfold cutChars at h
    split at h
    · simp only [Option.some.injEq, Prod.mk.injEq] at h
      obtain ⟨_, rfl⟩ := h
      have : 0 < sep.length := List.length_pos_iff.2 hs
      simp only [List.length_drop, List.length_cons]
      omega
    · simp only [Option.map_eq_some_iff, Prod.mk.injEq] at h
      obtain ⟨⟨x, y⟩, hxy, _, rfl⟩ := h
      have := ih hxy
      simp only [List.length_cons]
      omega

theorem trimChars_length (cs : List Char) : (trimChars cs).length ≤ cs.length := by
  simp only [trimChars, trimLeftChars, List.length_reverse]
  calc _ ≤ ((cs.dropWhile isBlank).reverse).length := (List.dropWhile_suffix _).length_le
    _ = (cs.dropWhile isBlank).length := List.length_reverse
    _ ≤ cs.length := (List.dropWhile_suffix _).length_le

def splitLabels (line : List Char) : List String × List Char :=
  match _hcut : cutChars [':'] line with
  | none => ([], line)
  | some (name, rest) =>
    if isLabel (String.ofList name) then
      let (more, body) := splitLabels (trimChars rest)
      (trim (String.ofList name) :: more, body)
    else ([], line)
termination_by line.length
decreasing_by
  have h1 := cutChars_length _hcut (by simp)
  have h2 := trimChars_length rest
  omega

def tableLabels (operand : String) : List String :=
  let s := (after? operand "(").getD operand
  let s := (before? s ")").getD s
  (splitAt s ',').map trim

section

variable {σ ε : Type}

def emitPlain (a : Assembler) (op : Opcode) (operand : String) : Except (LineError ε) Assembler :=
  let code := op.code
  let number {α : Type} (r : Except LiteralError α) : Except (LineError ε) α := r.mapError (.number op)
  match op.operandKind with
  | .none | .token => .ok (a.emit code)
  | .int8 => do return a.emitByte code (wordOfInt (← number (parseSigned 8 operand))).toNat
  | .uint8 => do return a.emitByte code (← number (parseUnsigned 8 operand))
  | .uint16 => do return a.emitIndex code (← number (parseUnsigned 16 operand))
  | .int32 => do return a.emitInt32 code (wordOfInt (← number (parseSigned 32 operand))).toNat
  | .int64 => do return a.emitInt64 code (wordOfInt (← number (parseSigned 64 operand))).toNat
  | .float32 => do return a.emitFloat32 code (← number (parseFloat .single operand)).toUInt32
  | .float64 => do return a.emitFloat64 code (← number (parseFloat .double operand)).toUInt64
  | .branch8 | .branch32 =>
    if isLabel operand then .ok (a.emitBranch code operand) else .error (.badLabel op operand)
  | .table =>
    let labels := tableLabels operand
    match labels.find? fun l ↦ !isLabel l with
    | some l => .error (.badTableLabel l)
    | none => .ok (a.emitSwitch labels)

def emitOperand (resolver : Option (TokenResolver σ ε)) (a : Assembler) (s : σ) (op : Opcode)
    (operand : String) : Except (LineError ε) (Assembler × σ) :=
  if op.operandKind = .token then
    match resolver with
    | none => .error (.noResolver op operand)
    | some r => match r op operand s with
      | .error e => .error (.token op operand e)
      | .ok (t, s) => .ok (a.emitToken op.code t, s)
  else (emitPlain a op operand).map (·, s)

def emitLine (resolver : Option (TokenResolver σ ε)) (a : Assembler) (s : σ) (line : List Char) :
    Except (LineError ε) (Assembler × σ) :=
  let (word, rest) := (cutChars [' '] line).getD (line, [])
  let operand := trim (String.ofList rest)
  match Opcode.ofMnemonic? (toLower (String.ofList word)) with
  | none => .error (.unknownMnemonic (String.ofList word))
  | some op =>
    if op.operandKind ≠ .none ∧ operand = "" then .error (.operandMissing op)
    else if op.operandKind = .none ∧ operand ≠ "" then .error (.operandUnexpected op operand)
    else emitOperand resolver a s op operand

def lineLimit : Nat := 65536

def assembleLines (resolver : Option (TokenResolver σ ε)) :
    Nat → Assembler → σ → List (List Char) → Except (SourceError ε) (Assembler × σ)
  | _, a, s, [] => .ok (a, s)
  | n, a, s, line :: rest =>
    if lineLimit ≤ byteLength line then .error .lineTooLong
    else
      let (labels, body) := splitLabels (stripComment (chomp line))
      let a := labels.foldl Assembler.mark a
      if body = [] then assembleLines resolver (n + 1) a s rest
      else match emitLine resolver a s body with
        | .error e => .error (.line n e)
        | .ok (a, s) => assembleLines resolver (n + 1) a s rest

def assemble (resolver : Option (TokenResolver σ ε)) (s : σ) (src : String) :
    Except (SourceError ε) (Bytes × σ) :=
  match assembleLines resolver 1 {} s (rawLines src) with
  | .error e => .error e
  | .ok (a, s) => match a.bytes with
    | .error e => .error (.assembly e)
    | .ok bs => .ok (bs, s)

end

end CilSsa.Bytecode
