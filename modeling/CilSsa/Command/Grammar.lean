import CilSsa.Command.Flags
import CilSsa.Text.Cases
import CilSsa.Text.Quoted

namespace CilSsa.Command

open CilSsa.Text

inductive Verb
  | compile | blocks | run | convert | version
deriving DecidableEq

def toolName : String := "iljit"

def Verb.all : List Verb := [.compile, .blocks, .run, .convert, .version]

def Verb.name : Verb → String
  | .compile => "compile"
  | .blocks => "blocks"
  | .run => "run"
  | .convert => "convert"
  | .version => "version"

def Verb.usage : Verb → String
  | .compile => "compile [flags] <image>..."
  | .blocks => "blocks [flags] <image>..."
  | .run => "run [flags] <image>... -m <selector> [--arg v]..."
  | .convert => "convert <in> <out>"
  | .version => "version"

def Verb.path (v : Verb) : String := toolName ++ " " ++ v.name

def commonFlags : List Flag :=
  [⟨"color", .text, none, "auto"⟩, ⟨"verbose", .counter, some 'v', "0"⟩, ⟨"optimize", .toggle, none, "true"⟩,
   ⟨"timings", .toggle, none, "false"⟩, ⟨"ui", .text, none, "auto"⟩, ⟨"trace", .text, none, ""⟩,
   ⟨"trace-level", .text, none, "off"⟩, ⟨"trace-mode", .text, none, "stream"⟩, ⟨"trace-format", .text, none, "auto"⟩,
   ⟨"trace-ring-size", .number, none, "4096"⟩, ⟨"trace-heartbeat", .duration, none, "0"⟩,
   ⟨"cpu-profile", .text, none, ""⟩, ⟨"mem-profile", .text, none, ""⟩, ⟨"runtime-trace", .text, none, ""⟩]

def helpFlag : Flag := ⟨"help", .toggle, some 'h', "false"⟩

def toolFlags : List Flag := commonFlags ++ [helpFlag, ⟨"version", .toggle, none, "false"⟩]

def selectionFlags : List Flag := [⟨"method", .texts, some 'm', ""⟩, ⟨"jobs", .number, some 'j', "0"⟩]

def Verb.ownFlags : Verb → List Flag
  | .compile => selectionFlags ++ [⟨"output", .text, some 'o', ""⟩, ⟨"cache", .toggle, none, "false"⟩,
      ⟨"cache-dir", .text, none, ""⟩, ⟨"clear-cache", .toggle, none, "false"⟩]
  | .blocks => selectionFlags
  | .run => selectionFlags ++ [⟨"arg", .texts, none, ""⟩]
  | .convert => [⟨"check", .toggle, none, "false"⟩]
  | .version => [⟨"hash", .toggle, none, "false"⟩, ⟨"message", .toggle, none, "false"⟩,
      ⟨"date", .toggle, none, "false"⟩, ⟨"full", .toggle, none, "false"⟩, ⟨"format", .text, none, "pretty"⟩]

def Verb.flags (v : Verb) : List Flag := commonFlags ++ v.ownFlags ++ [helpFlag]

inductive UsageError
  | unknownCommand (word : String) (similar : List String)
  | unexpected (word : String) (v : Verb)
  | tooFew (least got : Nat)
  | notExactly (wanted got : Nat)
  | flag (e : FlagError)

def UsageError.message : UsageError → String
  | .unknownCommand w similar =>
    "unknown command " ++ quote w ++ " for " ++ quote toolName ++
      (if similar.isEmpty then ""
        else "\n\nDid you mean this?\n" ++ String.join (similar.map fun s ↦ "\t" ++ s ++ "\n"))
  | .unexpected w v => "unknown command " ++ quote w ++ " for " ++ quote v.path
  | .tooFew n k => "requires at least " ++ toString n ++ " arg(s), only received " ++ toString k
  | .notExactly n k => "accepts " ++ toString n ++ " arg(s), received " ++ toString k
  | .flag e => e.message

def Verb.checkArguments (v : Verb) (rest : List String) : Except UsageError Unit :=
  match v, rest with
  | .version, w :: _ => .error (.unexpected w v)
  | .version, [] => .ok ()
  | .convert, rest => if rest.length = 2 then .ok () else .error (.notExactly 2 rest.length)
  | _, [] => .error (.tooFew 1 0)
  | _, _ => .ok ()

/-- How many letters have to be changed, added or left out to get from one word to another: a row of the table of all
beginnings. -/
def distanceRow (b : List Char) (row : List Nat) (c : Char) : List Nat :=
  match row with
  | [] => []
  | d :: ds => (d + 1) :: fill (d + 1) d ds b
where
  fill (left diagonal : Nat) : List Nat → List Char → List Nat
    | up :: ups, x :: xs =>
      let best := if x = c then diagonal else 1 + min diagonal (min up left)
      best :: fill best up ups xs
    | _, _ => []

def wordDistance (a b : String) : Nat :=
  ((a.toList.foldl (distanceRow b.toList) (List.range (b.length + 1))).getLast?).getD 0

def similarCommands (word : String) : List String :=
  (Verb.all.map Verb.name ++ ["completion"]).filter fun name ↦
    wordDistance (toLower word) name ≤ 2 || (after? name (toLower word)).isSome

def takesNext (flags : List Flag) (arg : String) : Bool :=
  let needsValue (f : Option Flag) := ((f.map (·.kind.implied?.isNone)).getD true)
  match arg.toList with
  | '-' :: '-' :: name => !name.contains '=' && needsValue (findFlag? flags (String.ofList name))
  | ['-', c] => c ≠ '=' && needsValue (findShort? flags c)
  | _ => false

/-- The first word that is neither a flag nor a flag's value, and the arguments without it. -/
def splitWord (flags : List Flag) : List String → Option (String × List String)
  | [] => none
  | arg :: rest =>
    if arg = "--" then none
    else if takesNext flags arg then match rest with
      | value :: next :: more => (splitWord flags (next :: more)).map fun (w, out) ↦ (w, arg :: value :: out)
      | _ => none
    else if arg ≠ "" && arg.toList.head? ≠ some '-' then some (arg, rest)
    else (splitWord flags rest).map fun (w, out) ↦ (w, arg :: out)

inductive Invocation
  | command (v : Verb) (args : Arguments)
  | help (v : Option Verb)
  | toolVersion

def parseInvocation (args : List String) : Except UsageError Invocation := do
  match splitWord commonFlags args with
  | none =>
    let a ← (Arguments.parse toolFlags args).mapError .flag
    return if a.toggle "help" then .help none else if a.toggle "version" then .toolVersion else .help none
  | some (word, others) =>
    match Verb.all.find? (·.name == word) with
    | none =>
      if word = "help" || word = "completion" then return .help none
      throw (.unknownCommand word (similarCommands word))
    | some v =>
      let a ← (Arguments.parse v.flags others).mapError .flag
      if a.toggle "help" then return .help (some v)
      v.checkArguments a.rest
      return .command v a

end CilSsa.Command
