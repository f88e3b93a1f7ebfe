import CilSsa.Text.Blank
import CilSsa.Text.Cases
import CilSsa.Text.Json
import CilSsa.Text.Quoted

namespace CilSsa.Trace

open CilSsa.Text

inductive EventKind
  | begin | finish | point | heartbeat | other (code : Nat)
deriving DecidableEq

def EventKind.ofCode (code : Nat) : EventKind :=
  match code % 256 with
  | 1 => .begin
  | 2 => .finish
  | 3 => .point
  | 4 => .heartbeat
  | n => .other n

def EventKind.text : EventKind → String
  | .begin => "begin"
  | .finish => "end"
  | .point => "point"
  | .heartbeat => "heartbeat"
  | .other _ => "unknown"

def EventKind.ofText? (s : String) : Option EventKind :=
  [EventKind.begin, .finish, .point, .heartbeat].find? fun k ↦ k.text == s

/-- The granularity of an event; a lower rank is coarser. -/
inductive Scope
  | command | stage | method | block | other (rank : Nat)
deriving DecidableEq

def Scope.ofRank (rank : Nat) : Scope :=
  match rank % 256 with
  | 1 => .command
  | 2 => .stage
  | 3 => .method
  | 4 => .block
  | n => .other n

def Scope.rank : Scope → Nat
  | .command => 1
  | .stage => 2
  | .method => 3
  | .block => 4
  | .other n => n

def Scope.text : Scope → String
  | .command => "command"
  | .stage => "stage"
  | .method => "method"
  | .block => "block"
  | .other _ => "unknown"

def Scope.ofText? (s : String) : Option Scope :=
  [Scope.command, .stage, .method, .block].find? fun k ↦ k.text == s

/-- A trace record. `openSpans` counts the spans that are open at a heartbeat. -/
structure Event where
  seq : Nat := 0
  kind : EventKind := .other 0
  scope : Scope := .other 0
  span : Nat := 0
  parent : Nat := 0
  name : String := ""
  detail : String := ""
  failed : Bool := false
  attrs : List (String × String) := []
  openSpans : Int := 0
deriving DecidableEq

inductive Level
  | off | error | phase | detail | debug | other (code : Nat)
deriving DecidableEq

namespace Level

def all : List Level := [.off, .error, .phase, .detail, .debug]

def text : Level → String
  | .off => "off"
  | .error => "error"
  | .phase => "phase"
  | .detail => "detail"
  | .debug => "debug"
  | .other _ => "unknown"

def ofCode (n : Nat) : Level := all.getD (n % 256) (.other (n % 256))

def isOn (l : Level) : Bool := l != .off

def covers (l : Level) (s : Scope) : Bool :=
  match l with
  | .phase => s.rank ≤ 2
  | .detail => s.rank ≤ 3
  | .debug => true
  | .off | .error | .other _ => false

def allows (l : Level) (e : Event) : Bool :=
  l.isOn && (e.failed || e.kind == .heartbeat || l.covers e.scope)

end Level

/-- How events are written; `auto` goes by the name of the output. -/
inductive Format
  | auto | text | ndjson
deriving DecidableEq

inductive Mode
  | stream | ring | both | other (code : Nat)
deriving DecidableEq

def Mode.text : Mode → String
  | .stream => "stream"
  | .ring => "ring"
  | .both => "both"
  | .other _ => "unknown"

def Mode.ofCode (code : Nat) : Mode :=
  match code % 256 with
  | 1 => .stream
  | 2 => .ring
  | 3 => .both
  | n => .other n

inductive SettingError
  | level (text : String)
  | mode (text : String)
  | format (text : String)
deriving DecidableEq

def SettingError.message : SettingError → String
  | .level s => "invalid trace level: " ++ quote s ++ " (expected: off|error|phase|detail|debug)"
  | .mode s => "invalid storage mode: " ++ quote s ++ " (expected: stream|ring|both)"
  | .format s => "invalid trace format: " ++ quote s ++ " (expected: auto|text|ndjson)"

def Level.parse (s : String) : Except SettingError Level :=
  let low := toLower s
  if low = "" then .ok .off
  else match Level.all.find? fun l ↦ l.text == low with
    | some l => .ok l
    | none => .error (.level low)

def Mode.parse (s : String) : Except SettingError Mode :=
  match toLower s with
  | "stream" => .ok .stream
  | "ring" => .ok .ring
  | "both" => .ok .both
  | _ => .error (.mode s)

def Format.parse (s : String) : Except SettingError Format :=
  match toLower s with
  | "" | "auto" => .ok .auto
  | "text" => .ok .text
  | "ndjson" | "json" => .ok .ndjson
  | _ => .error (.format s)

def Format.forPath (path : String) : Format :=
  if (before? path ".ndjson").isSome || (before? path ".jsonl").isSome then .ndjson else .text

namespace Event

variable (e : Event)

def mark : String :=
  if e.failed then "x "
  else match e.kind with
    | .begin => "→ "
    | .finish => "← "
    | .point => "• "
    | .heartbeat => "♡ "
    | .other _ => ""

/-- `#seq [scope] mark name (detail) {k=v}`, nested events being indented once. -/
def line : String :=
  "#" ++ padLeft 6 '0' (toString e.seq) ++ " [" ++ e.scope.text ++ "] " ++
  (if 0 < e.parent then "  " else "") ++ e.mark ++ e.name ++
  (if e.detail = "" then "" else " (" ++ e.detail ++ ")") ++
  (if e.kind = .heartbeat then " open=" ++ toString e.openSpans else "") ++
  (if e.attrs.isEmpty then "" else
    " \x7b" ++ ", ".intercalate (e.attrs.map fun (k, v) ↦ k ++ "=" ++ v) ++ "\x7d")

def json (time : String) : String :=
  let always : List (String × String) :=
    [("time", jsonString time), ("seq", toString e.seq), ("kind", jsonString e.kind.text),
     ("scope", jsonString e.scope.text)]
  let ids := (if e.span = 0 then [] else [("span", toString e.span)]) ++
    (if e.parent = 0 then [] else [("parent", toString e.parent)])
  let attr (p : String × String) : String :=
    "\x7b\"k\":" ++ jsonString p.1 ++ ",\"v\":" ++ jsonString p.2 ++ "\x7d"
  let tail := (if e.detail = "" then [] else [("detail", jsonString e.detail)]) ++
    (if e.failed then [("failed", "true")] else []) ++
    (if e.attrs.isEmpty then [] else [("attrs", "[" ++ ",".intercalate (e.attrs.map attr) ++ "]")]) ++
    (if e.openSpans = 0 then [] else [("open", toString e.openSpans)])
  let fields := always ++ ids ++ [("name", jsonString e.name)] ++ tail
  "\x7b" ++ ",".intercalate (fields.map fun (k, v) ↦ jsonString k ++ ":" ++ v) ++ "\x7d"

def render (format : Format) (time : String) : String :=
  match format with
  | .ndjson => e.json time
  | .auto | .text => e.line

end Event

end CilSsa.Trace
