import CilSsa.Files.Store
import CilSsa.Trace.Tracer

namespace CilSsa.Trace

open CilSsa.Files CilSsa.Text

/-- The settings of a tracer. A stream goes to memory, to standard error (no path, or `-`) or to a file. -/
structure Setup where
  level : Level := .off
  mode : Mode := .stream
  format : Format := .auto
  path : String := ""
  ringSize : Int := 0
  memory : Bool := false

inductive SetupError
  | unknownMode (mode : Mode)
  | cannotOpen (e : FileError)

def SetupError.message : SetupError → String
  | .unknownMode m => "unknown storage mode: " ++ m.text
  | .cannotOpen e => "failed to open trace output: " ++ e.message

namespace Setup

variable (c : Setup)

def destination : Destination :=
  if c.memory then .memory else if c.path = "" || c.path = "-" then .stderr else .file c.path

def streamFormat : Format := if c.format = .auto then .forPath c.path else c.format

def openStream (files : FileStore) (s : Tracing) : Except SetupError (TracerId × FileStore × Tracing) := do
  let files ← match c.destination with
    | .file path => (files.write path []).mapError .cannotOpen
    | _ => .ok files
  let (s, t) := s.addStream c.destination c.level c.streamFormat
  return (t, files, s)

def start (files : FileStore) (s : Tracing) : Except SetupError (TracerId × FileStore × Tracing) := do
  if !c.level.isOn then return (Tracing.nop, files, s)
  match c.mode with
  | .stream | .other 0 => c.openStream files s
  | .ring =>
    let (s, t) := s.addRing c.ringSize c.level
    return (t, files, s)
  | .both =>
    let (stream, files, s) ← c.openStream files s
    let (s, ring) := s.addRing c.ringSize c.level
    let (s, t) := s.addMulti c.level [stream, ring]
    return (t, files, s)
  | m => throw (.unknownMode m)

end Setup

namespace Tracing

def save (s : Tracing) (files : FileStore) : FileStore :=
  s.outputs.foldl (fun files o ↦ match o.destination with
    | .file path => (files.write path o.written).toOption.getD files
    | _ => files) files

def dump (s : Tracing) (t : TracerId) (f : Format) : String :=
  String.join ((((s.ring? t).map Ring.toList).getD []).map fun e ↦ e.render f s.time ++ "\n")

def memoryOf (s : Tracing) (t : TracerId) : Bytes :=
  (s.outputs? t).flatMap fun k ↦ match s.outputs[k]? with
    | some o => if o.destination = .memory then o.written else []
    | none => []

/-- A heart beats for a tracer that is on, at intervals that are positive. -/
def beats (s : Tracing) (t : TracerId) (interval : Int) : Bool := s.isOn t && 0 < interval

end Tracing

end CilSsa.Trace
