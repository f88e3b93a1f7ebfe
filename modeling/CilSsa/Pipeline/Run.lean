import CilSsa.Codec.Format
import CilSsa.Image.Build
import CilSsa.Lowering.Request
import CilSsa.Pipeline.Cache
import CilSsa.Pipeline.Imports
import CilSsa.Pipeline.Progress

namespace CilSsa.Pipeline

open CilSsa.Codec CilSsa.Files CilSsa.Image CilSsa.Metadata CilSsa.Text CilSsa.Trace

inductive ReadError
  | codec (e : CodecError)
  | file (e : FileError)
  | malformed (path : String)

def ReadError.message : ReadError → String
  | .codec e => e.message
  | .file e => e.message
  | .malformed p => p ++ ": malformed document"

inductive TargetError
  | unterminated (selector : String)
  | noImage (selector image : String)
  | noMethod (selector : String)
  | ambiguous (selector : String)
deriving DecidableEq

def TargetError.message : TargetError → String
  | .unterminated s => "selector " ++ quote s ++ ": unterminated image qualifier"
  | .noImage s i => "selector " ++ quote s ++ ": no image named " ++ i
  | .noMethod s => "selector " ++ quote s ++ " matches no method"
  | .ambiguous s => "selector " ++ quote s ++ " is ambiguous; prefix it with [Image]"

inductive PipelineError
  | noImages
  | read (e : ReadError)
  | order (e : OrderError)
  | build (e : BuildError)
  | target (e : TargetError)

def PipelineError.message : PipelineError → String
  | .noImages => "no images given"
  | .read e => e.message
  | .order e => e.message
  | .build e => e.message
  | .target e => e.message

structure Run where
  files : FileStore
  tracing : Tracing := {}
  carrier : Carrier := {}
  progress : List Progress := []
  timings : Timings := []
  /-- The first function that did not verify, and the files as they were then. -/
  rejection : Option (Lowering.Rejection × FileStore) := none

abbrev Pipe := ExceptT PipelineError (StateM Run)

def report (item : String) (stage : Stage) (status : Status) : StateM Run Unit :=
  modify fun r ↦ { r with progress := r.progress ++ [{ item, stage, status, failed := status = .error }] }

def record (stage : Stage) : StateM Run Unit := modify fun r ↦ { r with timings := r.timings.add stage 0 }

/-- Runs a stage in a span of its own, which ends with a count, or as failed. -/
def inSpan {α : Type} (stage : Stage) (counted : String) (count : α → Nat) (c : Pipe α) : Pipe α := do
  let r ← get
  let (tracing, inner, span) := r.carrier.start r.tracing .stage stage.name
  set { r with tracing, carrier := inner }
  let finish (span : Span) (detail : String) (failed : Bool) : Pipe Unit :=
    modify fun r' ↦ { r' with tracing := (span.finish r'.tracing detail failed).1, carrier := r.carrier }
  let a ← tryCatch c fun e ↦ do
    finish span e.message true
    throw e
  finish (span.attr counted (toString (count a))) "ok" false
  return a

def readImageFile (files : FileStore) (path : String) : Except ReadError (Image × Bytes) := do
  let format ← (Format.ofPath path).mapError .codec
  let bs ← (files.read path).mapError .file
  match decodeImage .standard format bs with
  | .ok img => return (img, bs)
  | .error _ => throw (.malformed path)

end CilSsa.Pipeline
