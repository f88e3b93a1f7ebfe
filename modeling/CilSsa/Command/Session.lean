import CilSsa.Command.Grammar
import CilSsa.Command.Manifest
import CilSsa.Command.Scalar
import CilSsa.Command.Switch
import CilSsa.Command.Version
import CilSsa.Pipeline.Compile
import CilSsa.Text.Style
import CilSsa.Trace.Setup

namespace CilSsa.Command

open CilSsa.Files CilSsa.Image CilSsa.Lowering CilSsa.Number CilSsa.Pipeline CilSsa.Text CilSsa.Trace

structure Environment where
  /-- The variable on optimisation. -/
  optimize : String := ""
  cacheHome : String := ""
  home : String := ""
  stdoutIsTerminal : Bool := false
  stderrIsTerminal : Bool := false
  target : String := "x86_64-linux"
  /-- What the tool runs on. -/
  runtime : String := ""
  build : BuildInfo := {}
  /-- The time of the events in traces. -/
  now : String := ""

inductive Profile
  | cpu | heap | runtime
deriving DecidableEq

def Profile.name : Profile → String
  | .cpu => "cpu profile"
  | .heap => "heap profile"
  | .runtime => "runtime trace"

inductive CommandError
  | usage (e : UsageError)
  | switch (e : SwitchError)
  | manifest (e : ManifestError)
  | optimize (e : LiteralError)
  | profile (p : Profile) (e : FileError)
  | setting (e : SettingError)
  | tracer (e : SetupError)
  | pipeline (e : PipelineError)
  | cache (e : FileError)
  | noHome
  | file (e : FileError)
  | read (e : ReadError)
  | encode (e : Codec.CodecError)
  | build (e : BuildError)
  | failedMethods (failed total : Nat)
  | unpartitioned (failed total : Nat)
  | methodCount (n : Nat)
  | instanceMethod (method : String)
  | argumentCount (method : String) (wanted got : Nat)
  | argument (index : Nat) (e : ArgumentError)
  | invoke (e : InvokeError)
  | checkImports (image : String) (imports : List String)
  | unknownFormat (text : String)
  /-- A function that does not verify ends the tool at once. -/
  | rejected (r : Rejection)

def CommandError.message : CommandError → String
  | .usage e => e.message
  | .switch e => e.message
  | .manifest e => e.message
  | .optimize e => optimizeVariable ++ ": " ++ e.message
  | .profile p e => p.name ++ ": " ++ e.message
  | .setting e => e.message
  | .tracer e => "failed to create tracer: " ++ e.message
  | .pipeline e => e.message
  | .cache e => "disk cache: " ++ e.message
  | .noHome => "disk cache: $HOME is not defined"
  | .file e => e.message
  | .read e => e.message
  | .encode e => e.message
  | .build e => e.message
  | .failedMethods k n => toString k ++ " of " ++ toString n ++ " methods failed to compile"
  | .unpartitioned k n => toString k ++ " of " ++ toString n ++ " methods could not be partitioned"
  | .methodCount n => "run needs exactly one --method, got " ++ toString n
  | .instanceMethod m => m ++ " is an instance method; run only invokes static methods"
  | .argumentCount m n k => m ++ " takes " ++ toString n ++ " arguments, got " ++ toString k
  | .argument i e => "argument " ++ toString i ++ ": " ++ e.message
  | .invoke e => e.message
  | .checkImports i is => "--check cannot build " ++ i ++ " on its own: it imports [" ++ " ".intercalate is ++ "]"
  | .unknownFormat s => "unsupported format " ++ quote s ++ " (must be pretty or json)"
  | .rejected r => r.message

/-- What a command has done so far. Its standard error is that of the traces, since both write there in turn. -/
structure Console where
  run : Run
  stdout : String := ""
  colored : Bool := false

abbrev Action := ExceptT CommandError (StateM Console)

def orFail {α ε : Type} (f : ε → CommandError) (x : Except ε α) : Action α :=
  match x with
  | .ok a => return a
  | .error e => throw (f e)

def say (s : String) : Action Unit := modify fun c ↦ { c with stdout := c.stdout ++ s }

def Console.complain (c : Console) (s : String) : Console :=
  { c with run := { c.run with tracing := { c.run.tracing with stderr := c.run.tracing.stderr ++ s } } }

def complain (s : String) : Action Unit := modify (·.complain s)

def painted (attributes : List Attribute) (s : String) : Action String := do
  return paint (← get).colored attributes s

def getFiles : Action FileStore := do return (← get).run.files

def setFiles (files : FileStore) : Action Unit := modify fun c ↦ { c with run := { c.run with files } }

/-- A step of the pipeline. A function that does not verify ends the tool with the files as they are then. -/
def pipe {α : Type} (p : Pipe α) : Action α := do
  let c ← get
  let (r, run) := p.run.run c.run
  set { c with run }
  if let some (rejection, files) := run.rejection then
    set { c with run := { run with files, tracing := rejection.tracing } }
    throw (.rejected rejection)
  orFail .pipeline r

structure Session where
  args : Arguments
  manifest : Manifest
  optimize : Bool

/-- The tracer that flags and manifest ask for; flags that are not given leave it to the manifest. -/
def traceSetup (a : Arguments) (m : Manifest) : Except SettingError Setup := do
  let pick (name fromFile : String) := if !a.isGiven name && fromFile ≠ "" then fromFile else a.text name
  let path := pick "trace" m.traceOutput
  let level ← Level.parse (pick "trace-level" m.traceLevel)
  let level := if level = .off && path ≠ "" then .phase else level
  if level = .off then return {}
  let mode ← Mode.parse (pick "trace-mode" m.traceMode)
  let format ← Format.parse (a.text "trace-format")
  return { level, mode, format, path, ringSize := a.number "trace-ring-size" }

def openProfiles (a : Arguments) : Action Unit := do
  for (flag, p) in [("cpu-profile", Profile.cpu), ("runtime-trace", .runtime)] do
    if a.text flag ≠ "" then setFiles (← orFail (.profile p) ((← getFiles).write (a.text flag) []))

def closeProfiles (a : Arguments) (c : Console) : Console :=
  let path := a.text "mem-profile"
  if path = "" then c
  else match c.run.files.write path [] with
    | .ok files => { c with run := { c.run with files } }
    | .error e => c.complain ("profiling: " ++ Profile.heap.name ++ ": " ++ e.message ++ "\n")

def startTracing (s : Setup) (name : String) : Action Span := do
  let c ← get
  let (tracer, files, tracing) ← orFail .tracer (s.start c.run.files c.run.tracing)
  let (tracing, carrier, span) := ({ tracer : Carrier }).start tracing .command name
  set { c with run := { c.run with files, tracing, carrier } }
  return span

/-- Ends the span of the command. What is not on the screen yet is shown if something failed. -/
def stopTracing (s : Setup) (span : Span) (c : Console) : Console :=
  if !s.level.isOn then c
  else
    let t := c.run.carrier.tracer
    let tracing := (span.finish c.run.tracing "" false).1
    let failed := ((tracing.ring? t).map Ring.failures).getD [] ≠ []
    let shown := (s.mode = .ring || (s.path ≠ "" && s.path ≠ "-")) && failed
    let dump := if shown then "trace: recent events before the failure:\n" ++ tracing.dump t s.format else ""
    let c := Console.complain { c with run := { c.run with tracing } } dump
    let told (what : String) (c : Console) (x : Tracing × List String) : Console :=
      let c := { c with run := { c.run with tracing := x.1 } }
      if x.2.isEmpty then c else c.complain ("trace: " ++ what ++ " error: " ++ "\n".intercalate x.2 ++ "\n")
    let c := told "flush" c (c.run.tracing.flush t)
    told "close" c (c.run.tracing.close t)

def settle (env : Environment) (a : Arguments) : Action Session := do
  let color ← orFail .switch (Switch.parse "color" (a.text "color"))
  modify fun c ↦ { c with colored := color.isOn env.stdoutIsTerminal }
  let files ← getFiles
  let manifest ← orFail .manifest (Manifest.discover files files.cwd)
  let flag := if a.isGiven "optimize" then some (a.toggle "optimize") else none
  let optimize ← orFail .optimize (decideOptimize (some manifest) flag env.optimize).1
  return { args := a, manifest, optimize }

/-- Runs a command in a session: profiles and traces are closed whether it fails or not. -/
def inSession (env : Environment) (v : Verb) (a : Arguments) (command : Session → Action Unit) : Action Unit := do
  let s ← settle env a
  openProfiles a
  let closing {α : Type} (x : Action α) : Action α := tryCatch x fun e ↦ do
    modify (closeProfiles a)
    throw e
  let setup ← closing (orFail .setting (traceSetup a s.manifest))
  let span ← closing (startTracing setup v.path)
  let close : Action Unit := modify fun c ↦ closeProfiles a (stopTracing setup span c)
  tryCatch (command s) fun e ↦ do
    if let .rejected _ := e then throw e
    close
    throw e
  close

def Session.request (s : Session) : Request :=
  { images := s.args.rest, selectors := s.args.texts "method", optimize := s.optimize }

end CilSsa.Command
