import CilSsa.Bytecode.Blocks
import CilSsa.Command.Session
import CilSsa.Terminal.Board

namespace CilSsa.Command

open CilSsa.Bytecode CilSsa.Codec CilSsa.Files CilSsa.Lowering CilSsa.Metadata CilSsa.Pipeline
  CilSsa.Terminal CilSsa.Text
open CilSsa.Trace hiding Span

/-- Where the cache is when nobody says: in the user's cache directory. -/
def defaultCacheDir (env : Environment) : Except CommandError String :=
  if env.cacheHome ≠ "" then .ok (join env.cacheHome toolName)
  else if env.home ≠ "" then .ok (join (join env.home ".cache") toolName)
  else .error .noHome

def cacheDir? (env : Environment) (s : Session) : Except CommandError (Option String) := do
  let enabled := if s.args.isGiven "cache" then s.args.toggle "cache" else s.manifest.cacheEnabled
  if !enabled then return none
  let told := if s.args.text "cache-dir" ≠ "" then s.args.text "cache-dir" else s.manifest.cacheDir
  if told ≠ "" then return some told
  return some (← defaultCacheDir env)

def openCache (env : Environment) (s : Session) : Action (Option DiskCache) := do
  match ← orFail id (cacheDir? env s) with
  | none => return none
  | some dir =>
    let (cache, files) ← orFail .cache (DiskCache.openIn (← getFiles) dir)
    setFiles (if s.args.toggle "clear-cache" then cache.clear files else files)
    return some cache

def listedCode (rs : List MethodResult) : String :=
  String.join (rs.filterMap fun r ↦ match r.outcome with
    | .ok e => some ("; " ++ r.selector ++ (if e.cached then " (cached)" else "") ++ "\n" ++ e.code ++ "\n")
    | .error _ => none)

def complainOf (selector message : String) : Action Unit := do
  complain ((← painted [.red] "failed") ++ " " ++ selector ++ ": " ++ message ++ "\n")

def runCompile (env : Environment) (s : Session) : Action Unit := do
  let cache ← openCache env s
  let ui ← orFail .switch (Switch.parse "ui" (s.args.text "ui"))
  let results ← pipe (compile { s.request with cache })
  if ui.isOn (env.stderrIsTerminal && !env.stdoutIsTerminal) then
    let c ← get
    let board := Board.ofProgress "compiling" c.run.progress
    complain (String.join ((board.lines c.colored).map (· ++ "\n")))
  let output := s.args.text "output"
  if output = "" then say (listedCode results)
  else setFiles (← orFail .file ((← getFiles).write output (utf8Bytes (listedCode results))))
  if s.args.toggle "timings" then complain (← get).run.timings.table
  let mut failed := 0
  for r in results do
    if let .error e := r.outcome then
      failed := failed + 1
      complainOf r.selector e.message
  if failed ≠ 0 then throw (.failedMethods failed results.length)

def blockListing (colored : Bool) (selector : String) (spans : List Span) : String :=
  let line (s : Span) :=
    paint colored [.cyan, .bold] (offsetLabel s.start ++ ".." ++ offsetLabel s.stop) ++
    (if s.fallsThrough then paint colored [.yellow] ("  falls through to " ++ offsetLabel s.stop) else "") ++ "\n" ++
    String.join (s.instrs.map fun i ↦ "  " ++ i.listed ++ "\n")
  "; " ++ selector ++ " (" ++ toString spans.length ++ " blocks)\n" ++ String.join (spans.map line) ++ "\n"

def runBlocks (s : Session) : Action Unit := do
  let p ← pipe (loadProgram s.args.rest)
  let targets ← orFail (.pipeline ∘ .target) (p.targets s.request.selectors)
  let mut failed := 0
  for t in targets do
    match t.method.body with
    | none => say ("; " ++ t.selector ++ ": no body\n\n")
    | some body => match discoverBlocks body.code with
      | .ok spans => say (blockListing (← get).colored t.selector spans)
      | .error e =>
        failed := failed + 1
        complainOf t.selector (e.message none)
  if failed ≠ 0 then throw (.unpartitioned failed targets.length)

/-- Reads an image in one format and writes it in another; it may be built first, if it stands alone. -/
def runConvert (s : Session) : Action Unit := do
  let source := s.args.rest.getD 0 ""
  let target := s.args.rest.getD 1 ""
  let (img, _) ← orFail .read (readImageFile (← getFiles) source)
  if s.args.toggle "check" then
    if img.imports ≠ [] then throw (.checkImports img.name img.imports)
    let _ ← orFail .build (img.build [] {})
  let bs ← orFail .encode (encodeFor .standard target img)
  setFiles (← orFail .file ((← getFiles).write target bs))
  let format (path : String) := ((Format.ofPath path).map Format.name).toOption.getD ""
  complain (img.name ++ ": " ++ format source ++ " -> " ++ format target ++ "\n")

def runVersion (env : Environment) (s : Session) : Action Unit := do
  let info := env.build.current
  let told (flag value : String) :=
    if s.args.toggle flag || s.args.toggle "full" then (if value = "" then "unknown" else value) else ""
  let report : VersionReport :=
    { version := info.version, target := env.target, runtime := env.runtime, commit := told "hash" info.commit
      message := told "message" info.message, built := told "date" info.date }
  match toLower (s.args.text "format") with
  | "json" => say report.json
  | "pretty" => say (report.pretty (← get).colored)
  | _ => throw (.unknownFormat (s.args.text "format"))

def readArguments (m : Method) (texts : List String) : Except CommandError (List UInt64) := do
  if texts.length ≠ m.params.length then throw (.argumentCount m.text m.params.length texts.length)
  ((m.params.zip texts).zipIdx).mapM fun ((p, s), i) ↦ (parseArgument p.type s).mapError (.argument i)

def runExecute (s : Session) : Action Unit := do
  let q := s.request
  match q.selectors with
  | [selector] =>
    let p ← pipe (loadProgram q.images)
    let t ← orFail (.pipeline ∘ .target) (p.find selector)
    let m := t.method
    if m.isInstance then throw (.instanceMethod m.text)
    let values ← orFail id (readArguments m (s.args.texts "arg"))
    let unit := CompilationUnit.create (p.graph.nameOf t.image) (.ofModules p.modules) q.optimize q.limits
    match getMethod p.world m unit with
    | (.error e, unit) =>
      if let some r := unit.rejections.head? then throw (.rejected { r with tracing := (← get).run.tracing })
      throw (.invoke (.compile e))
    | (.ok _, unit) =>
      modify fun c ↦ { c with run := { c.run with timings := c.run.timings.add .compile 0 } }
      let v ← orFail .invoke (unit.invoke p.world m values).1
      say (formatResult m.returnType v ++ "\n")
      if s.args.toggle "timings" then complain ((← get).run.timings.table ++ timingLine "run" 0)
  | selectors => throw (.methodCount selectors.length)

structure Outcome where
  exit : Nat
  stdout : String
  stderr : String
  files : FileStore

def helpText : Option Verb → String
  | some v => "Usage:\n  " ++ toolName ++ " " ++ v.usage ++ "\n"
  | none => "Usage:\n  " ++ toolName ++ " [command]\n\nAvailable Commands:\n" ++
      String.join (Verb.all.map fun v ↦ "  " ++ v.usage ++ "\n")

def runVerb (env : Environment) (v : Verb) (a : Arguments) : Action Unit :=
  inSession env v a fun s ↦ match v with
    | .compile => runCompile env s
    | .blocks => runBlocks s
    | .run => runExecute s
    | .convert => runConvert s
    | .version => runVersion env s

def runLine (env : Environment) (args : List String) : Action Unit := do
  match ← orFail .usage (parseInvocation args) with
  | .help v => say (helpText v)
  | .toolVersion => say (toolName ++ " version " ++ env.build.version ++ "\n")
  | .command v a => runVerb env v a

/-- Runs a command line. An error is told last, and makes the tool exit with one. -/
def runTool (env : Environment) (files : FileStore) (args : List String) : Outcome :=
  let (r, c) := (runLine env args).run.run { run := { files, tracing := { time := env.now } } }
  let (exit, c) := match r with
    | .ok () => (0, c)
    | .error (.rejected r) => (1, c.complain (toolName ++ ": " ++ r.message ++ "\n"))
    | .error e => (1, c.complain (paint c.colored [.red] "error:" ++ " " ++ e.message ++ "\n"))
  { exit, stdout := c.stdout, stderr := c.run.tracing.stderr, files := c.run.tracing.save c.run.files }

end CilSsa.Command

