import CilSsa.Codec.Toml
import CilSsa.Files.Store
import CilSsa.Text.Cases
import CilSsa.Text.Quoted

namespace CilSsa.Command

open CilSsa.Codec CilSsa.Files CilSsa.Number CilSsa.Text

structure Manifest where
  path : String := ""
  optimize : Option Bool := none
  jobs : Int := 0
  traceLevel : String := ""
  traceMode : String := ""
  traceOutput : String := ""
  cacheEnabled : Bool := false
  cacheDir : String := ""
deriving DecidableEq

inductive ManifestError
  | syntaxOf (path : String)
  | unreadable (path : String) (e : FileError)
  | unknownKeys (path : String) (keys : List Toml.Key)
  | negativeJobs (path : String)
  | stat (path : String) (e : FileError)

def ManifestError.message : ManifestError → String
  | .syntaxOf p => p ++ ": failed to parse TOML"
  | .unreadable p e => p ++ ": failed to parse TOML: " ++ e.message
  | .unknownKeys p ks => p ++ ": unknown keys: " ++ ", ".intercalate (ks.map Toml.keyText)
  | .negativeJobs p => p ++ ": [jit].jobs must not be negative"
  | .stat p e => "failed to stat " ++ quote p ++ ": " ++ e.message

def manifestName : String := "iljit.toml"

def manifestKeys : List (String × List String) :=
  [("jit", ["optimize", "jobs"]), ("trace", ["level", "mode", "output"]), ("cache", ["enabled", "dir"])]

def matching (names : List String) (part : String) : Option String :=
  (names.find? (· == part)).or (names.find? fun n ↦ toLower part == n)

def knownKey? : Toml.Key → Option Toml.Key
  | [section'] => (matching (manifestKeys.map (·.1)) section').map fun s ↦ [s]
  | [section', field] => do
    let s ← matching (manifestKeys.map (·.1)) section'
    let f ← matching ((manifestKeys.lookup s).getD []) field
    return [s, f]
  | _ => none

/-- The settings by their known keys; a section that is given as one value is spread out. -/
def settings (doc : Toml.Document) : List (Toml.Key × Toml.Definition) :=
  doc.definitions.flatMap fun (k, d) ↦ match knownKey? k with
    | none => []
    | some [s] => match d with
      | .value (.record es) => es.filterMap fun (f, v) ↦ (knownKey? [s, f]).map (·, .value v)
      | d => [([s], d)]
    | some key => [(key, d)]

/-- Reads one setting into a manifest; a value of another type is refused. -/
def Manifest.set (m : Manifest) (k : Toml.Key) (d : Toml.Definition) : Option Manifest :=
  match k, d with
  | [_], .table | [_], .passage => some m
  | ["jit", "optimize"], .value (.bool b) => some { m with optimize := some b }
  | ["jit", "jobs"], .value (.int n) => some { m with jobs := n }
  | ["trace", "level"], .value (.text s) => some { m with traceLevel := s }
  | ["trace", "mode"], .value (.text s) => some { m with traceMode := s }
  | ["trace", "output"], .value (.text s) => some { m with traceOutput := s }
  | ["cache", "enabled"], .value (.bool b) => some { m with cacheEnabled := b }
  | ["cache", "dir"], .value (.text s) => some { m with cacheDir := s }
  | _, _ => none

/-- The manifest that the bytes of a file say. The cache lies relative to the manifest. -/
def Manifest.parse (path : String) (bs : Bytes) : Except ManifestError Manifest := do
  let some doc := Toml.decode? bs | throw (.syntaxOf path)
  let some m := (settings doc).foldlM (fun m (k, d) ↦ Manifest.set m k d) { path } | throw (.syntaxOf path)
  let unknown := doc.keys.filter fun k ↦ (knownKey? k).isNone
  if !unknown.isEmpty then throw (.unknownKeys path unknown)
  if m.jobs < 0 then throw (.negativeJobs path)
  if m.cacheDir ≠ "" && !isAbsolute m.cacheDir then return { m with cacheDir := join (directory path) m.cacheDir }
  return m

def Manifest.load (s : FileStore) (path : String) : Except ManifestError Manifest :=
  match s.read path with
  | .ok bs => Manifest.parse path bs
  | .error e => .error (.unreadable path e)

def findManifest (s : FileStore) : List String → Except ManifestError (Option String)
  | [] => .ok none
  | d :: ds =>
    let candidate := join d manifestName
    match s.stat candidate with
    | .ok () => .ok (some candidate)
    | .error e => if e.problem = .missing then findManifest s ds else .error (.stat candidate e)

def Manifest.discover (s : FileStore) (start : String) : Except ManifestError Manifest := do
  let dir := s.absolute (if start = "" then "." else start)
  match ← findManifest s (ancestors dir.length dir) with
  | some path => Manifest.load s path
  | none => return {}

inductive Source
  | flag | env | file | default
deriving DecidableEq

def Source.text : Source → String
  | .flag => "flag"
  | .env => "env"
  | .file => "file"
  | .default => "default"

def optimizeVariable : String := "ILJIT_OPTIMIZE"

def parseToggle (v : String) : Except LiteralError Bool :=
  match toLower v with
  | "on" | "yes" => .ok true
  | "off" | "no" => .ok false
  | _ => parseBool v

/-- Whether to optimise: the flag decides, then the variable, then the manifest. -/
def decideOptimize (m : Option Manifest) (flag : Option Bool) (env : String) : Except LiteralError Bool × Source :=
  match flag with
  | some b => (.ok b, .flag)
  | none =>
    if trim env ≠ "" then (parseToggle (trim env), .env)
    else match m.bind (·.optimize) with
      | some b => (.ok b, .file)
      | none => (.ok true, .default)

end CilSsa.Command
