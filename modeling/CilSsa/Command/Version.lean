import CilSsa.Text.Blank
import CilSsa.Text.Json
import CilSsa.Text.Hex
import CilSsa.Text.Style

namespace CilSsa.Command

open CilSsa.Text

structure BuildInfo where
  version : String := "0.1.0-dev"
  commit : String := ""
  message : String := ""
  date : String := ""
deriving DecidableEq

/-- Build information without blanks around it; a version that is not told reads `dev`. -/
def BuildInfo.current (b : BuildInfo) : BuildInfo where
  version := if trim b.version = "" then "dev" else trim b.version
  commit := trim b.commit
  message := trim b.message
  date := trim b.date

/-- A version of three numbers with its numbers in colours; others stay as they are. -/
def prettyVersion (colored : Bool) (v : String) : String :=
  let core := String.ofList (v.toList.takeWhile fun c ↦ c ≠ '-' && c ≠ '+')
  let suffix := String.ofList (v.toList.dropWhile fun c ↦ c ≠ '-' && c ≠ '+')
  match splitAt core '.' with
  | [major, minor, patch] =>
    paint colored [.yellow, .bold] major ++ "." ++ paint colored [.green, .bold] minor ++ "." ++
      paint colored [.blue, .bold] patch ++ suffix
  | _ => v

structure VersionReport where
  version : String
  target : String
  runtime : String
  commit : String := ""
  message : String := ""
  built : String := ""

def VersionReport.pretty (r : VersionReport) (colored : Bool) : String :=
  let line (label s : String) := if s = "" then "" else padRight 8 ' ' (label ++ ":") ++ " " ++ s ++ "\n"
  "iljit " ++ prettyVersion colored r.version ++ " (" ++ r.target ++ ", " ++ r.runtime ++ ")\n" ++
    line "commit" r.commit ++ line "message" r.message ++ line "built" r.built

def VersionReport.json (r : VersionReport) : String :=
  let always := [("tool", "iljit"), ("version", r.version), ("target", r.target), ("go", r.runtime)]
  let told := [("git_commit", r.commit), ("git_message", r.message), ("build_date", r.built)].filter (·.2 ≠ "")
  "\x7b\n" ++ ",\n".intercalate ((always ++ told).map fun (k, v) ↦ "  " ++ jsonString k ++ ": " ++ jsonString v) ++
    "\n\x7d\n"

end CilSsa.Command

