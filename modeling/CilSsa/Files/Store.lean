import CilSsa.Text.Blank
import CilSsa.Text.Hex

namespace CilSsa.Files

open CilSsa.Text

def isAbsolute (p : String) : Bool := p.toList.head? == some '/'

/-- The elements of a path with `.` and empty ones left out and `..` resolved where possible; `done` is
reversed. -/
def cleanParts (rooted : Bool) (done : List String) : List String → List String
  | [] => done.reverse
  | p :: ps =>
    if p = "" || p = "." then cleanParts rooted done ps
    else if p = ".." then match done with
      | [] => cleanParts rooted (if rooted then [] else [".."]) ps
      | d :: rest => cleanParts rooted (if d = ".." then ".." :: done else rest) ps
    else cleanParts rooted (p :: done) ps

def clean (p : String) : String :=
  let rooted := isAbsolute p
  let parts := cleanParts rooted [] (splitAt p '/')
  if rooted then "/" ++ "/".intercalate parts
  else if parts.isEmpty then "." else "/".intercalate parts

def join (a b : String) : String :=
  if a = "" && b = "" then "" else if a = "" then clean b else if b = "" then clean a else clean (a ++ "/" ++ b)

def directory (p : String) : String :=
  clean (String.ofList (p.toList.reverse.dropWhile (· ≠ '/')).reverse)

def baseName (p : String) : String := String.ofList (p.toList.reverse.takeWhile (· ≠ '/')).reverse

def absolute (cwd p : String) : String := if isAbsolute p then clean p else join cwd p

/-- A directory and those above it, innermost first; the fuel bounds the depth. -/
def ancestors : Nat → String → List String
  | 0, p => [p]
  | fuel + 1, p => if directory p = p then [p] else p :: ancestors fuel (directory p)

inductive FileProblem
  | missing | notDirectory | isDirectory
deriving DecidableEq

structure FileError where
  operation : String
  path : String
  problem : FileProblem
deriving DecidableEq

def FileError.message (e : FileError) : String :=
  e.operation ++ " " ++ e.path ++ ": " ++ match e.problem with
    | .missing => "no such file or directory"
    | .notDirectory => "not a directory"
    | .isDirectory => "is a directory"

structure FileStore where
  cwd : String := "/"
  files : List (String × Bytes) := []
  dirs : List String := ["/"]

namespace FileStore

variable (s : FileStore)

def absolute (p : String) : String := Files.absolute s.cwd p

def isDir (p : String) : Bool := s.dirs.contains (s.absolute p)

def content? (p : String) : Option Bytes := s.files.lookup (s.absolute p)

/-- What is wrong with the directories that a path goes through; the empty path leads nowhere. -/
def way (p : String) : Option FileProblem :=
  let whole := s.absolute p
  let above := (ancestors whole.length whole).drop 1
  if p = "" then some .missing
  else if above.any fun d ↦ (s.files.lookup d).isSome then some .notDirectory
  else if above.all s.dirs.contains then none
  else some .missing

def stat (p : String) : Except FileError Unit :=
  match s.way p with
  | some problem => .error ⟨"stat", p, problem⟩
  | none => if (s.content? p).isSome || s.isDir p then .ok () else .error ⟨"stat", p, .missing⟩

def read (p : String) : Except FileError Bytes :=
  match s.way p, s.content? p with
  | some problem, _ => .error ⟨"open", p, problem⟩
  | none, some bs => .ok bs
  | none, none => .error (if s.isDir p then ⟨"read", p, .isDirectory⟩ else ⟨"open", p, .missing⟩)

def write (p : String) (bs : Bytes) : Except FileError FileStore :=
  match s.way p with
  | some problem => .error ⟨"open", p, problem⟩
  | none =>
    if s.isDir p then .error ⟨"open", p, .isDirectory⟩
    else .ok { s with files := (s.absolute p, bs) :: s.files.filter (·.1 ≠ s.absolute p) }

def makeDirs (p : String) : Except FileError FileStore :=
  match (ancestors p.length (clean p)).find? fun d ↦ (s.content? d).isSome with
  | some d => .error ⟨"mkdir", d, .notDirectory⟩
  | none =>
    let whole := s.absolute p
    .ok { s with dirs := s.dirs ++ (ancestors whole.length whole).filter fun d ↦ !s.dirs.contains d }

def removeAll (p : String) : FileStore :=
  let root := s.absolute p
  let below (q : String) := q = root || (after? q (root ++ "/")).isSome
  { s with files := s.files.filter fun f ↦ !below f.1, dirs := s.dirs.filter fun d ↦ !below d }

def filesIn (p : String) : List (String × Bytes) := s.files.filter fun f ↦ directory f.1 = s.absolute p

/-- Puts a file where it may not be able to go otherwise, with its directories. -/
def place (p : String) (bs : Bytes) : FileStore :=
  match s.makeDirs (directory p) with
  | .ok s => (s.write p bs).toOption.getD s
  | .error _ => s

end FileStore

end CilSsa.Files
