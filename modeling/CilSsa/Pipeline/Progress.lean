import CilSsa.Number.Decimal
import CilSsa.Text.Hex

namespace CilSsa.Pipeline

open CilSsa.Number CilSsa.Text

inductive Stage
  | load | build | compile | emit
  | other (name : String)
deriving DecidableEq

def Stage.all : List Stage := [.load, .build, .compile, .emit]

def Stage.name : Stage → String
  | .load => "load"
  | .build => "build"
  | .compile => "compile"
  | .emit => "emit"
  | .other n => n

def Stage.ofName (s : String) : Stage := (Stage.all.find? fun t ↦ t.name == s).getD (.other s)

inductive Status
  | queued | working | cached | done | error
  | other (name : String)
deriving DecidableEq

def Status.all : List Status := [.queued, .working, .cached, .done, .error]

def Status.name : Status → String
  | .queued => "queued"
  | .working => "working"
  | .cached => "cached"
  | .done => "done"
  | .error => "error"
  | .other n => n

def Status.ofName (s : String) : Status := (Status.all.find? fun t ↦ t.name == s).getD (.other s)

def Status.isFinal (s : Status) : Bool := s = .done || s = .cached || s = .error

/-- Progress of an item: the path of an image while it is loaded, the name of an image while it is built,
and then the selector of a method. Without an item it is about the whole. -/
structure Progress where
  item : String
  stage : Stage
  status : Status
  failed : Bool := false
  elapsed : Int := 0

abbrev Timings := List (Stage × Int)

def Timings.add (t : Timings) (s : Stage) (ns : Int) : Timings :=
  if (t.lookup s).isSome then t.map fun (k, n) ↦ if k = s then (k, n + ns) else (k, n) else t ++ [(s, ns)]

def Timings.ofNames (xs : List (String × Int)) : Timings := xs.foldl (fun t (name, ns) ↦ t.add (.ofName name) ns) []

def millis (ns : Int) : String :=
  formatDoubleFixed 1 (withSign .double (ns < 0) (roundRatio .double ns.natAbs 1000000)).toUInt64

def timingLine (name : String) (ns : Int) : String :=
  padRight 8 ' ' name ++ " " ++ padLeft 8 ' ' (millis ns) ++ " ms\n"

def Timings.table (t : Timings) : String :=
  String.join (Stage.all.filterMap fun s ↦ (t.lookup s).map (timingLine s.name)) ++
    timingLine "total" ((Stage.all.filterMap fun s ↦ t.lookup s).foldr (· + ·) 0)

end CilSsa.Pipeline
