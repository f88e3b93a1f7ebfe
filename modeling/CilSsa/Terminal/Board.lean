import CilSsa.Number.Binary
import CilSsa.Pipeline.Progress
import CilSsa.Terminal.Cells
import CilSsa.Text.Duration
import CilSsa.Text.Style

namespace CilSsa.Terminal

open CilSsa.Number CilSsa.Pipeline CilSsa.Text

def verb : Stage → String
  | .load => "loading"
  | .build => "building"
  | .compile => "compiling"
  | .emit => "emitting"
  | .other _ => ""

/-- The share of the work that is behind an item in a stage, in tenths. -/
def shareTenths : Stage → Nat
  | .load => 2
  | .build => 4
  | .compile => 7
  | .emit => 9
  | .other _ => 0

structure Row where
  name : String
  stage : Stage
  status : Status
  elapsed : Int := 0

def Row.label (r : Row) : String := if r.status = .working then verb r.stage else r.status.name

/-- What a row counts for, as a double: one when it is finished, and the share of its stage while it is in work. -/
def Row.share (r : Row) : UInt64 :=
  UInt64.ofNat (if r.status.isFinal then roundRatio .double 1 1
    else if r.status = .working then roundRatio .double (shareTenths r.stage) 10 else 0)

def Row.attributes (r : Row) : List Attribute :=
  match r.status with
  | .done | .cached => [.green]
  | .error => [.red]
  | .working => [.cyan]
  | _ => []

structure Board where
  title : String
  rows : List Row := []
  /-- The stage that the whole was last said to be in. -/
  stage : Stage := .other ""
  width : Int := 80
  frame : Nat := 0
  isDone : Bool := false

def wheel : List String := ["⣾ ", "⣽ ", "⣻ ", "⢿ ", "⡿ ", "⣟ ", "⣯ ", "⣷ "]

namespace Board

variable (b : Board)

def advance (e : Progress) (r : Row) : Row :=
  if r.name ≠ e.item ∨ r.status = .error then r
  else { r with stage := e.stage, status := e.status, elapsed := r.elapsed + max 0 e.elapsed }

def apply (e : Progress) : Board :=
  if e.item = "" then if e.status = .working then { b with stage := e.stage } else b
  else if b.rows.any (·.name = e.item) then { b with rows := b.rows.map (advance e) }
  else { b with rows := b.rows ++ [⟨e.item, e.stage, e.status, max 0 e.elapsed⟩] }

def finish : Board := { b with isDone := true }

def tick : Board := if b.isDone then b else { b with frame := (b.frame + 1) % wheel.length }

def resize (width : Int) : Board := if 0 < width then { b with width } else b

def percent : UInt64 :=
  if b.rows.isEmpty then 0
  else match decodeBits .double ((b.rows.map Row.share).foldl addDouble 0).toNat with
    | .finite _ m e =>
      let (num, den) := scaleRatio m b.rows.length (-e)
      (roundRatio .double num den).toUInt64
    | _ => 0

def count (s : Status) : Nat := b.rows.countP (·.status = s)

def header : String :=
  let title := if verb b.stage = "" then b.title else b.title ++ " (" ++ verb b.stage ++ ")"
  if b.isDone then "done: " ++ title else wheel.getD b.frame "" ++ " " ++ title

def nameWidth : Int := max (b.width - 26) 20

def rowLine (colored : Bool) (r : Row) : String :=
  "  " ++ paint colored r.attributes (padLeft 12 ' ' r.label) ++ " " ++ truncate b.nameWidth r.name ++
    (if r.status.isFinal && 0 < r.elapsed then " " ++ durationText (roundTo 1000 r.elapsed) else "")

def bar : String :=
  let cells := (b.width - 4 - 5).toNat
  if b.isDone then String.ofList (List.replicate cells '█') ++ " 100%"
  else String.ofList (List.replicate cells '░') ++ "   0%"

def summary (colored : Bool) : String :=
  toString (b.count .done) ++ " done, " ++ toString (b.count .cached) ++ " cached" ++
    (if b.count .error = 0 then "" else ", " ++ paint colored [.red] (toString (b.count .error) ++ " failed"))

def lines (colored : Bool) : List String :=
  [b.header, ""] ++ b.rows.map (b.rowLine colored) ++ ["", b.bar] ++ (if b.isDone then [b.summary colored] else [])

def ofProgress (title : String) (es : List Progress) : Board := (es.foldl apply { title }).finish

end Board

end CilSsa.Terminal
