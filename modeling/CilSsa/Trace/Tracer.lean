import CilSsa.Trace.Event

namespace CilSsa.Trace

open CilSsa.Text

/-- The newest events: slots, the slot to be written next, and how many slots are filled. -/
structure Ring where
  slots : Array (Option Event)
  next : Nat := 0
  count : Nat := 0

namespace Ring

def defaultSize : Nat := 4096

def ofCapacity (n : Int) : Ring := { slots := Array.replicate (if n ≤ 0 then defaultSize else n.toNat) none }

def push (r : Ring) (e : Event) : Ring :=
  { slots := r.slots.setIfInBounds r.next (some e)
    next := (r.next + 1) % r.slots.size
    count := if r.count < r.slots.size then r.count + 1 else r.count }

def toList (r : Ring) : List Event :=
  let start := (r.next + r.slots.size - r.count) % r.slots.size
  (List.range r.count).filterMap fun i ↦ (r.slots[(start + i) % r.slots.size]?).join

def failures (r : Ring) : List Event := r.toList.filter (·.failed)

end Ring

inductive Destination
  | memory
  | stderr
  | file (path : String)
deriving DecidableEq

structure Output where
  destination : Destination
  written : Bytes := []
  buffered : Bytes := []
  closed : Bool := false
  failed : Bool := false

namespace Output

def bufferSize : Nat := 4096

/-- Bytes go to the file as soon as the buffer is full, and what exceeds an empty buffer at once. -/
def write (out : Output) (bs : Bytes) : Output :=
  match out.destination with
  | .memory | .stderr => { out with written := out.written ++ bs }
  | .file _ =>
    if out.failed then out
    else
      let room := bufferSize - out.buffered.length
      if bs.length ≤ room then { out with buffered := out.buffered ++ bs }
      else if out.closed then { out with failed := true }
      else
        let all := out.buffered ++ bs
        let whole := if out.buffered.isEmpty then all.length else bufferSize
        let rest := all.drop whole
        if rest.length ≤ bufferSize then { out with written := out.written ++ all.take whole, buffered := rest }
        else { out with written := out.written ++ all, buffered := [] }

def flush (out : Output) : Output × Bool :=
  if out.buffered.isEmpty && !out.failed then (out, true)
  else if out.closed || out.failed then ({ out with failed := true }, false)
  else ({ out with written := out.written ++ out.buffered, buffered := [] }, true)

end Output

structure TracerId where
  index : Nat
deriving DecidableEq

inductive Tracer
  | nop
  | ring (level : Level) (ring : Ring)
  | stream (level : Level) (format : Format) (output : Nat)
  | multi (level : Level) (children : List TracerId)

/-- All tracers and outputs, the texts of the streams that go to standard error, and the counters.
Tracer zero does nothing. -/
structure Tracing where
  tracers : Array Tracer := #[.nop]
  outputs : Array Output := #[]
  stderr : String := ""
  time : String := ""
  seq : Nat := 0
  spans : Nat := 0
  openSpans : Int := 0

def Tracer.kindName : Tracer → String
  | .nop => "nop"
  | .ring .. => "ring"
  | .stream .. => "stream"
  | .multi .. => "multi"

def Tracer.level : Tracer → Level
  | .nop => .off
  | .ring l _ => l
  | .stream l _ _ => l
  | .multi l _ => l

namespace Tracing

variable (s : Tracing)

def nop : TracerId := ⟨0⟩

def tracer (t : TracerId) : Tracer := s.tracers.getD t.index .nop

def level (t : TracerId) : Level := (s.tracer t).level

def isOn (t : TracerId) : Bool := (s.level t).isOn

def add (t : Tracer) : Tracing × TracerId := ({ s with tracers := s.tracers.push t }, ⟨s.tracers.size⟩)

def addRing (capacity : Int) (l : Level) : Tracing × TracerId := s.add (.ring l (.ofCapacity capacity))

def addStream (d : Destination) (l : Level) (f : Format) : Tracing × TracerId :=
  let s' := { s with outputs := s.outputs.push { destination := d } }
  s'.add (.stream l (if f = .auto then .text else f) s.outputs.size)

def addMulti (l : Level) (children : List TracerId) : Tracing × TracerId := s.add (.multi l children)

def write (output : Nat) (text : String) : Tracing :=
  match s.outputs[output]? with
  | none => s
  | some o =>
    if o.destination = .stderr then { s with stderr := s.stderr ++ text }
    else { s with outputs := s.outputs.setIfInBounds output (o.write text.toUTF8.toList) }

/-- Hands an event to a tracer; the fuel bounds how deep tracers are nested. -/
def emitTo : Nat → TracerId → Event → Tracing → Tracing
  | 0, _, _, s => s
  | fuel + 1, t, e, s => match s.tracer t with
    | .nop => s
    | .ring l r => if l.allows e then { s with tracers := s.tracers.setIfInBounds t.index (.ring l (r.push e)) } else s
    | .stream l f output => if l.allows e then s.write output (e.render f s.time ++ "\n") else s
    | .multi _ children => children.foldl (fun s c ↦ emitTo fuel c e s) s

def emit (t : TracerId) (e : Event) : Tracing := emitTo (s.tracers.size + 1) t e s

def emitNext (t : TracerId) (e : Event) : Tracing :=
  emit { s with seq := s.seq + 1 } t { e with seq := s.seq + 1 }

def point (t : TracerId) (scope : Scope) (name detail : String) (parent : Nat) (attrs : List (String × String)) :
    Tracing :=
  if (s.level t).covers scope && s.isOn t then
    s.emitNext t { kind := .point, scope, name, detail, parent, attrs }
  else s

/-- The ring of a tracer: its own, or that of the first child that is a ring. -/
def ring? (t : TracerId) : Option Ring :=
  match s.tracer t with
  | .ring _ r => some r
  | .multi _ children => children.findSome? fun c ↦ match s.tracer c with
    | .ring _ r => some r
    | _ => none
  | _ => none

def outputsOf : Nat → TracerId → List Nat
  | 0, _ => []
  | fuel + 1, t => match s.tracer t with
    | .stream _ _ output => [output]
    | .multi _ children => children.flatMap (outputsOf fuel)
    | _ => []

def outputs? (t : TracerId) : List Nat := s.outputsOf (s.tracers.size + 1) t

def closedMessage (d : Destination) : String :=
  match d with
  | .file path => "write " ++ path ++ ": file already closed"
  | _ => ""

def flush (t : TracerId) : Tracing × List String :=
  (s.outputs? t).foldl (fun (s, errs) k ↦ match s.outputs[k]? with
    | none => (s, errs)
    | some o =>
      let (o', ok) := o.flush
      ({ s with outputs := s.outputs.setIfInBounds k o' }, if ok then errs else errs ++ [closedMessage o.destination]))
    (s, [])

def close (t : TracerId) : Tracing × List String :=
  let (s, errs) := s.flush t
  ((s.outputs? t).foldl (fun s k ↦ { s with outputs := s.outputs.modify k fun o ↦ { o with closed := true } }) s, errs)

end Tracing

/-- An interval such as the compilation of a method. A span of a tracer that is off does nothing. -/
structure Span where
  tracer : Option TracerId := none
  id : Nat := 0
  parent : Nat := 0
  scope : Scope := .other 0
  name : String := ""
  attrs : List (String × String) := []
  ended : Bool := false

namespace Span

/-- Opens a span. Below the tracer's level it is live without an event, so that a failure can be told. -/
def begin (s : Tracing) (t : TracerId) (scope : Scope) (name : String) (parent : Nat) : Tracing × Span :=
  if !s.isOn t then (s, {})
  else
    let id := s.spans + 1
    let s := { s with spans := id, openSpans := s.openSpans + 1 }
    let span : Span := { tracer := some t, id, parent, scope, name }
    (if (s.level t).covers scope then s.emitNext t { kind := .begin, scope, span := id, parent, name } else s, span)

/-- Opens a span within another; in one that does nothing, it does nothing. -/
def child (sp : Span) (s : Tracing) (scope : Scope) (name : String) : Tracing × Span :=
  begin s (sp.tracer.getD Tracing.nop) scope name sp.id

def attr (sp : Span) (key value : String) : Span :=
  if sp.tracer.isSome then { sp with attrs := sp.attrs ++ [(key, value)] } else sp

def finish (sp : Span) (s : Tracing) (detail : String) (failed : Bool) : Tracing × Span :=
  match sp.tracer with
  | none => (s, sp)
  | some t =>
    if sp.ended then (s, sp)
    else
      let s := { s with openSpans := s.openSpans - 1, seq := s.seq + 1 }
      let e : Event := { seq := s.seq, kind := .finish, scope := sp.scope, span := sp.id, parent := sp.parent,
                         name := sp.name, detail, failed, attrs := sp.attrs }
      (if (s.level t).allows e then s.emit t e else s, { sp with ended := true })

end Span

/-- What is handed down: the tracer, and the span that new spans belong to. -/
structure Carrier where
  tracer : TracerId := Tracing.nop
  parent : Nat := 0

/-- Begins a span under a carrier, and gives the carrier for what happens within it. -/
def Carrier.start (c : Carrier) (s : Tracing) (scope : Scope) (name : String) : Tracing × Carrier × Span :=
  let (s, span) := Span.begin s c.tracer scope name c.parent
  (s, if span.id = 0 then c else { c with parent := span.id }, span)

end CilSsa.Trace
