import CilSsa.Lowering.Error
import CilSsa.Machine.Engine
import CilSsa.Trace.Tracer

namespace CilSsa.Lowering

open CilSsa.Metadata CilSsa.Machine CilSsa.Trace

/-- A type with its counterpart; an aggregate also has its members in order. -/
structure CompiledType where
  source : Ty
  code : Ssa.Ty
  members : List Field := []

/-- What a request registered so far, newest first, so that a failure can take it back. -/
structure Journal where
  types : List Ty := []
  methods : List MethodId := []

structure Rejection where
  method : String
  problem : String
  code : String
  tracing : Tracing

def Rejection.message (r : Rejection) : String :=
  "generated IR for " ++ r.method ++ " does not verify:\n" ++ r.problem ++ "\n\n" ++ r.code

structure CompilationUnit where
  name : String
  optimize : Bool := false
  resolver : Resolver := {}
  module : Ssa.Module
  engine : Engine := {}
  types : List (Ty × CompiledType) := []
  methods : List (MethodId × Ssa.FuncId) := []
  journal : Journal := {}
  /-- Aggregates whose body is being built. -/
  building : Nat := 0
  closed : Bool := false
  rejections : List Rejection := []
  tracing : Tracing := {}
  tracer : TracerId := Tracing.nop
  traceParent : Nat := 0
  /-- The spans that are open, innermost first. -/
  spans : List Nat := []

abbrev Compile := ExceptT CompileError (StateM CompilationUnit)

def CompilationUnit.parentSpan (u : CompilationUnit) : Nat := u.spans.headD u.traceParent

def CompilationUnit.create (name : String) (resolver : Resolver) (optimize : Bool) (limits : Limits) :
    CompilationUnit :=
  { name, resolver, optimize, module := { name }, engine := { limits } }

def CompilationUnit.close (u : CompilationUnit) : CompilationUnit := { u with closed := true, engine := u.engine.close }

/-- The name, or the first of `name.1`, `name.2`, … that is not taken; the fuel bounds the search. -/
def freeName (taken : String → Bool) (base : String) : Nat → Nat → String
  | 0, _ => base
  | fuel + 1, i =>
    let name := if i = 0 then base else base ++ "." ++ toString i
    if taken name then freeName taken base fuel (i + 1) else name

def layoutOf (t : Ssa.Ty) : Compile Ssa.Layout := do
  let u ← get
  let (r, layouts) := u.engine.layouts.of u.module t
  set { u with engine := { u.engine with layouts } }
  match r with
  | .ok l => return l
  | .error e => throw (.layout e)

def sizeOf (t : Ssa.Ty) : Compile Int := do return (← layoutOf t).size

def within {α : Type} (part : Part) (c : Compile α) : Compile α :=
  ExceptT.adapt (CompileError.within part) c

def beginSpan (scope : Scope) (name : String) : Compile Span := do
  let u ← get
  let (tracing, span) := Span.begin u.tracing u.tracer scope name u.parentSpan
  set { u with tracing }
  return span

def endSpan (span : Span) (detail : String) (failed : Bool) : Compile Unit :=
  modify fun u ↦ { u with tracing := (span.finish u.tracing detail failed).1 }

def failing {α : Type} (span : Span) (c : Compile α) : Compile α :=
  tryCatch c fun e ↦ do
    endSpan span e.message true
    throw e

/-- Makes a span the innermost one for the time of a compilation, whether that succeeds or fails. -/
def inside {α : Type} (span : Span) (c : Compile α) : Compile α := ExceptT.mk do
  modify fun u ↦ { u with spans := span.id :: u.spans }
  let r ← c.run
  modify fun u ↦ { u with spans := u.spans.tail }
  return r

def resolve {α : Type} (ask : Resolver → Except ResolutionError α × Resolver × List Resolver.Attempt) : Compile α := do
  let u ← get
  let (r, resolver, _) := ask u.resolver
  set { u with resolver }
  match r with
  | .ok a => return a
  | .error e => throw (.resolution e)

end CilSsa.Lowering

