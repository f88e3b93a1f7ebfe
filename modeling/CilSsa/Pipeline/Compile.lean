import CilSsa.Pipeline.Program

namespace CilSsa.Pipeline

open CilSsa.Lowering CilSsa.Metadata CilSsa.Text

structure Request where
  images : List String
  selectors : List String := []
  optimize : Bool := true
  limits : Machine.Limits := .ofRequest 0 0 0
  cache : Option DiskCache := none

structure Emitted where
  function : String
  code : String
  cached : Bool
deriving DecidableEq

structure MethodResult where
  image : String
  selector : String
  outcome : Except CompileError Emitted

def MethodResult.emitted (r : MethodResult) : Emitted := r.outcome.toOption.getD ⟨"", "", false⟩

def MethodResult.failure? (r : MethodResult) : Option CompileError :=
  match r.outcome with
  | .error e => some e
  | .ok _ => none

def failures (rs : List MethodResult) : List String :=
  rs.filterMap fun r ↦ r.failure?.map fun e ↦ r.selector ++ ": " ++ e.message

def cachedCode? (cache : Option DiskCache) (files : Files.FileStore) (key : Bytes) (selector : String) :
    Option Emitted := do
  let e ← (← cache).get? files key
  if e.selector = selector then some ⟨e.function, e.code, true⟩ else none

/-- Keeps the code of a target; a cache that cannot be written is only reported. -/
def keepCode (cache : Option DiskCache) (key : Bytes) (selector : String) (e : Emitted) : StateM Run Unit := do
  let files := (← get).files
  let kept := match cache with
    | some c => c.put files key ⟨selector, e.function, e.code⟩
    | none => .ok files
  match kept with
  | .ok files =>
    modify fun r ↦ { r with files }
    report selector .emit .done
  | .error _ => report selector .emit .error
  record .emit

/-- Compiles one target in the unit of its image, or takes its code from the cache. -/
def compileTarget (p : Program) (cache : Option DiskCache) (t : Target) (u : CompilationUnit) :
    StateM Run (MethodResult × CompilationUnit) := do
  let key := cacheKey (p.closureBytes t.image) t.selector u.optimize
  let result (o : Except CompileError Emitted) : MethodResult := ⟨p.graph.nameOf t.image, t.selector, o⟩
  match cachedCode? cache (← get).files key t.selector with
  | some e =>
    report t.selector .compile .cached
    return (result (.ok e), u)
  | none =>
    report t.selector .compile .working
    record .compile
    match getMethod p.world t.method u with
    | (.error e, u) =>
      modify fun r ↦ { r with rejection := r.rejection.or (u.rejections.head?.map (·, r.files)) }
      report t.selector .compile .error
      return (result (.error e), u)
    | (.ok f, u) =>
      report t.selector .compile .done
      let (module, code) := u.module.printFunction f
      let e : Emitted := ⟨((module.function? f).map (·.name)).getD "", code, false⟩
      keepCode cache key t.selector e
      return (result (.ok e), { u with module })

def compileImage (p : Program) (q : Request) (resolver : Resolver) (image : Nat) (targets : List (Target × Nat)) :
    StateM Run (List (Nat × MethodResult) × Resolver) := do
  let r ← get
  let unit := CompilationUnit.create (p.graph.nameOf image) resolver q.optimize q.limits
  let unit := { unit with tracing := r.tracing, tracer := r.carrier.tracer, traceParent := r.carrier.parent }
  let (results, unit) ← targets.foldlM (fun (out, u) (t, n) ↦ do
    let (m, u) ← compileTarget p q.cache t u
    return (out ++ [(n, m)], u)) ([], unit)
  modify fun r ↦ { r with tracing := unit.tracing }
  return (results, unit.resolver)

/-- Compiles targets, image after image; results are in the order of the targets. -/
def compileTargets (p : Program) (q : Request) (targets : List Target) : Pipe (List MethodResult) :=
  inSpan .compile "methods" List.length do
    for t in targets do report t.selector .compile .queued
    let numbered := targets.zipIdx
    let images := (targets.map (·.image)).eraseDups
    let (results, _) ← images.foldlM (fun (out, resolver) i ↦ do
      let (rs, resolver) ← compileImage p q resolver i (numbered.filter (·.1.image = i))
      return (out ++ rs, resolver)) (([] : List (Nat × MethodResult)), Resolver.ofModules p.modules)
    return (List.range targets.length).filterMap fun n ↦ results.lookup n

def compile (q : Request) : Pipe (List MethodResult) := do
  let p ← loadProgram q.images
  match p.targets q.selectors with
  | .ok targets => compileTargets p q targets
  | .error e => throw (.target e)

end CilSsa.Pipeline
