import CilSsa.Pipeline.Run

namespace CilSsa.Pipeline

open CilSsa.Image CilSsa.Metadata CilSsa.Text

structure Program where
  graph : ImportGraph
  raw : List Bytes
  modules : List ModuleRef
  world : Universe

/-- Reads the image files in order; the first that cannot be read ends it. -/
def loadImages (paths : List String) : Pipe (List (Image × Bytes)) := do
  if paths.isEmpty then throw .noImages
  let images ← inSpan .load "images" List.length do
    for path in paths do report path .load .queued
    paths.mapM fun path ↦ do
      report path .load .working
      match readImageFile (← get).files path with
      | .ok x =>
        report path .load .done
        return x
      | .error e =>
        report path .load .error
        throw (.read e)
  record .load
  return images

structure Built where
  world : Universe := {}
  refs : List (String × ModuleRef) := []
  modules : List (Nat × ModuleRef) := []

/-- Builds the images of a batch against those of earlier ones. All are tried; the first failure counts. -/
def buildBatch (images : List Image) (b : Built) (batch : List Nat) : Pipe Built := do
  let mut world := b.world
  let mut made : List (Nat × ModuleRef) := []
  let mut failed : Option BuildError := none
  for i in batch do
    let img := images.getD i {}
    report img.name .build .working
    match img.build b.refs world with
    | .ok (m, w) =>
      report img.name .build .done
      world := w
      made := made ++ [(i, m)]
    | .error e =>
      report img.name .build .error
      failed := failed.or (some e)
  match failed with
  | some e => throw (.build e)
  | none => return { world, refs := made.map (fun (_, m) ↦ (m.name, m)) ++ b.refs, modules := b.modules ++ made }

def buildProgram (images : List (Image × Bytes)) : Pipe Program := do
  let (graph, built, _) ← inSpan .build "batches" (fun (_, _, n) ↦ n) do
    let graph ← liftExcept (ImportGraph.ofImages (images.map (·.1)))
    let batches ← liftExcept graph.batches
    return (graph, ← batches.foldlM (buildBatch (images.map (·.1))) {}, batches.length)
  record .build
  let modules := (List.range images.length).filterMap fun i ↦ built.modules.lookup i
  return { graph, raw := images.map (·.2), modules, world := built.world }
where
  liftExcept {α : Type} (x : Except OrderError α) : Pipe α :=
    match x with
    | .ok a => return a
    | .error e => throw (.order e)

def loadProgram (paths : List String) : Pipe Program := do buildProgram (← loadImages paths)

/-- A method that was asked for, with the image that it is in and its full selector. -/
structure Target where
  image : Nat
  method : Method
  selector : String

namespace Program

variable (p : Program)

def fullSelector (image : Nat) (m : Method) : String :=
  "[" ++ p.graph.nameOf image ++ "]" ++ ((m.owner.map (·.fullName)).getD "") ++ "::" ++ m.name ++ "/" ++
    toString m.params.length

def targetOf (image : Nat) (m : Method) : Target := ⟨image, m, p.fullSelector image m⟩

def candidates (selector : String) : Except TargetError (List Nat × String) :=
  match after? selector "[" with
  | none => .ok (List.range p.modules.length, selector)
  | some rest => match cut rest "]" with
    | none => .error (.unterminated selector)
    | some (name, inner) => match p.graph.names.idxOf? name with
      | some i => .ok ([i], inner)
      | none => .error (.noImage selector name)

/-- The method of a selector, of which there must be one only among the images. -/
def find (selector : String) : Except TargetError Target := do
  let (images, inner) ← p.candidates selector
  let hits := images.filterMap fun i ↦ (p.modules[i]?).bind fun m ↦
    (p.world.findMethod m inner).toOption.map (p.targetOf i)
  match hits with
  | [t] => return t
  | [] => throw (.noMethod selector)
  | _ => throw (.ambiguous selector)

def allTargets : List Target :=
  p.modules.zipIdx.flatMap fun (m, i) ↦ (p.world.typesOf m).flatMap fun d ↦
    ((p.world.methods (.defined d)).filter (·.body.isSome)).map (p.targetOf i)

def targets (selectors : List String) : Except TargetError (List Target) :=
  if selectors.isEmpty then .ok p.allTargets else selectors.mapM p.find

def closureBytes (image : Nat) : List Bytes := (p.graph.closure image).map fun i ↦ p.raw.getD i []

end Program

end CilSsa.Pipeline
