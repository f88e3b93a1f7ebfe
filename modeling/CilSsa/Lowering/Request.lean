import CilSsa.Lowering.Method

namespace CilSsa.Lowering

open CilSsa.Metadata CilSsa.Machine
open CilSsa.Ssa (FuncId)

namespace CompilationUnit

variable (u : CompilationUnit)

def forgetMethod (m : MethodId) : CompilationUnit :=
  match u.methods.lookup m with
  | none => u
  | some f => { u with
      module := match u.module.function? f with
        | some fn => u.module.removeFunction fn.name
        | none => u.module
      methods := u.methods.filter (·.1 ≠ m) }

def forgetType (t : Ty) : CompilationUnit :=
  match u.types.lookup t with
  | none => u
  | some ct => { u with
      module := match ct.code with
        | .struct _ name => u.module.removeStruct name
        | _ => u.module
      types := u.types.filter (·.1 ≠ t) }

def rollBack : CompilationUnit :=
  let u' := u.journal.types.foldl forgetType (u.journal.methods.foldl forgetMethod u)
  { u' with journal := {}, building := 0 }

end CompilationUnit

def request {α : Type} (c : Compile α) (u : CompilationUnit) : Except CompileError α × CompilationUnit :=
  if u.closed then (.error .closed, u)
  else match c.run.run { u with journal := {} } with
    | (.ok a, u) => (.ok a, { u with journal := {} })
    | (.error e, u') => (.error e, u'.rollBack)

def getMethod (world : Universe) (m : Method) : CompilationUnit → Except CompileError FuncId × CompilationUnit :=
  request (compileMethod world world.nestingLimit m)

def getType (world : Universe) (t : Ty) : CompilationUnit → Except CompileError CompiledType × CompilationUnit :=
  request (compileType world world.nestingLimit t)

inductive InvokeError
  | compile (e : CompileError)
  | engine (e : EngineError)

def InvokeError.message : InvokeError → String
  | .compile e => e.message
  | .engine e => e.message

namespace CompilationUnit

def onEngine {α : Type} (u : CompilationUnit) (r : Ssa.Module → Request α) : Except EngineError α × CompilationUnit :=
  let (a, engine) := r u.module u.engine
  (a, { u with engine })

def functionAddress (world : Universe) (m : Method) (u : CompilationUnit) :
    Except InvokeError UInt64 × CompilationUnit :=
  match getMethod world m u with
  | (.error e, u) => (.error (.compile e), u)
  | (.ok f, u) =>
    let name := ((u.module.function? f).map (·.name)).getD ""
    let (a, u) := u.onEngine fun module ↦ Engine.addressFound module name (module.functionCalled? name)
    (a.mapError .engine, u)

def invokeFor (fuel : Nat) (world : Universe) (m : Method) (args : List UInt64) (u : CompilationUnit) :
    Except InvokeError UInt64 × CompilationUnit :=
  match u.functionAddress world m with
  | (.error e, u) => (.error e, u)
  | (.ok address, u) =>
    let (a, u) := u.onEngine fun module ↦ Engine.callAddress module fuel address args
    (a.mapError .engine, u)

def invoke : Universe → Method → List UInt64 → CompilationUnit → Except InvokeError UInt64 × CompilationUnit :=
  invokeFor ample

end CompilationUnit

end CilSsa.Lowering
