import CilSsa.Lowering.Step
import CilSsa.Passes.Pipeline

namespace CilSsa.Lowering

open CilSsa.Bytecode CilSsa.Metadata CilSsa.Trace CilSsa.Passes CilSsa.Text
open CilSsa.Ssa (FuncId)

/-- The name of a method's function: the owner, the method and its token. -/
def functionName (m : Method) : String :=
  (match m.owner with
    | some t => t.text
    | none => "<module>") ++ "." ++ m.name ++ "_0x" ++ hexDigits m.token.raw.toNat

def argumentTypes (m : Method) : Compile (List Ty) := do
  let declared := m.params.map (·.type)
  if m.isInstance then match m.owner with
    | some t => return .byref t :: declared
    | none => throw (.noOwner m.name)
  else return declared

def signature (world : Universe) (m : Method) (args : List Ty) : Compile Ssa.Ty := do
  let params ← args.zipIdx.mapM fun (t, i) ↦ do
    let code ← within (.parameter i m.text) (codeType world t)
    if code = .void then throw (.unsupportedType t .voidParameter)
    return code
  let ret ← within (.returnType m.text) (codeType world m.returnType)
  return .func ret params

/-- The operand of an argument: a reference stands for itself, all else is put into a slot. -/
def bindArgument (f : Ssa.Function) (t : Ty) (i : Nat) : Emit Operand := do
  let p := f.param i
  if t.isByRef then return ⟨t, p, false⟩
  let slot ← slotFor p.type ("arg" ++ toString i)
  let _ ← emitAt 0 (.store p slot)
  return ⟨.byref t, slot, true⟩

def bindLocal (world : Universe) (t : Ty) (i : Nat) : Emit Operand := do
  let part := Part.local i
  let code ← within part (do
    if t.isByRef then return .pointer (← codeType world t.elem) else codeType world t)
  let size ← within part (sizeOf code)
  let slot ← slotFor code ("loc" ++ toString i)
  clearAt 0 slot size
  return ⟨.byref t, slot, true⟩

def during (i : Instruction) (c : Lower Unit) : Lower Unit := fun site stage ↦
  ExceptT.adapt (CompileError.lowering site.method.text i.offset i.op) (c site stage)

def lowerBlock (number : Nat) (sp : Bytecode.Span) : Lower Unit := do
  modifyThe Stage fun s ↦
    let known := s.entries.lookup sp.start
    { s with
      block := number, pending := [], entry := (known.getD []).reverse, inferring := known.isNone, inferred := [] }
  sp.instrs.forM fun i ↦ during i (lower sp.start i)
  match sp.fallsThrough, sp.instrs.getLast? with
  | true, some last =>
    during last (flush sp.start [sp.stop])
    let _ ← emit (.br (some (← blockAt sp.stop)))
  | _, _ => pure ()
  settleEntry sp.start

def lowerTraced (number : Nat) (sp : Bytecode.Span) : Lower Unit := fun site stage ↦ do
  let span ← beginSpan .block (offsetLabel sp.start)
  let out ← failing span (lowerBlock number sp site stage)
  endSpan (span.attr "instrs" (toString sp.instrs.length)) "ok" false
  return out

def lowerBody (world : Universe) (compile : Method → Compile FuncId) (m : Method) (body : Body) (args : List Ty)
    (f : Ssa.Function) : Compile Nat := do
  let spans ← match discoverBlocks body.code with
    | .ok spans => pure spans
    | .error e => throw (.discovery m.text e)
  ("init" :: spans.map fun sp ↦ offsetLabel sp.start).forM fun name ↦ do
    let _ ← onModule fun module ↦ module.addBlock f.id name
  let setUp : Emit Site := do
    let capacity := bufferSize body.maxStack
    let top ← makeBuffer capacity
    let args ← args.zipIdx.mapM fun (t, i) ↦ bindArgument f t i
    let locals ← body.locals.zipIdx.mapM fun (t, i) ↦ bindLocal world t i
    return { world, method := m, spans, args, locals, top, capacity, compile }
  let blocks (site : Site) : Emit Unit := spans.zipIdx.forM fun (sp, i) ↦ lowerTraced (i + 1) sp site
  let _ ← StateT.run (do
    let site ← setUp
    blocks site
    let _ ← emitAt 0 (.br (some ⟨f.id, 1⟩))) { fn := f.id }
  return spans.length

def register (m : Method) (sig : Ssa.Ty) : Compile FuncId := do
  let u ← get
  let name := freeName (fun n ↦ (u.module.functionNamed? n).isSome) (functionName m)
    (u.module.liveFunctions.length + 1) 0
  match u.module.addFunction name sig with
  | .error e => throw (.declare e)
  | .ok (module, f) =>
    set { u with
      module
      methods := (m.id, f) :: u.methods
      journal := { u.journal with methods := m.id :: u.journal.methods } }
    return f

def verify (m : Method) (f : FuncId) (span : Trace.Span) : Compile Unit := do
  let u ← get
  match ((u.module.function? f).map u.module.verify).getD [] with
  | [] => return
  | errors =>
    let problem := "\n".intercalate (errors.map Ssa.VerifyError.message)
    endSpan span problem true
    modify fun u ↦
      { u with rejections := u.rejections ++ [⟨m.text, problem, (u.module.printFunction f).2, u.tracing⟩] }
    throw (.verification m.text errors)

def optimise (f : FuncId) (span : Trace.Span) : Compile Trace.Span := do
  let u ← get
  match u.module.function? f with
  | none => return span
  | some fn =>
    let (fn, changes) := runPasses Pass.all fn
    set { u with module := u.module.modifyFunction f fun _ ↦ fn }
    return changes.foldl (fun span (p, changed) ↦ if changed then span.attr p.name "changed" else span) span

def buildBody (world : Universe) (compile : Method → Compile FuncId) (m : Method) (body : Body) (args : List Ty)
    (f : FuncId) : Compile Unit := do
  let span ← beginSpan .method m.text
  inside span do
    match (← get).module.function? f with
    | none => return
    | some fn =>
      let blocks ← failing span (lowerBody world compile m body args fn)
      verify m f span
      let span ← if (← get).optimize then optimise f span else pure span
      endSpan (span.attr "blocks" (toString blocks)) "ok" false

/-- The function of a method, compiled at its first use. Methods without a body are only declared. -/
def compileMethod (world : Universe) : Nat → Method → Compile FuncId
  | 0, _ => throw .tooDeep
  | fuel + 1, m => do
    match (← get).methods.lookup m.id with
    | some f => return f
    | none =>
      let args ← argumentTypes m
      let f ← register m (← signature world m args)
      match m.body with
      | none => return f
      | some body =>
        buildBody world (compileMethod world fuel) m body args f
        return f

end CilSsa.Lowering

