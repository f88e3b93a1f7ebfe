import CilSsa.Lowering.Unit

namespace CilSsa.Lowering

open CilSsa.Metadata CilSsa.Text

def scalarType? : Prim → Option Ssa.Ty
  | .bool => some .i1
  | .int8 | .uint8 => some .i8
  | .int16 | .uint16 => some .i16
  | .int32 | .uint32 => some .i32
  | .int64 | .uint64 => some .i64
  | .float32 => some .float
  | .float64 => some .double
  | .intPtr | .uintPtr => some .bytePointer
  | .char => none

def aggregateName (t : Ty) : String := t.text ++ "_0x" ++ hexDigits t.token.raw.toNat

def remember (ct : CompiledType) : Compile CompiledType := do
  modify fun u ↦ { u with
    types := (ct.source, ct) :: u.types
    journal := { u.journal with types := ct.source :: u.journal.types } }
  return ct

def newStruct (base : String) : Compile Ssa.Ty := do
  let u ← get
  let name := freeName (fun n ↦ (u.module.structNamed? n).isSome) base (u.module.liveStructs.length + 1) 0
  let (module, t) := u.module.namedStruct name
  set { u with module }
  return t

section

variable (world : Universe)

def compileMembers (compile : Ty → Compile CompiledType) (owner : Ty) (members : List Field) : Compile (List Ssa.Ty) :=
  members.mapM fun f ↦ do
    let ct ← within (.field f.text) (compile f.type)
    if ct.code = .void then throw (.unsupportedType owner (.noStorage f.name))
    return ct.code

def abandoning {α : Type} (c : Compile α) : Compile α :=
  tryCatch c fun e ↦ do
    modify fun u ↦ { u with building := u.building - 1 }
    throw e

/-- Compiles an aggregate. The struct is registered before its members are compiled, so an aggregate that
reaches itself through a pointer finds itself. A member may still lack its body while an enclosing
aggregate is being built, which repeats the check once it is complete. -/
def compileAggregate (compile : Ty → Compile CompiledType) (t : Ty) : Compile CompiledType := do
  if t.isOpen then throw (.unsupportedType t .openType)
  let st ← newStruct (aggregateName t)
  let ct ← remember ⟨t, st, world.instanceFields t⟩
  modify fun u ↦ { u with building := u.building + 1 }
  let body ← abandoning (compileMembers compile t ct.members)
  modify fun u ↦ { u with building := u.building - 1 }
  let u ← get
  match u.module.setBody st body with
  | .error e => throw (.declare e)
  | .ok module => set { u with module }
  let u ← get
  let (r, layouts) := u.engine.layouts.of u.module st
  set { u with engine := { u.engine with layouts } }
  match r with
  | .ok _ => return ct
  | .error (.noBody s) =>
    if u.building = 0 then throw (.unsupportedType t (.layout (.noBody s))) else return ct
  | .error e => throw (.unsupportedType t (.layout e))

def compileType : Nat → Ty → Compile CompiledType
  | 0, _ => throw .tooDeep
  | fuel + 1, t => do
    let t := if t = .missing then .void else t
    match (← get).types.lookup t with
    | some ct => return ct
    | none => match t.kind with
      | .void => remember ⟨t, .void, []⟩
      | .byref | .pointer =>
        if t.elem.isByRef then throw (.unsupportedType t .doubleReference)
        else if t.elem.isVoid then remember ⟨t, .bytePointer, []⟩
        else
          let elem ← compileType fuel t.elem
          remember ⟨t, .pointer elem.code, []⟩
      | .refType => throw (.unsupportedType t .referenceType)
      | .param => throw (.unsupportedType t .openParameter)
      | .primitive => match t.prim?.bind scalarType? with
        | some code => remember ⟨t, code, []⟩
        | none => throw (.unsupportedType t .unmapped)
      | .valueType => compileAggregate world (compileType fuel) t

def codeType (t : Ty) : Compile Ssa.Ty := do return (← compileType world world.nestingLimit t).code

end

end CilSsa.Lowering
