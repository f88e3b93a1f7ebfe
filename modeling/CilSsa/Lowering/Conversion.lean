import CilSsa.Lowering.Operand

namespace CilSsa.Lowering

open CilSsa.Metadata
open CilSsa.Ssa (Instr Value)

/-- Numbers, and addresses as numbers. Native integers are integers, so only pointers are kept away
from floats. -/
def numeric (src dst : Ty) : Bool :=
  (src.isInteger && dst.isInteger) || (src.isFloat && dst.isFloat) ||
  (src.isPointerLike && dst.isPointerLike) ||
  (src.isInteger && dst.isPointerLike) || (src.isPointerLike && dst.isInteger) ||
  (src.isInteger && dst.isFloat) || (src.isFloat && dst.isInteger)

/-- A conversion exists: between numbers, by an operator of either type, or for what a reference refers
to. A reference never becomes another reference. -/
def convertible (world : Universe) (dst : Ty) : Ty → Bool
  | .byref e => Ty.byref e == dst || convertible world dst e || world.hasConversion (.byref e) dst
  | t => t == dst || numeric t dst || world.hasConversion t dst

def keepsSign (t : Ty) : Bool := !(t == .prim .bool || t.isUnsigned || t.isAddress)

def noConversion {α : Type} (src dst : Ty) (a b : Ssa.Ty) : Lower α :=
  throw (.cast src dst ("no lowering from " ++ Ssa.kindName a.kind ++ " to " ++ Ssa.kindName b.kind))

def convertByOperator (v : Operand) (target : Ty) : Lower Value := do
  let site ← read
  match site.world.conversion? v.type target with
  | some m => emitCall (← site.compile m) [v.value]
  | none => throw (.cast v.type target "no conversion operator")

def convertValue (v : Operand) (target : Ty) (dst : Ssa.Ty) : Lower Value := do
  let src := v.value.type
  let unsignedTarget := target.isUnsigned
  if src = dst then return v.value
  match src, dst with
  | .struct .., _ | _, .struct .. => convertByOperator v target
  | .int _, .int _ => emitOr v.value (Instr.intCast? v.value dst (keepsSign v.type) "")
  | .int _, .pointer _ => castTo .inttoptr v.value dst
  | .int _, .float | .int _, .double => castTo (if keepsSign v.type then .sitofp else .uitofp) v.value dst
  | .float, .float | .float, .double | .double, .float | .double, .double =>
    emitOr v.value (Instr.floatCast? v.value dst "")
  | .float, .int _ | .double, .int _ =>
    castTo (if unsignedTarget || target == .prim .bool then .fptoui else .fptosi) v.value dst
  | .float, .pointer _ | .double, .pointer _ =>
    let n ← castTo (if unsignedTarget then .fptoui else .fptosi) v.value .i64
    castTo .inttoptr n dst
  | .pointer _, .pointer _ => pointerTo v.value dst
  | .pointer _, .int _ => castTo .ptrtoint v.value dst
  | .pointer _, .float | .pointer _, .double =>
    let n ← castTo .ptrtoint v.value .i64
    castTo (if v.type = .prim .intPtr then .sitofp else .uitofp) n dst
  | _, _ => noConversion v.type target src dst

def convertDirectly (v : Operand) (target : Ty) : Lower Operand := do
  if target.isByRef && (v.type == .prim .int32 || v.type == .prim .int64) then
    return ⟨target, ← castTo .inttoptr v.value (← counterpart target), false⟩
  if !convertible (← read).world target v.type then throw (.cast v.type target "")
  let dst ← counterpart target
  return ⟨target, ← convertValue v target dst, false⟩

def convertFrom (target : Ty) : Ty → Value → Bool → Lower Operand
  | .byref e, v, slot => do
    if Ty.byref e = target then return ⟨target, v, slot⟩
    if !slot && target.isAddress && e == target.elem then return ⟨target, v, false⟩
    if e = target then return ⟨target, ← load v, false⟩
    if convertible (← read).world target e then
      let w ← load v
      convertFrom target e w false
    else convertDirectly ⟨.byref e, v, slot⟩ target
  | t, v, slot => do
    if t = target then return ⟨target, v, slot⟩
    if !slot && t.isAddress && target.isAddress && t.elem == target.elem then return ⟨target, v, false⟩
    convertDirectly ⟨t, v, slot⟩ target

def convert (v : Operand) (target : Ty) : Lower Operand := convertFrom target v.type v.value v.slot

/-- An operand as a pointer to `elem`: references are taken as they are, aggregates are put into a slot
and native integers become pointers. -/
def address (v : Operand) (elem : Ty) : Lower Value := do
  let ptr := Ssa.Ty.pointer (← counterpart elem)
  if v.slot && v.type.elem == elem then return v.value
  let v ← materialize v
  match v.value.type with
  | .pointer _ => pointerTo v.value ptr
  | .struct .. =>
    let spill ← slotFor v.value.type "spill"
    store v.value spill
    pointerTo spill ptr
  | .int _ => castTo .inttoptr v.value ptr
  | _ => throw (.notAddress v.type elem)

end CilSsa.Lowering
