import CilSsa.Ssa.Module

namespace CilSsa.Ssa.Instr

open CilSsa.Ssa

def alloca (t : Ty) (name : String) : Instr :=
  { op := .alloca, type := .pointer t, allocated := t, name }

def arrayAlloca (t : Ty) (count : Option Value) (name : String) : Instr :=
  { op := .alloca, type := .pointer t, allocated := t, operands := [count], name }

def load (ptr : Value) (name : String) : Instr :=
  { op := .load, type := ptr.type.pointee, operands := [some ptr], name }

def store (v ptr : Option Value) : Instr :=
  { op := .store, type := .void, operands := [v, ptr] }

/-- The address of a member; `fields` are the members of the struct pointed to. -/
def gep (fields : Option (List Ty)) (ptr : Value) (index : Int) (name : String) : Instr :=
  let type := match fields with
    | some ts => if index < 0 then .void else match ts[index.toNat]? with
      | some t => .pointer t
      | none => .void
    | none => .void
  { op := .gep, type, operands := [some ptr], index, name }

def binary (op : Op) (a b : Value) (name : String) : Instr :=
  { op, type := a.type, operands := [some a, some b], name }

def icmp (p : Pred) (a b : Option Value) (name : String) : Instr :=
  { op := .icmp, type := .i1, pred := p, operands := [a, b], name }

def fcmp (p : Pred) (a b : Option Value) (name : String) : Instr :=
  { op := .fcmp, type := .i1, pred := p, operands := [a, b], name }

def select (c a b : Value) (name : String) : Instr :=
  { op := .select, type := a.type, operands := [some c, some a, some b], name }

def cast (op : Op) (v : Option Value) (t : Ty) (name : String) : Instr :=
  { op, type := t, operands := [v], name }

def intCast? (v : Value) (t : Ty) (signed : Bool) (name : String) : Option Instr :=
  if t.bits < v.type.bits then some (cast .trunc v t name)
  else if v.type.bits < t.bits then some (cast (if signed then .sext else .zext) v t name)
  else none

/-- Brings a floating-point value to type `t`; nothing if it has that type. -/
def floatCast? (v : Value) (t : Ty) (name : String) : Option Instr :=
  if v.type = t then none
  else if v.type = .double ∧ t = .float then some (cast .fptrunc v t name)
  else some (cast .fpext v t name)

def pointerCast? (v : Value) (t : Ty) (name : String) : Option Instr :=
  if v.type = t then none else some (cast .bitcast v t name)

def call (f : FuncId) (ret : Ty) (args : List (Option Value)) (name : String) : Instr :=
  { op := .call, type := ret, callee := some f, operands := args, name := if ret = .void then "" else name }

def br (dest : Option BlockId) : Instr := { op := .br, type := .void, targets := [dest] }

def condbr (c : Option Value) (whenTrue whenFalse : Option BlockId) : Instr :=
  { op := .condbr, type := .void, operands := [c], targets := [whenTrue, whenFalse] }

def ret (v : Option Value) : Instr := { op := .ret, type := .void, operands := [v] }

def retVoid : Instr := { op := .ret, type := .void }

end CilSsa.Ssa.Instr

namespace CilSsa.Ssa.Module

/-- Puts an instruction at the end of a block, or takes `v` where there is none to put. -/
def appendOr (m : Module) (b : BlockId) (v : Value) : Option Instr → Module × Value
  | some i => m.append b i
  | none => (m, v)

/-- An instruction completed from its operation, its operands and what else it names: the type of its result follows
from them, or is the one that it has if it is made for a type. Nothing where an operand is missing that the type
depends on. -/
def complete? (m : Module) (i : Instr) : Option Instr :=
  match i.op, i.operands with
  | .alloca, [count] => some (.arrayAlloca i.type count i.name)
  | .alloca, _ => some (.alloca i.type i.name)
  | .load, some p :: _ => some (.load p i.name)
  | .store, v :: p :: _ => some (.store v p)
  | .gep, some p :: _ => some (.gep (m.fields? p.type.pointee) p i.index i.name)
  | .icmp, a :: b :: _ => some (.icmp i.pred a b i.name)
  | .fcmp, a :: b :: _ => some (.fcmp i.pred a b i.name)
  | .select, some c :: some a :: some b :: _ => some (.select c a b i.name)
  | .call, args => (i.callee.bind m.function?).map fun f ↦ .call f.id f.ret args i.name
  | .br, _ => some (.br (i.targets.headD none))
  | .condbr, c :: _ => some (.condbr c (i.targets.headD none) (i.targets.getD 1 none))
  | .ret, [] => some .retVoid
  | .ret, [v] => some (.ret v)
  | op, a :: rest =>
    if op.isBinary then match a, rest with
      | some a, some b :: _ => some (.binary op a b i.name)
      | _, _ => none
    else some (.cast op a i.type i.name)
  | _, [] => none

/-- Fills `size` bytes at `dst` through the fill function. `origin` names the three constants of the call. -/
def appendMemset (m : Module) (b : BlockId) (dst : Value) (byte size : UInt64) (origin : Nat → Origin) :
    Module × Value :=
  let (m, f) := m.memset
  let (m, p) := m.appendOr b dst (Instr.pointerCast? dst .bytePointer "")
  let const (t : Ty) (v : UInt64) (k : Nat) : Option Value := some (.const (.ofInt t v) (origin k))
  m.append b (.call f .void [some p, const .i8 byte 0, const .i64 size 1, const .i1 0 2] "")

end CilSsa.Ssa.Module
