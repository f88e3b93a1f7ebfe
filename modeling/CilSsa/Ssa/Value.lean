import CilSsa.Number.Binary
import CilSsa.Number.Word
import CilSsa.Ssa.Op

namespace CilSsa.Ssa

open CilSsa.Number CilSsa.Text

structure FuncId where
  index : Nat
deriving DecidableEq, Hashable

structure BlockId where
  fn : FuncId
  index : Nat
deriving DecidableEq, Hashable

structure InstrId where
  fn : FuncId
  index : Nat
deriving DecidableEq, Hashable

/-- Constants. An integer is extended from the width of its type and a float is given as a double. -/
inductive Const
  | int (type : Ty) (pattern : UInt64)
  | float (type : Ty) (double : UInt64)
  | null (type : Ty)
  | undef (type : Ty)
deriving DecidableEq

/-- Which constant: the one made as number so many, or the one that replaced an instruction. Equal
constants made apart stay apart where an operand is compared with an operand. -/
inductive Origin
  | made (n : Nat)
  | folded (i : InstrId)
deriving DecidableEq

inductive Value
  | instr (id : InstrId) (type : Ty)
  | param (fn : FuncId) (index : Nat) (type : Ty)
  | func (id : FuncId) (signature : Ty)
  | const (c : Const) (origin : Origin)
deriving DecidableEq

def floatBits (t : Ty) (double : UInt64) : UInt64 :=
  match t with
  | .float => (narrow double).toUInt64
  | _ => double

def doubleOfBits (t : Ty) (v : UInt64) : UInt64 :=
  match t with
  | .float => widen v.toUInt32
  | _ => v

namespace Const

def ofInt (t : Ty) (v : UInt64) : Const := .int t (signExtend v t.bits)

def ofDouble (t : Ty) (double : UInt64) : Const :=
  match t with
  | .float => .float t (widen (narrow double))
  | _ => .float t double

def type : Const → Ty
  | .int t _ => t
  | .float t _ => t
  | .null t => t
  | .undef t => t

def bits? : Const → Option UInt64
  | .int _ v => some v
  | .float t d => some (floatBits t d)
  | .null _ => some 0
  | .undef _ => none

/-- The constant of a type with a given pattern; a pointer has only the null constant. -/
def ofBits? (t : Ty) (v : UInt64) : Option Const :=
  match t with
  | .int _ => some (ofInt t v)
  | .float | .double => some (ofDouble t (doubleOfBits t v))
  | .pointer _ => if v = 0 then some (.null t) else none
  | _ => none

def text : Const → String
  | .int t v => if t.bits = 1 then (if v = 0 then "false" else "true") else toString (intOfWord v)
  | .float _ d => "0x" ++ hexPaddedUpper 16 d.toNat
  | .null _ => "null"
  | .undef _ => "undef"

end Const

namespace Value

def type : Value → Ty
  | .instr _ t => t
  | .param _ _ t => t
  | .func _ sig => .pointer sig
  | .const c _ => c.type

def const? : Value → Option Const
  | .const c _ => some c
  | _ => none

def isConst (v : Value) : Bool := v.const?.isSome

def bits? (v : Value) : Option UInt64 := v.const?.bind Const.bits?

end Value

end CilSsa.Ssa
