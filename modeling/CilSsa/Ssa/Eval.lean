import CilSsa.Ssa.Value

namespace CilSsa.Ssa

open CilSsa.Number

inductive EvalError
  | notBinary (op : Op)
  | notCast (op : Op)
deriving DecidableEq

def EvalError.message : EvalError → String
  | .notBinary op => op.text ++ " is not a binary op"
  | .notCast op => op.text ++ " is not a cast"

def onDoubles (t : Ty) (f : UInt64 → UInt64 → UInt64) (a b : UInt64) : UInt64 :=
  floatBits t (f (doubleOfBits t a) (doubleOfBits t b))

def evalBinary (op : Op) (t : Ty) (a b : UInt64) : Except EvalError UInt64 :=
  match op with
  | .add => .ok (signExtend (a + b) t.bits)
  | .sub => .ok (signExtend (a - b) t.bits)
  | .mul => .ok (signExtend (a * b) t.bits)
  | .fadd => .ok (onDoubles t addDouble a b)
  | .fsub => .ok (onDoubles t subDouble a b)
  | .fmul => .ok (onDoubles t mulDouble a b)
  | _ => .error (.notBinary op)

/-- Floating-point predicates by the order of the operands; no order means that one is not a number. -/
def floatHolds (p : Pred) (order : Option Ordering) : Bool :=
  match p with
  | .oeq => order == some .eq
  | .one => order == some .lt || order == some .gt
  | .olt => order == some .lt
  | .ole => order == some .lt || order == some .eq
  | .ogt => order == some .gt
  | .oge => order == some .gt || order == some .eq
  | .ueq => order.all (· == .eq)
  | .une => order.all (· != .eq)
  | .fult => order.all (· == .lt)
  | .fule => order.all (· != .gt)
  | .fugt => order.all (· == .gt)
  | .fuge => order.all (· != .lt)
  | _ => false

def intHolds (p : Pred) (bits : Nat) (a b : UInt64) : Bool :=
  let sa := intOfWord (signExtend a bits)
  let sb := intOfWord (signExtend b bits)
  let ua := zeroExtend a bits
  let ub := zeroExtend b bits
  match p with
  | .eq => ua == ub
  | .ne => ua != ub
  | .slt => sa < sb
  | .sle => sa ≤ sb
  | .sgt => sb < sa
  | .sge => sb ≤ sa
  | .ult => ua < ub
  | .ule => ua ≤ ub
  | .ugt => ub < ua
  | .uge => ub ≤ ua
  | _ => false

/-- Compares two patterns of one type; pointers compare as 64-bit integers. -/
def evalCompare (p : Pred) (t : Ty) (a b : UInt64) : Bool :=
  if p.isFloat then floatHolds p (compareDouble (doubleOfBits t a) (doubleOfBits t b))
  else intHolds p (match t with
    | .int n => n
    | _ => 64) a b

def boolBits (b : Bool) : UInt64 := if b then signExtend 1 1 else 0

def isTrueBits (v : UInt64) : Bool := v &&& 1 != 0

def evalCast (op : Op) (src dst : Ty) (v : UInt64) : Except EvalError UInt64 :=
  match op with
  | .trunc | .sext => .ok (signExtend v dst.bits)
  | .zext => .ok (signExtend (zeroExtend v src.bits) dst.bits)
  | .fptrunc | .fpext => .ok (floatBits dst (doubleOfBits src v))
  | .sitofp => .ok (floatBits dst (doubleOfInt (intOfWord (signExtend v src.bits))))
  | .uitofp => .ok (floatBits dst (doubleOfInt (zeroExtend v src.bits).toNat))
  | .fptosi => .ok (signExtend (doubleToSigned (doubleOfBits src v)) dst.bits)
  | .fptoui => .ok (signExtend (doubleToUnsigned (doubleOfBits src v)) dst.bits)
  | .inttoptr => .ok (zeroExtend v src.bits)
  | .ptrtoint => .ok (signExtend v dst.bits)
  | .bitcast => .ok v
  | _ => .error (.notCast op)

end CilSsa.Ssa
