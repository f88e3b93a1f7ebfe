import CilSsa.Ssa.Type

namespace CilSsa.Ssa

inductive Op
  | alloca | load | store | gep | add | sub | mul | fadd | fsub | fmul | icmp | fcmp | select
  | trunc | zext | sext | fptrunc | fpext | sitofp | uitofp | fptosi | fptoui | inttoptr | ptrtoint
  | bitcast | call | br | condbr | ret
  | other (code : Nat)
deriving DecidableEq

namespace Op

def all : List Op :=
  [.alloca, .load, .store, .gep, .add, .sub, .mul, .fadd, .fsub, .fmul, .icmp, .fcmp, .select,
   .trunc, .zext, .sext, .fptrunc, .fpext, .sitofp, .uitofp, .fptosi, .fptoui, .inttoptr, .ptrtoint,
   .bitcast, .call, .br, .condbr, .ret]

def ofCode (n : Nat) : Op := if n % 256 = 0 then .other 0 else all.getD (n % 256 - 1) (.other (n % 256))

def text : Op → String
  | .alloca => "alloca"
  | .load => "load"
  | .store => "store"
  | .gep => "getelementptr"
  | .add => "add"
  | .sub => "sub"
  | .mul => "mul"
  | .fadd => "fadd"
  | .fsub => "fsub"
  | .fmul => "fmul"
  | .icmp => "icmp"
  | .fcmp => "fcmp"
  | .select => "select"
  | .trunc => "trunc"
  | .zext => "zext"
  | .sext => "sext"
  | .fptrunc => "fptrunc"
  | .fpext => "fpext"
  | .sitofp => "sitofp"
  | .uitofp => "uitofp"
  | .fptosi => "fptosi"
  | .fptoui => "fptoui"
  | .inttoptr => "inttoptr"
  | .ptrtoint => "ptrtoint"
  | .bitcast => "bitcast"
  | .call => "call"
  | .br => "br"
  | .condbr => "br"
  | .ret => "ret"
  | .other n => "op(" ++ toString n ++ ")"

/-- The name by which an operation is asked for, which tells the two branches apart. -/
def key : Op → String
  | .gep => "gep"
  | .condbr => "condbr"
  | op => op.text

def ofKey? (s : String) : Option Op := all.find? fun op ↦ op.key == s

def isTerminator : Op → Bool
  | .br | .condbr | .ret => true
  | _ => false

def isCast : Op → Bool
  | .trunc | .zext | .sext | .fptrunc | .fpext | .sitofp | .uitofp | .fptosi | .fptoui
  | .inttoptr | .ptrtoint | .bitcast => true
  | _ => false

def isBinary : Op → Bool
  | .add | .sub | .mul | .fadd | .fsub | .fmul => true
  | _ => false

/-- Has no effect beyond its value, so it may go when the value is not used. -/
def isPure : Op → Bool
  | .store | .call | .br | .condbr | .ret => false
  | _ => true

end Op

inductive Pred
  | eq | ne | slt | sle | sgt | sge | ult | ule | ugt | uge
  | oeq | one | olt | ole | ogt | oge | ueq | une | fult | fule | fugt | fuge
  | other (code : Nat)
deriving DecidableEq

namespace Pred

def all : List Pred :=
  [.eq, .ne, .slt, .sle, .sgt, .sge, .ult, .ule, .ugt, .uge,
   .oeq, .one, .olt, .ole, .ogt, .oge, .ueq, .une, .fult, .fule, .fugt, .fuge]

def ofCode (n : Nat) : Pred := if n % 256 = 0 then .other 0 else all.getD (n % 256 - 1) (.other (n % 256))

def text : Pred → String
  | .eq => "eq"
  | .ne => "ne"
  | .slt => "slt"
  | .sle => "sle"
  | .sgt => "sgt"
  | .sge => "sge"
  | .ult => "ult"
  | .ule => "ule"
  | .ugt => "ugt"
  | .uge => "uge"
  | .oeq => "oeq"
  | .one => "one"
  | .olt => "olt"
  | .ole => "ole"
  | .ogt => "ogt"
  | .oge => "oge"
  | .ueq => "ueq"
  | .une => "une"
  | .fult => "ult"
  | .fule => "ule"
  | .fugt => "ugt"
  | .fuge => "uge"
  | .other n => "pred(" ++ toString n ++ ")"

/-- The name by which a predicate is asked for, which tells integers and floats apart. -/
def key : Pred → String
  | .fult => "fult"
  | .fule => "fule"
  | .fugt => "fugt"
  | .fuge => "fuge"
  | p => p.text

def ofKey? (s : String) : Option Pred := all.find? fun p ↦ p.key == s

def isFloat : Pred → Bool
  | .eq | .ne | .slt | .sle | .sgt | .sge | .ult | .ule | .ugt | .uge => false
  | .other n => 11 ≤ n
  | _ => true

def swapped : Pred → Pred
  | .slt => .sgt
  | .sgt => .slt
  | .sle => .sge
  | .sge => .sle
  | .ult => .ugt
  | .ugt => .ult
  | .ule => .uge
  | .uge => .ule
  | .olt => .ogt
  | .ogt => .olt
  | .ole => .oge
  | .oge => .ole
  | .fult => .fugt
  | .fugt => .fult
  | .fule => .fuge
  | .fuge => .fule
  | p => p

end Pred

end CilSsa.Ssa
