import CilSsa.Ssa.Dominance
import CilSsa.Ssa.Printer
import CilSsa.Text.Quoted

namespace CilSsa.Ssa

open CilSsa.Text

inductive Violation
  | emptyBlock
  | earlyTerminator
  | noTerminator
  | wrongHome
  | missingOperand
  | foreignOperand (ref : String)
  | noResult (ref : String)
  | notDominating (ref : String)
  | foreignParam (ref : String)
  | untypedOperand (ref : String)
  | foreignTarget
  | operandCount (want got : Nat)
  | allocates (t : Ty)
  | arraySize
  | loadAddress (t : Ty)
  | loadType (t address : Ty)
  | storeAddress (t : Ty)
  | storeType (t address : Ty)
  | memberAddress (t : Ty)
  | memberIndex (index : Int) (t : Ty)
  | typesDiffer (a b : Ty)
  | typesWanted (what : String) (got : Ty)
  | intPredicate (p : Pred)
  | floatPredicate (p : Pred)
  | selectCondition
  | selectArms
  | badCast (op : Op) (src dst : Ty)
  | noCallee
  | argumentCount (callee : String) (want got : Nat)
  | argumentType (index : Nat) (got want : Ty)
  | callType (got want : Ty)
  | branchTargets
  | condTargets
  | branchCondition (got : Ty)
  | returnsValue
  | returnsNothing (want : Ty)
  | returnType (got want : Ty)
  | unknownOp (op : Op)
deriving DecidableEq

def Violation.message : Violation → String
  | .emptyBlock => "empty block"
  | .earlyTerminator => "terminator in the middle of a block"
  | .noTerminator => "block does not end in a terminator"
  | .wrongHome => "instruction parent mismatch"
  | .missingOperand => "nil operand"
  | .foreignOperand r => "operand " ++ r ++ " is not defined in this function"
  | .noResult r => "operand " ++ r ++ " produces no value"
  | .notDominating r => "operand " ++ r ++ " does not dominate its use"
  | .foreignParam r => "parameter " ++ r ++ " belongs to another function"
  | .untypedOperand r => "operand " ++ r ++ " has no type"
  | .foreignTarget => "branch target outside of function"
  | .operandCount want got => "expected " ++ toString want ++ " operands, got " ++ toString got
  | .allocates t => "cannot allocate " ++ t.text
  | .arraySize => "array size must be an integer"
  | .loadAddress t => "load from non-pointer " ++ t.text
  | .loadType t p => "load of " ++ t.text ++ " through " ++ p.text
  | .storeAddress t => "store to non-pointer " ++ t.text
  | .storeType t p => "stored value type " ++ t.text ++ " does not match pointer " ++ p.text
  | .memberAddress t => "struct GEP on " ++ t.text
  | .memberIndex i t => "member index " ++ toString i ++ " out of range for " ++ t.text
  | .typesDiffer a b => "operand types " ++ a.text ++ " and " ++ b.text ++ " differ"
  | .typesWanted what t => "operands must be " ++ what ++ ", got " ++ t.text
  | .intPredicate p => "invalid icmp predicate " ++ p.text
  | .floatPredicate p => "invalid fcmp predicate " ++ p.text
  | .selectCondition => "select condition must be i1"
  | .selectArms => "select arms disagree"
  | .badCast op a b => "invalid " ++ op.text ++ " from " ++ a.text ++ " to " ++ b.text
  | .noCallee => "call without callee"
  | .argumentCount f want got =>
    f ++ " expects " ++ toString want ++ " arguments, got " ++ toString got
  | .argumentType i got want => "argument " ++ toString i ++ " has type " ++ got.text ++ ", want " ++ want.text
  | .callType got want => "call result type " ++ got.text ++ " does not match " ++ want.text
  | .branchTargets => "br needs one target"
  | .condTargets => "conditional br needs two targets"
  | .branchCondition t => "branch condition must be i1, got " ++ t.text
  | .returnsValue => "void function returns a value"
  | .returnsNothing t => "missing return value of type " ++ t.text
  | .returnType got want => "returned " ++ got.text ++ " from function returning " ++ want.text
  | .unknownOp op => "unknown opcode " ++ op.text

/-- A violation where it was found: the block, and the instruction as printed. -/
structure VerifyError where
  block : String
  instr : Option String
  violation : Violation

def VerifyError.message (e : VerifyError) : String :=
  e.block ++ (match e.instr with
    | some s => ": " ++ quote s
    | none => "") ++ ": " ++ e.violation.message

def validCast (op : Op) (src dst : Ty) : Bool :=
  match op with
  | .trunc => src.isInt && dst.isInt && dst.bits < src.bits
  | .zext | .sext => src.isInt && dst.isInt && src.bits < dst.bits
  | .fptrunc => src == .double && dst == .float
  | .fpext => src == .float && dst == .double
  | .sitofp | .uitofp => src.isInt && dst.isFloating
  | .fptosi | .fptoui => src.isFloating && dst.isInt
  | .inttoptr => src.isInt && dst.isPointer
  | .ptrtoint => src.isPointer && dst.isInt
  | .bitcast => src.isPointer && dst.isPointer
  | _ => false

def when (c : Bool) (v : Violation) : List Violation := if c then [v] else []

/-- The types of exactly `n` operands, or what is wrong with their number. Operands that are missing or
have no type are reported elsewhere. -/
def operandTypes (n : Nat) (i : Instr) : Except (List Violation) (List Ty) :=
  if i.operands.length ≠ n then .error [.operandCount n i.operands.length]
  else match i.operands.mapM id with
    | none => .error []
    | some vs => if vs.any fun v ↦ v.type == .untyped then .error [] else .ok (vs.map (·.type))

def sameTypes (fits : Ty → Bool) (what : String) (a b : Ty) : List Violation :=
  if a ≠ b then [.typesDiffer a b] else when (!fits a) (.typesWanted what a)

namespace Module

variable (m : Module)

def checkCall (i : Instr) : List Violation :=
  match i.callee.bind m.function? with
  | none => [.noCallee]
  | some f =>
    let params := f.paramTypes
    if i.operands.length ≠ params.length then [.argumentCount f.ref params.length i.operands.length]
    else
      ((i.operands.zip params).zipIdx.flatMap fun ((v, want), k) ↦ match v with
        | some v => when (v.type != want) (.argumentType k v.type want)
        | none => []) ++
      when (i.type != f.ret) (.callType i.type f.ret)

def checkReturn (f : Function) (i : Instr) : List Violation :=
  if f.ret = .void ∧ i.operands ≠ [] then [.returnsValue]
  else if f.ret ≠ .void ∧ i.operands.length ≠ 1 then [.returnsNothing f.ret]
  else match i.operands with
    | [some v] => when (v.type != f.ret) (.returnType v.type f.ret)
    | _ => []

/-- What is wrong with the operands of `n`-ary instruction `i`, as `check` sees their types. -/
def checkOperands (n : Nat) (i : Instr) (check : List Ty → List Violation) : List Violation :=
  match operandTypes n i with
  | .ok ts => check ts
  | .error vs => vs

def checkInstr (f : Function) (i : Instr) : List Violation :=
  match i.op with
  | .alloca =>
    when (!i.allocated.hasValue || i.allocated.kind == 7 || m.lacksBody i.allocated) (.allocates i.allocated) ++
    match i.operands with
    | [some v] => when (!v.type.isInt) .arraySize
    | _ => []
  | .load => checkOperands 1 i fun
    | [p] => match p with
      | .pointer e => when (e != i.type || e == .void || m.lacksBody e) (.loadType i.type p)
      | _ => [.loadAddress p]
    | _ => []
  | .store => checkOperands 2 i fun
    | [v, p] => match p with
      | .pointer e => when (e != v) (.storeType v p)
      | _ => [.storeAddress p]
    | _ => []
  | .gep => checkOperands 1 i fun
    | [p] => match p with
      | .pointer (.struct id name) =>
        let count := match m.fields? (.struct id name) with
          | some fs => fs.length
          | none => 0
        when (i.index < 0 || (count : Int) ≤ i.index) (.memberIndex i.index (.struct id name))
      | _ => [.memberAddress p]
    | _ => []
  | .add | .sub | .mul => checkOperands 2 i fun
    | [a, b] => sameTypes Ty.isInt "integer" a b
    | _ => []
  | .fadd | .fsub | .fmul => checkOperands 2 i fun
    | [a, b] => sameTypes Ty.isFloating "floating-point" a b
    | _ => []
  | .icmp => checkOperands 2 i fun
    | [a, b] => sameTypes (fun t ↦ t.isInt || t.isPointer) "integer or pointer" a b ++
        when (i.pred == .other 0 || i.pred.isFloat) (.intPredicate i.pred)
    | _ => []
  | .fcmp => checkOperands 2 i fun
    | [a, b] => sameTypes Ty.isFloating "floating-point" a b ++
        when (!i.pred.isFloat) (.floatPredicate i.pred)
    | _ => []
  | .select => checkOperands 3 i fun
    | [c, a, b] => when (c != .i1) .selectCondition ++ when (a != b || i.type != a) .selectArms
    | _ => []
  | .call => m.checkCall i
  | .br => when (i.targets.length != 1) .branchTargets
  | .condbr => when (i.targets.length != 2) .condTargets ++ checkOperands 1 i fun
    | [c] => when (c != .i1) (.branchCondition c)
    | _ => []
  | .ret => checkReturn f i
  | .other _ => [.unknownOp i.op]
  | _ => checkOperands 1 i fun
    | [t] => when (!validCast i.op t i.type) (.badCast i.op t i.type)
    | _ => []

/-- What is wrong with one operand of the instruction at place `pos` of block `b`. -/
def checkOperand (f : Function) (dom : DomTree) (b : BlockId) (pos : Nat) : Option Value → List Violation
  | none => [.missingOperand]
  | some v =>
    let untyped := when (v.type == .untyped) (.untypedOperand (m.ref v))
    match v with
    | .instr id t =>
      match (m.instr? id).bind (·.home) with
      | none => [.foreignOperand (m.ref v)]
      | some home =>
        if home.fn ≠ f.id then [.foreignOperand (m.ref v)]
        else if !t.hasValue then [.noResult (m.ref v)]
        else
          let dominated := if home = b then
              match (m.block? b).bind fun blk ↦ blk.instrs.idxOf? id.index with
              | some k => k < pos
              | none => true
            else dom.dominates home b
          when (!dominated) (.notDominating (m.ref v)) ++ untyped
    | .param fn _ _ => when (fn != f.id) (.foreignParam (m.ref v)) ++ untyped
    | _ => untyped

def checkPlaced (f : Function) (dom : DomTree) (b : BlockId) (last : Bool) (pos : Nat) (i : Instr) :
    List Violation :=
  when (i.op.isTerminator && !last) .earlyTerminator ++
  when (last && !i.op.isTerminator) .noTerminator ++
  when (i.home != some b) .wrongHome ++
  i.operands.flatMap (m.checkOperand f dom b pos) ++
  i.targets.flatMap (fun t ↦ when ((t.map (·.fn)) != some f.id) .foreignTarget) ++
  m.checkInstr f i

def checkBlock (f : Function) (dom : DomTree) (id : BlockId) (b : Block) : List VerifyError :=
  if b.instrs.isEmpty then [⟨b.label, none, .emptyBlock⟩]
  else
    let is := f.instrsOf b
    is.zipIdx.flatMap fun ((_, i), pos) ↦
      (m.checkPlaced f dom id (pos + 1 == is.length) pos i).map fun v ↦ ⟨b.label, some (m.instrText i), v⟩

def verify (f : Function) : List VerifyError :=
  if f.isDeclaration then []
  else
    let dom := DomTree.of m f
    f.blocks.toList.zipIdx.flatMap fun (b, k) ↦ m.checkBlock f dom (f.blockId k) b

end Module

end CilSsa.Ssa
