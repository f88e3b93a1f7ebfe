import CilSsa.Ssa.Module

namespace CilSsa.Ssa

open CilSsa.Text

def Block.label (b : Block) : String := "%" ++ quoteName b.name

def Function.ref (f : Function) : String := "@" ++ quoteName f.name

def Instr.ref (i : Instr) : String :=
  if i.name = "" then "%" ++ toString i.number else "%" ++ quoteName i.name

def Param.ref (p : Param) (index : Nat) : String :=
  if p.name = "" then "%arg" ++ toString index else "%" ++ quoteName p.name

namespace Module

variable (m : Module)

def ref : Value → String
  | .instr id _ => ((m.instr? id).map (·.ref)).getD "%0"
  | .param fn i _ => (((m.function? fn).bind fun f ↦ f.params[i]?).map (·.ref i)).getD ("%arg" ++ toString i)
  | .func f _ => ((m.function? f).map (·.ref)).getD "@"
  | .const c _ => c.text

def typed : Option Value → String
  | none => "<nil>"
  | some v => v.type.text ++ " " ++ m.ref v

/-- An operand by its place; one that is not there is printed as unspecified. -/
def operandAt (i : Instr) (n : Nat) : Option Value :=
  i.operands.getD n (some (.const (.undef .void) (.made 0)))

def typedAt (i : Instr) (n : Nat) : String := m.typed (operandAt i n)

def refAt (i : Instr) (n : Nat) : String := ((operandAt i n).map m.ref).getD "<nil>"

def targetLabel (i : Instr) (n : Nat) : String :=
  match i.targets[n]? with
  | some (some b) => ((m.block? b).map (·.label)).getD "%<nil>"
  | _ => "%<nil>"

def instrText (i : Instr) : String :=
  let lhs := if i.hasValue then i.ref ++ " = " else ""
  match i.op with
  | .alloca => match i.operands with
    | [count] => lhs ++ "alloca " ++ i.allocated.text ++ ", " ++ m.typed count
    | _ => lhs ++ "alloca " ++ i.allocated.text
  | .load => lhs ++ "load " ++ i.type.text ++ ", " ++ m.typedAt i 0
  | .store => "store " ++ m.typedAt i 0 ++ ", " ++ m.typedAt i 1
  | .gep =>
    let elem := ((operandAt i 0).map fun v ↦ v.type.pointee).getD .void
    lhs ++ "getelementptr inbounds " ++ elem.text ++ ", " ++ m.typedAt i 0 ++ ", i32 0, i32 " ++ toString i.index
  | .icmp | .fcmp =>
    lhs ++ i.op.text ++ " " ++ i.pred.text ++ " " ++ m.typedAt i 0 ++ ", " ++ m.refAt i 1
  | .select => lhs ++ "select " ++ m.typedAt i 0 ++ ", " ++ m.typedAt i 1 ++ ", " ++ m.typedAt i 2
  | .call =>
    let callee := ((i.callee.bind m.function?).map (·.ref)).getD "<nil>"
    lhs ++ "call " ++ i.type.text ++ " " ++ callee ++ "(" ++ ", ".intercalate (i.operands.map m.typed) ++ ")"
  | .br => "br label " ++ m.targetLabel i 0
  | .condbr => "br " ++ m.typedAt i 0 ++ ", label " ++ m.targetLabel i 0 ++ ", label " ++ m.targetLabel i 1
  | .ret => match i.operands with
    | [] => "ret void"
    | v :: _ => "ret " ++ m.typed v
  | .add | .sub | .mul | .fadd | .fsub | .fmul =>
    lhs ++ i.op.text ++ " " ++ m.typedAt i 0 ++ ", " ++ m.refAt i 1
  | .trunc | .zext | .sext | .fptrunc | .fpext | .sitofp | .uitofp | .fptosi | .fptoui
  | .inttoptr | .ptrtoint | .bitcast =>
    lhs ++ i.op.text ++ " " ++ m.typedAt i 0 ++ " to " ++ i.type.text
  | .other _ => lhs ++ "<" ++ i.op.text ++ ">"

def blockText (f : Function) (b : Block) : String :=
  quoteName b.name ++ ":\n" ++
    String.join ((f.instrsOf b).map fun (_, i) ↦ "  " ++ m.instrText i ++ "\n")

def functionText (f : Function) : String :=
  if f.isDeclaration then
    "declare " ++ f.ret.text ++ " " ++ f.ref ++ "(" ++ ", ".intercalate (f.params.map fun p ↦ p.type.text) ++ ")\n"
  else
    let params := f.params.zipIdx.map fun (p, i) ↦ p.type.text ++ " " ++ p.ref i
    "define " ++ f.ret.text ++ " " ++ f.ref ++ "(" ++ ", ".intercalate params ++ ") \x7b\n" ++
      "\n".intercalate (f.blocks.toList.map (m.blockText f)) ++ "\x7d\n"

def structText (t : Ty) : String :=
  t.text ++ " = type " ++ match m.fields? t with
    | none => "opaque\n"
    | some fs => "\x7b " ++ ", ".intercalate (fs.map Ty.text) ++ " \x7d\n"

def printFunction (f : FuncId) : Module × String :=
  let m := m.modifyFunction f Function.renumber
  (m, ((m.function? f).map m.functionText).getD "")

/-- Prints the module. Each function is numbered anew when its turn comes. -/
def print : Module × String :=
  let structs := String.join (m.liveStructs.map fun i ↦ m.structText (m.structType i))
  let (m, functions) := m.liveFunctions.foldl (fun (m, text) i ↦
    let (m, s) := m.printFunction ⟨i⟩
    (m, text ++ "\n" ++ s)) (m, "")
  (m, "; ModuleID = '" ++ m.name ++ "'\n" ++ (if m.liveStructs.isEmpty then "" else "\n") ++ structs ++ functions)

end Module

end CilSsa.Ssa
