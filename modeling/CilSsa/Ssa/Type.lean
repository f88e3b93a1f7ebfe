import CilSsa.Text.Hex

namespace CilSsa.Ssa

/-- Types. `untyped` stands where an instruction or a signature gives no type. -/
inductive Ty
  | untyped
  | void
  | int (bits : Nat)
  | float
  | double
  | pointer (elem : Ty)
  | struct (id : Nat) (name : String)
  | func (ret : Ty) (params : List Ty)

instance : Inhabited Ty := ⟨.untyped⟩

mutual

def Ty.decEq : (a b : Ty) → Decidable (a = b)
  | .untyped, b => match b with
    | .untyped => isTrue rfl
    | .void | .int _ | .float | .double | .pointer _ | .struct .. | .func .. => isFalse nofun
  | .void, b => match b with
    | .void => isTrue rfl
    | .untyped | .int _ | .float | .double | .pointer _ | .struct .. | .func .. => isFalse nofun
  | .int m, b => match b with
    | .int n => decidable_of_iff (m = n) ⟨congrArg _, fun h ↦ by injection h⟩
    | .untyped | .void | .float | .double | .pointer _ | .struct .. | .func .. => isFalse nofun
  | .float, b => match b with
    | .float => isTrue rfl
    | .untyped | .void | .int _ | .double | .pointer _ | .struct .. | .func .. => isFalse nofun
  | .double, b => match b with
    | .double => isTrue rfl
    | .untyped | .void | .int _ | .float | .pointer _ | .struct .. | .func .. => isFalse nofun
  | .pointer x, b => match b with
    | .pointer y => match x.decEq y with
      | isTrue h => isTrue (congrArg _ h)
      | isFalse h => isFalse fun e ↦ h (by injection e)
    | .untyped | .void | .int _ | .float | .double | .struct .. | .func .. => isFalse nofun
  | .struct i s, b => match b with
    | .struct j t => decidable_of_iff (i = j ∧ s = t)
        ⟨fun ⟨h, h'⟩ ↦ h ▸ h' ▸ rfl, fun h ↦ by injection h with h h'; exact ⟨h, h'⟩⟩
    | .untyped | .void | .int _ | .float | .double | .pointer _ | .func .. => isFalse nofun
  | .func r ps, b => match b with
    | .func r' ps' => match r.decEq r', Ty.decEqList ps ps' with
      | isTrue hr, isTrue hp => isTrue (hr ▸ hp ▸ rfl)
      | isFalse h, _ => isFalse fun e ↦ h (by injection e)
      | _, isFalse h => isFalse fun e ↦ h (by injection e)
    | .untyped | .void | .int _ | .float | .double | .pointer _ | .struct .. => isFalse nofun

def Ty.decEqList : (as bs : List Ty) → Decidable (as = bs)
  | [], [] => isTrue rfl
  | [], _ :: _ => isFalse nofun
  | _ :: _, [] => isFalse nofun
  | a :: as, b :: bs => match a.decEq b, Ty.decEqList as bs with
    | isTrue h, isTrue hs => isTrue (h ▸ hs ▸ rfl)
    | isFalse h, _ => isFalse fun e ↦ h (by injection e)
    | _, isFalse h => isFalse fun e ↦ h (by injection e)

end

instance : DecidableEq Ty := Ty.decEq

def kindName (code : Nat) : String :=
  match code % 256 with
  | 1 => "void"
  | 2 => "int"
  | 3 => "float"
  | 4 => "double"
  | 5 => "pointer"
  | 6 => "struct"
  | 7 => "func"
  | n => "kind(" ++ toString n ++ ")"

def isPlain (c : Char) : Bool :=
  ('a' ≤ c && c ≤ 'z') || ('A' ≤ c && c ≤ 'Z') || ('0' ≤ c && c ≤ '9') || c == '_' || c == '.' || c == '$'

/-- A symbol as it is printed: plain, or between quotes with its own quotes escaped. -/
def quoteName (name : String) : String :=
  if name.toList.all isPlain then name
  else String.ofList ('"' :: name.toList.flatMap (fun c ↦ if c = '"' then ['\\', '2', '2'] else [c]) ++ ['"'])

namespace Ty

def kind : Ty → Nat
  | .untyped => 0
  | .void => 1
  | .int _ => 2
  | .float => 3
  | .double => 4
  | .pointer _ => 5
  | .struct .. => 6
  | .func .. => 7

def i1 : Ty := .int 1
def i8 : Ty := .int 8
def i16 : Ty := .int 16
def i32 : Ty := .int 32
def i64 : Ty := .int 64

def bytePointer : Ty := .pointer i8

def bits : Ty → Nat
  | .int n => n
  | _ => 0

def isInt : Ty → Bool
  | .int _ => true
  | _ => false

def isFloating : Ty → Bool
  | .float | .double => true
  | _ => false

def isPointer : Ty → Bool
  | .pointer _ => true
  | _ => false

def isStruct : Ty → Bool
  | .struct .. => true
  | _ => false

def hasValue : Ty → Bool
  | .untyped | .void => false
  | _ => true

def pointee : Ty → Ty
  | .pointer t => t
  | _ => .void

mutual

def text : Ty → String
  | .untyped => "<nil>"
  | .void => "void"
  | .int n => "i" ++ toString n
  | .float => "float"
  | .double => "double"
  | .pointer t => t.text ++ "*"
  | .struct _ name => "%" ++ quoteName name
  | .func ret params => ret.text ++ " (" ++ ", ".intercalate (texts params) ++ ")"

def texts : List Ty → List String
  | [] => []
  | t :: ts => t.text :: texts ts

end

end Ty

end CilSsa.Ssa
