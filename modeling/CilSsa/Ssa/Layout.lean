import CilSsa.Number.Word
import CilSsa.Ssa.Module
import CilSsa.Text.Quoted

namespace CilSsa.Ssa

open CilSsa.Number CilSsa.Text

structure Target where
  arch : String
  pointerSize : Nat
  pointerAlign : Nat
deriving DecidableEq

structure UnknownTarget where
  name : String

def UnknownTarget.message (e : UnknownTarget) : String := "unknown target " ++ quote e.name

namespace Target

def known : List (String × Target) :=
  [("amd64", ⟨"x86_64", 8, 8⟩), ("arm64", ⟨"aarch64", 8, 8⟩), ("riscv64", ⟨"riscv64", 8, 8⟩),
   ("ppc64le", ⟨"powerpc64le", 8, 8⟩), ("s390x", ⟨"s390x", 8, 8⟩)]

def host : Target := ⟨"x86_64", 8, 8⟩

def parse (name : String) : Except UnknownTarget Target :=
  match (known.lookup name).or ((known.find? fun (_, t) ↦ t.arch == name).map (·.2)) with
  | some t => .ok t
  | none => .error ⟨name⟩

end Target

/-- Why a type has no layout. A cycle starts and ends with the same struct. -/
inductive LayoutError
  | recursive (cycle : List Ty)
  | noBody (t : Ty)
  | unsized (t : Ty)
deriving DecidableEq

def LayoutError.reason : LayoutError → String
  | .recursive _ => "recursive value type has infinite size"
  | .noBody _ => "opaque struct has no layout"
  | .unsized _ => "type has no storage size"

def LayoutError.message (e : LayoutError) : String :=
  match e with
  | .recursive cycle => e.reason ++ " (cycle: " ++ " -> ".intercalate (cycle.map Ty.text) ++ ")"
  | .noBody t => t.text ++ ": " ++ e.reason
  | .unsized t => t.text ++ ": " ++ e.reason

structure Layout where
  size : Nat
  align : Nat
  offsets : List Nat := []
  aligns : List Nat := []
deriving DecidableEq

namespace Layout

def empty : Layout := ⟨0, 1, [], []⟩

def scalar (size : Nat) : Layout := if size = 0 then empty else { size, align := size }

def roundUp (n align : Nat) : Nat := if align ≤ 1 then n else (n + align - 1) / align * align

/-- Puts one more member behind the others; the end is not rounded yet. -/
def place (l member : Layout) : Layout :=
  let align := max member.align 1
  let offset := roundUp l.size align
  { size := offset + member.size, align := max l.align align
    offsets := l.offsets ++ [offset], aligns := l.aligns ++ [align] }

def ofMembers (members : List Layout) : Layout :=
  let l := members.foldl place empty
  { l with size := roundUp l.size l.align }

end Layout

/-- A layout in integers of 64 bits, as it is handed out. Sums wrap around. -/
structure TypeLayout where
  size : Int
  align : Int
  offsets : List Int := []
  aligns : List Int := []
deriving DecidableEq

def Layout.wide (l : Layout) : TypeLayout := ⟨l.size, l.align, l.offsets.map Int.ofNat, l.aligns.map Int.ofNat⟩

namespace TypeLayout

def empty : TypeLayout := ⟨0, 1, [], []⟩

def scalar (size : Int) : TypeLayout := if size ≤ 0 then empty else { size, align := size }

def roundUp (n align : Int) : Int := if align ≤ 1 then n else (wrapInt (n + align - 1)).tdiv align * align

def place (l member : TypeLayout) : TypeLayout :=
  let align := max member.align 1
  let offset := roundUp l.size align
  { size := wrapInt (offset + member.size), align := max l.align align
    offsets := l.offsets ++ [offset], aligns := l.aligns ++ [align] }

def ofMembers (members : List TypeLayout) : TypeLayout :=
  let l := members.foldl place empty
  { l with size := roundUp l.size l.align }

/-- Up to here no sum wraps around, so the exact layout is the one to hand out. -/
def plain : Nat := 1152921504606846976

def ofType (m : Module) (target : Target) (ask : Ty → TypeLayout) : Ty → TypeLayout
  | .int bits => scalar ((wrapInt (bits + 7)).tdiv 8)
  | .float => scalar 4
  | .double => scalar 8
  | .pointer _ => { size := target.pointerSize, align := target.pointerAlign }
  | .struct id name => ofMembers (((m.fields? (.struct id name)).getD []).map ask)
  | _ => empty

/-- Layouts that are not known already are found anew; the fuel bounds the nesting. -/
def compute (m : Module) (target : Target) (known : Ty → Option TypeLayout) : Nat → Ty → TypeLayout
  | 0, _ => empty
  | fuel + 1, t => (known t).getD (ofType m target (compute m target known fuel) t)

end TypeLayout

structure Layouts where
  target : Target := .host
  memo : List (Ty × Except LayoutError Layout) := []

namespace Layouts

def remember (s : Layouts) (t : Ty) (answer : Except LayoutError Layout) : Layouts :=
  match answer with
  | .error (.noBody _) => s
  | _ => { s with memo := (t, answer) :: s.memo }

/-- What a question about layouts gives: the answer, and the layouts with what was learnt. -/
abbrev Answer (α : Type) := Except LayoutError α × Layouts

/-- Asks for one type after the other, up to the first that has no answer. -/
def each (ask : Ty → Layouts → Answer Layout) : List Ty → Layouts → Answer (List Layout)
  | [], s => (.ok [], s)
  | t :: ts, s => match ask t s with
    | (.error e, s) => (.error e, s)
    | (.ok l, s) => match each ask ts s with
      | (.error e, s) => (.error e, s)
      | (.ok ls, s) => (.ok (l :: ls), s)

/-- The layout of `t` while the structs on `path` are being laid out; the fuel bounds the nesting. -/
def compute (m : Module) : Nat → List Ty → Ty → Layouts → Answer Layout
  | 0, _, t, s => (.error (.unsized t), s)
  | fuel + 1, path, t, s =>
    match s.memo.lookup t with
    | some answer => (answer, s)
    | none =>
      if path.contains t then (.error (.recursive (path.dropWhile (· ≠ t) ++ [t])), s)
      else
        let found : Answer Layout := match t with
          | .int bits => (.ok (.scalar ((bits + 7) / 8)), s)
          | .float => (.ok (.scalar 4), s)
          | .double => (.ok (.scalar 8), s)
          | .pointer _ => (.ok { size := s.target.pointerSize, align := s.target.pointerAlign }, s)
          | .struct id name => match m.fields? (.struct id name) with
            | none => (.error (.noBody t), s)
            | some fields =>
              let (members, s) := each (compute m fuel (path ++ [t])) fields s
              (members.map Layout.ofMembers, s)
          | _ => (.error (.unsized t), s)
        (found.1, found.2.remember t found.1)

/-- More than structs of a module can be nested: each but the outermost is a member of another. -/
def nesting (m : Module) : Nat :=
  m.structs.foldl (fun n d ↦ n + (d.body.getD []).length) (m.structs.size + 1)

def of (s : Layouts) (m : Module) (t : Ty) : Answer Layout :=
  compute m (nesting m + 1) [] t s

/-- A remembered answer that is small enough to be handed out as it is. -/
def plain? (s : Layouts) (t : Ty) : Option TypeLayout :=
  match s.memo.lookup t with
  | some (.ok l) => if l.size + l.align ≤ TypeLayout.plain then some l.wide else none
  | _ => none

def layoutOf (s : Layouts) (m : Module) (t : Ty) : Answer TypeLayout :=
  let (r, s) := s.of m t
  (r.map fun _ ↦ .compute m s.target s.plain? (nesting m + 1) t, s)

def sizeOf (s : Layouts) (m : Module) (t : Ty) : Answer Nat :=
  let (r, s) := s.of m t
  (r.map (·.size), s)

def alignOf (s : Layouts) (m : Module) (t : Ty) : Answer Nat :=
  let (r, s) := s.of m t
  (r.map (·.align), s)

inductive OffsetError
  | layout (e : LayoutError)
  | noMember (t : Ty) (index : Int)
deriving DecidableEq

def OffsetError.message : OffsetError → String
  | .layout e => e.message
  | .noMember t i => t.text ++ " has no field " ++ toString i

def fieldOffset (s : Layouts) (m : Module) (t : Ty) (index : Int) : Except OffsetError Nat × Layouts :=
  let (r, s) := s.of m t
  (match r with
    | .error e => .error (.layout e)
    | .ok l => if index < 0 then .error (.noMember t index) else match l.offsets[index.toNat]? with
      | some o => .ok o
      | none => .error (.noMember t index), s)

def offsetOf (s : Layouts) (m : Module) (t : Ty) (index : Int) : Except OffsetError Int × Layouts :=
  let (r, s) := s.layoutOf m t
  (match r with
    | .error e => .error (.layout e)
    | .ok l => if index < 0 then .error (.noMember t index) else match l.offsets[index.toNat]? with
      | some o => .ok o
      | none => .error (.noMember t index), s)

end Layouts

end CilSsa.Ssa
