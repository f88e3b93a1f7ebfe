import CilSsa.Image.Basic
import CilSsa.Text.Quoted

namespace CilSsa.Pipeline

open CilSsa.Image CilSsa.Text

structure ImportGraph where
  names : List String
  imports : List (List Nat)

inductive OrderError
  | usedTwice (name : String) (first second : Nat)
  | notGiven (image wanted : String)
  | cycle (names : List String)
deriving DecidableEq

def OrderError.message : OrderError → String
  | .usedTwice n i j =>
    "image name " ++ quote n ++ " used twice (entries " ++ toString i ++ " and " ++ toString j ++ ")"
  | .notGiven i w => "image " ++ i ++ " imports " ++ quote w ++ ", which is not among the inputs"
  | .cycle ns => "import cycle among images: " ++ ", ".intercalate ns

def repeated? (names : List String) : Option (String × Nat × Nat) :=
  names.zipIdx.findSome? fun (n, j) ↦ match names.idxOf? n with
    | some i => if i < j then some (n, i, j) else none
    | none => none

def importOf (names : List String) (image wanted : String) : Except OrderError Nat :=
  match names.idxOf? wanted with
  | some i => .ok i
  | none => .error (.notGiven image wanted)

namespace ImportGraph

/-- The graph of some images, in which names are unique and imports are present. -/
def ofImages (images : List Image) : Except OrderError ImportGraph := do
  let names := images.map (·.name)
  if let some (n, i, j) := repeated? names then throw (.usedTwice n i j)
  return { names, imports := ← images.mapM fun img ↦ img.imports.mapM (importOf names img.name) }

variable (g : ImportGraph)

def importsOf (i : Nat) : List Nat := g.imports.getD i []

def nameOf (i : Nat) : String := g.names.getD i ""

/-- Who imports each image, and how many of its imports each image waits for. What is listed twice counts twice. -/
structure Counters where
  edges : List (List Nat)
  indeg : List Int

def Counters.add (image : Nat) (c : Counters) (wanted : Nat) : Counters :=
  { edges := c.edges.modify wanted (· ++ [image]), indeg := c.indeg.modify image (· + 1) }

def counters : Counters :=
  g.imports.zipIdx.foldl (fun c (row, image) ↦ row.foldl (Counters.add image) c)
    ⟨List.replicate g.names.length [], List.replicate g.names.length 0⟩

/-- How far the countdown is: the counters, the images whose counter has come to zero in this round, and the number of
images in the batches. -/
structure Countdown where
  indeg : List Int
  next : List Nat := []
  visited : Nat := 0

namespace Countdown

def above (s : Countdown) : Nat := s.indeg.countP (0 < ·)

def lower (s : Countdown) (i : Nat) : Countdown :=
  let indeg := s.indeg.modify i (· - 1)
  { s with indeg, next := if indeg[i]? = some 0 then s.next ++ [i] else s.next }

def visit (edges : List (List Nat)) (s : Countdown) (i : Nat) : Countdown :=
  (edges.getD i []).foldl lower { s with visited := s.visited + 1 }

def round (edges : List (List Nat)) (s : Countdown) (batch : List Nat) : Countdown :=
  batch.foldl (visit edges) { s with next := [] }

theorem countP_modify {p : Int → Bool} {f : Int → Int} (xs : List Int) (i : Nat) (x : Int) (h : xs[i]? = some x) :
    (xs.modify i f).countP p + (if p x then 1 else 0) = xs.countP p + if p (f x) then 1 else 0 := by
  induction xs generalizing i with
  | nil => cases h
  | cons y ys ih =>
    cases i with
    | zero =>
      cases h
      simp only [List.modify_zero_cons, List.countP_cons]
      omega
    | succ i =>
      have := ih i h
      simp only [List.modify_succ_cons, List.countP_cons]
      omega

theorem above_lower (s : Countdown) (i : Nat) : (s.lower i).above + (s.lower i).next.length =
    s.above + s.next.length := by
  unfold lower above
  simp only [List.getElem?_modify]
  cases h : s.indeg[i]? with
  | none => rw [List.modify_eq_self (List.getElem?_eq_none_iff.mp h)]; simp
  | some x =>
    have := countP_modify (p := fun x ↦ decide (0 < x)) (f := (· - 1)) s.indeg i x h
    by_cases hx : x = 1
    · subst hx
      simp at this ⊢
      omega
    · have hne : x - 1 ≠ 0 := by omega
      simp [hne] at this ⊢
      split at this <;> split at this <;> omega

theorem above_round (edges : List (List Nat)) (s : Countdown) (batch : List Nat) :
    (s.round edges batch).above + (s.round edges batch).next.length = s.above := by
  have hlower : ∀ (is : List Nat) (s : Countdown),
      (is.foldl lower s).above + (is.foldl lower s).next.length = s.above + s.next.length := by
    intro is
    induction is with
    | nil => exact fun _ ↦ rfl
    | cons i is ih => exact fun s ↦ (ih _).trans (above_lower s i)
  have hvisit : ∀ (is : List Nat) (s : Countdown),
      (is.foldl (visit edges) s).above + (is.foldl (visit edges) s).next.length = s.above + s.next.length := by
    intro is
    induction is with
    | nil => exact fun _ ↦ rfl
    | cons i is ih => exact fun s ↦ (ih _).trans (hlower _ _)
  exact hvisit batch _

/-- One batch after the other, each of the images that the batch before let come to zero. -/
def run (edges : List (List Nat)) (s : Countdown) (current : List Nat) : List (List Nat) × Countdown :=
  if _h : current = [] then ([], s)
  else
    let s' := s.round edges current
    let (batches, last) := run edges s' (s'.next.mergeSort (· ≤ ·))
    (current :: batches, last)
termination_by s.above + current.length
decreasing_by
  have := s.above_round edges current
  have := List.length_pos_iff.mpr _h
  rw [List.length_mergeSort]
  omega

end Countdown

/-- All images in batches. What imports itself, even through others, cannot be built. -/
def batches : Except OrderError (List (List Nat)) :=
  let zeros := (List.range g.names.length).filter fun i ↦ g.counters.indeg.getD i 0 = 0
  let (batches, last) := Countdown.run g.counters.edges { indeg := g.counters.indeg } zeros
  if last.visited = g.names.length then .ok batches
  else
    let left := (List.range g.names.length).filter fun i ↦ 0 < last.indeg.getD i 0
    .error (.cycle ((left.map g.nameOf).mergeSort fun a b ↦ decide (a ≤ b)))

/-- An image with those that it imports, directly or not, in the order in which they are met; the fuel bounds how
deep imports go. -/
def visit : Nat → List Nat → Nat → List Nat
  | 0, seen, _ => seen
  | fuel + 1, seen, i => if seen.contains i then seen else (g.importsOf i).foldl (visit fuel) (seen ++ [i])

def closure (i : Nat) : List Nat := g.visit (g.names.length + 1) [] i

end ImportGraph

end CilSsa.Pipeline

