import CilSsa.Text.Hex

namespace CilSsa.Text

def base36 (cs : List Char) : Nat :=
  cs.foldl (fun n c ↦ n * 36 +
    (if '0' ≤ c ∧ c ≤ '9' then c.toNat - '0'.toNat else c.toNat - 'a'.toNat + 10)) 0

def words (s : String) : List (List Char) :=
  (s.toList.splitOn ' ').filter (· ≠ [])

abbrev Ranges := Array (Nat × Nat)

def Ranges.ofGaps (s : String) : Ranges :=
  let rec go (pos : Nat) (acc : Ranges) : List Nat → Ranges
    | gap :: len :: rest => go (pos + gap + len + 1) (acc.push (pos + gap, pos + gap + len)) rest
    | _ => acc
  go 0 #[] ((words s).map base36)

/-- Bisection for the interval that holds `c`, among the entries from `lo` up to `hi`. -/
def Ranges.search (r : Ranges) (c : Nat) (lo hi : Nat) : Bool :=
  if _h : lo < hi then
    let mid := (lo + hi) / 2
    match r[mid]? with
    | none => false
    | some (a, b) =>
      if c < a then r.search c lo mid
      else if b < c then r.search c (mid + 1) hi
      else true
  else false
termination_by hi - lo

def Ranges.contains (r : Ranges) (c : Char) : Bool := r.search c.toNat 0 r.size

end CilSsa.Text
