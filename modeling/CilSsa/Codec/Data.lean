import CilSsa.Text.Hex

namespace CilSsa.Codec

open CilSsa.Text

/-- Data. `other` is what no reader here has a use for: fractions, times, and records whose keys are no
texts. -/
inductive Data
  | null
  | bool (b : Bool)
  | int (n : Int)
  | text (s : String)
  | bytes (bs : Bytes)
  | list (items : List Data)
  | record (entries : List (String × Data))
  | other

instance : Inhabited Data := ⟨.null⟩

/-- How the items `ν` of a format are read as values of known types. A list may be absent, which
is not the same as empty. A record gives the items for those of the named fields that it mentions, in order of
appearance, or takes back all that was said before. -/
structure Reading (m : Type → Type) (ν : Type) where
  text : ν → m String
  int : ν → m Int
  bool : ν → m Bool
  list : ν → m (Option (List ν))
  fields : List String → ν → m (Option (List (String × ν)))

structure Library where
  Item : Type
  encode : Data → Bytes
  decode? : Bytes → Option Item
  reading : Reading Option Item

def take? (n : Nat) (bs : Bytes) : Option (Bytes × Bytes) :=
  let front := bs.take n
  if front.length = n then some (front, bs.drop n) else none

/-- A list that may be said more than once: a later list goes over the items of an earlier one, and those
behind its end are out of sight, but not forgotten. -/
structure Slots (α : Type) where
  items : List α := []
  visible : Option Nat := none

def Slots.toList? {α : Type} (s : Slots α) : Option (List α) := s.visible.map s.items.take

def Slots.toList {α : Type} (s : Slots α) : List α := s.toList?.getD []

namespace Reading

variable {m : Type → Type} [Monad m] {ν α : Type} (r : Reading m ν)

def record (empty : α) (keys : List String) (set : α → String → ν → m α) (old : α) (d : ν) : m α := do
  match ← r.fields keys d with
  | none => return empty
  | some es => es.foldlM (fun x e ↦ set x e.1 e.2) old

def texts (old : List String) (d : ν) : m (List String) := do
  match ← r.list d with
  | none => return old
  | some ds => ds.mapM r.text

def reread (empty : α) (read : α → ν → m α) : List α → List ν → m (List α)
  | old, [] => return old
  | old, d :: ds => do
    let x ← read (old.head?.getD empty) d
    return x :: (← reread empty read old.tail ds)

def slots (empty : α) (read : α → ν → m α) (old : Slots α) (d : ν) : m (Slots α) := do
  match ← r.list d with
  | none => return {}
  | some ds => return ⟨← reread empty read old.items ds, some ds.length⟩

end Reading

end CilSsa.Codec
