import CilSsa.Codec.Data
import CilSsa.Codec.Yaml.Node
import CilSsa.Codec.Yaml.Scalar

namespace CilSsa.Codec.Yaml

open CilSsa.Codec CilSsa.Number

structure Load where
  total : Nat := 0
  referred : Nat := 0

/-- Whether a document consists of references to too large a part: of up to 400000 nodes at most 99 in a
hundred may be read through references, from 4000000 on at most 10, and in between a share that falls evenly. -/
def Load.excessive (l : Load) : Bool :=
  let low := 400000
  let high := 4000000
  let allowed := if l.total ≤ low then 99 * (high - low) else if high ≤ l.total then 10 * (high - low)
    else 99 * (high - low) - 89 * (l.total - low)
  100 < l.referred && 1000 < l.total && allowed * l.total < 100 * (high - low) * l.referred

abbrev Read := StateT Load Option

structure Part where
  node : Node
  referred : Bool := false

def count (referred : Bool) : Read Unit := do
  let l : Load := { total := (← get).total + 1, referred := (← get).referred + (if referred then 1 else 0) }
  set l
  if l.excessive then failure

/-- The node that a part is, or that it refers to. A reference inside of its own node leads nowhere. -/
def Part.visit (p : Part) : Read Part := do
  count p.referred
  match p.node with
  | .alias _ (some n) =>
    count true
    return ⟨n, true⟩
  | .alias _ none => failure
  | _ => return p

def Part.meaning (p : Part) : Read Meaning := do
  match (← p.visit).node with
  | .scalar tag quoted s => scalarMeaning? tag quoted s
  | _ => failure

def Part.text? (p : Part) : Read (Option String) := do
  match (← p.visit).node with
  | .scalar tag quoted s => match ← scalarMeaning? tag quoted s with
    | .null => return none
    | .text t => return some t
    | _ => return some s
  | _ => failure

def lenientBool? (s : String) : Option Bool :=
  if ["y", "Y", "yes", "on"].contains s then some true
  else if ["n", "N", "no", "off"].contains s then some false
  else none

/-- A double without its fraction. Those above two to the 63 are refused; that one, and what is too far
below zero, becomes the least integer. -/
def intOfDouble? (bits : UInt64) : Option Int :=
  match compareDouble bits 0x43E0000000000000 with
  | none | some .gt => none
  | _ => some (intOfWord (doubleToSigned bits))

def Node.isNothing : Node → Bool
  | .scalar tag quoted s => match scalarMeaning? tag quoted s with
    | some .null => true
    | _ => false
  | .alias _ (some (.scalar tag quoted s)) => match scalarMeaning? tag quoted s with
    | some .null => true
    | _ => false
  | _ => false

def Node.isMerge : Node → Bool
  | .scalar tag quoted s => s == mergeKey && match tag with
    | none => !quoted
    | some t => t == "!!merge"
  | _ => false

/-- What two keys of a record must not share: the kind of node, and its text or name. -/
def Node.signature : Node → Nat × String
  | .scalar _ _ s => (0, s)
  | .list _ => (1, "")
  | .record _ => (2, "")
  | .alias name _ => (3, name)

def allDistinct (keys : List (Nat × String)) : Bool := keys.eraseDups.length == keys.length

structure Layer where
  entries : List (Node × Node)
  referred : Bool

mutual

/-- The records that a record takes entries from by its merge key, those of the first one first. -/
def mergedLayers (referred : Bool) : List (Node × Node) → Option (List Layer)
  | [] => some []
  | (k, v) :: rest => if k.isMerge then sourceLayers referred v else mergedLayers referred rest

def sourceLayers (referred : Bool) : Node → Option (List Layer)
  | .list items => itemLayers referred items
  | .record es => (mergedLayers referred es).map (⟨es, referred⟩ :: ·)
  | .alias _ (some (.record es)) => (mergedLayers true es).map (⟨es, true⟩ :: ·)
  | _ => none

def itemLayers (referred : Bool) : List Node → Option (List Layer)
  | [] => some []
  | .record es :: rest => do
    let first ← mergedLayers referred es
    return ⟨es, referred⟩ :: first ++ (← itemLayers referred rest)
  | .alias _ (some (.record es)) :: rest => do
    let first ← mergedLayers true es
    return ⟨es, true⟩ :: first ++ (← itemLayers referred rest)
  | _ :: _ => none

end

def Layer.named (l : Layer) : Read (List (String × Part)) := do
  if !allDistinct (l.entries.map fun e ↦ e.1.signature) then failure
  let own := l.entries.filter fun e ↦ !e.1.isMerge
  let names ← own.mapM fun e ↦ Part.text? ⟨e.1, l.referred⟩
  return (names.zip own).filterMap fun (name, e) ↦ name.map (·, ⟨e.2, l.referred⟩)

def addMissing (es more : List (String × Part)) : List (String × Part) :=
  more.foldl (fun es e ↦ if es.any (·.1 == e.1) then es else es ++ [e]) es

def Layer.fields (l : Layer) (keys : List String) : Read (List (String × Part)) := do
  let own ← l.named
  let names := own.map (·.1)
  if names.eraseDups.length ≠ names.length then failure
  let more ← mergedLayers l.referred l.entries
  let es ← more.foldlM (fun es layer ↦ do
    count layer.referred
    return addMissing es (← layer.named)) own
  if es.all fun e ↦ keys.contains e.1 then return es else failure

def reading : Reading Read Part where
  text p := do return (← p.text?).getD ""
  int p := do
    match ← p.meaning with
    | .null => return 0
    | .int n => if wrapInt n = n then return n else failure
    | .float x => intOfDouble? x
    | _ => failure
  bool p := do
    match ← p.meaning with
    | .null => return false
    | .bool b => return b
    | .text s => lenientBool? s
    | _ => failure
  list p := do
    let p ← p.visit
    match p.node with
    | .list items =>
      let parts := items.map (Part.mk · p.referred)
      let _ ← (parts.filter (·.node.isNothing)).mapM Part.visit
      return some (parts.filter (!·.node.isNothing))
    | .scalar tag quoted s => match ← scalarMeaning? tag quoted s with
      | .null => return none
      | _ => failure
    | _ => failure
  fields keys p := do
    let p ← p.visit
    match p.node with
    | .record es => return some (← Layer.fields ⟨es, p.referred⟩ keys)
    | .scalar tag quoted s => match ← scalarMeaning? tag quoted s with
      | .null => return none
      | _ => failure
    | _ => failure

end CilSsa.Codec.Yaml
