import CilSsa.Codec.Yaml.Token

namespace CilSsa.Codec.Yaml

/-- Nodes. A scalar has the tag that it is given, if any. A reference holds the node that it stands for,
unless it is a part of that node. -/
inductive Node
  | scalar (tag : Option String) (quoted : Bool) (text : String)
  | list (items : List Node)
  | record (entries : List (Node × Node))
  | alias (name : String) (target : Option Node)

instance : Inhabited Node := ⟨.scalar none false ""⟩

def Node.empty : Node := .scalar none false ""

/-- What is left to parse, the anchors so far with the nodes of those that are complete, and what the
handles of tags mean. -/
structure ParseState where
  tokens : List Token
  anchors : Array (String × Option Node) := #[]
  handles : List (String × String) := []

abbrev Parse := StateT ParseState Option

def peekToken : Parse Token := do
  let s ← get
  if (s.tokens.take 3).contains .broken then failure
  return s.tokens.head?.getD .streamEnd

def nextToken : Parse Unit := modify fun s ↦ { s with tokens := s.tokens.tail }

def standardUri : String := "tag:yaml.org,2002:"

def shortTag (tag : String) : String :=
  if standardUri.toList.isPrefixOf tag.toList then "!!" ++ String.ofList (tag.toList.drop standardUri.length) else tag

def resolveTag (handle suffix : String) : Parse (Option String) := do
  let full ← if handle = "" then pure suffix
    else match (← get).handles.lookup handle with
      | some uri => pure (uri ++ suffix)
      | none => failure
  return if full = "!" then none else some (shortTag full)

structure Properties where
  anchor : Option String := none
  tagged : Bool := false
  tag : Option String := none

def properties : Parse Properties := do
  let readTag : Parse (Bool × Option String) := do
    match ← peekToken with
    | .tag h s => nextToken; return (true, ← resolveTag h s)
    | _ => return (false, none)
  match ← peekToken with
  | .anchor a =>
    nextToken
    let (tagged, tag) ← readTag
    return ⟨some a, tagged, tag⟩
  | .tag .. =>
    let (tagged, tag) ← readTag
    match ← peekToken with
    | .anchor a => nextToken; return ⟨some a, tagged, tag⟩
    | _ => return ⟨none, tagged, tag⟩
  | _ => return {}

/-- Parses a node that an anchor may stand for; inside of it the anchor is known, but not its node. -/
def anchored (name : Option String) (body : Parse Node) : Parse Node := do
  match name with
  | none => body
  | some a =>
    let slot := (← get).anchors.size
    modify fun s ↦ { s with anchors := s.anchors.push (a, none) }
    let n ← body
    modify fun s ↦ { s with anchors := s.anchors.setIfInBounds slot (a, some n) }
    return n

def referTo (name : String) : Parse Node := do
  match (← get).anchors.toList.reverse.lookup name with
  | some target => return .alias name target
  | none => failure

def orEmpty (before : List Token) (node : Parse Node) : Parse Node := do
  if before.contains (← peekToken) then return .empty else node

def valueOr (before : List Token) (node : Parse Node) : Parse Node := do
  match ← peekToken with
  | .value => nextToken; orEmpty before node
  | _ => return .empty

mutual

/-- A node. Within brackets no blocks are opened; a list need not be indented below its key. -/
def node : Nat → Bool → Bool → Parse Node
  | 0, _, _ => failure
  | fuel + 1, block, listHere => do
    match ← peekToken with
    | .alias name => nextToken; referTo name
    | _ =>
      let p ← properties
      match ← peekToken, block, listHere with
      | .dash, _, true => anchored p.anchor do return .list (← itemsHere fuel)
      | .scalar quoted text, _, _ => nextToken; anchored p.anchor do return .scalar p.tag quoted text
      | .listOpen, _, _ => nextToken; anchored p.anchor do return .list (← flowItems fuel true)
      | .recordOpen, _, _ => nextToken; anchored p.anchor do return .record (← flowEntries fuel true)
      | .blockList, true, _ => nextToken; anchored p.anchor do return .list (← blockItems fuel)
      | .blockRecord, true, _ => nextToken; anchored p.anchor do return .record (← blockEntries fuel)
      | _, _, _ =>
        if p.anchor.isNone && !p.tagged then failure
        anchored p.anchor do return .scalar p.tag false ""

def blockItems : Nat → Parse (List Node)
  | 0 => failure
  | fuel + 1 => do
    match ← peekToken with
    | .dash =>
      nextToken
      let n ← orEmpty [.dash, .blockEnd] (node fuel true false)
      return n :: (← blockItems fuel)
    | .blockEnd => nextToken; return []
    | _ => failure

def itemsHere : Nat → Parse (List Node)
  | 0 => failure
  | fuel + 1 => do
    match ← peekToken with
    | .dash =>
      nextToken
      let n ← orEmpty [.dash, .key, .value, .blockEnd] (node fuel true false)
      return n :: (← itemsHere fuel)
    | _ => return []

def blockEntries : Nat → Parse (List (Node × Node))
  | 0 => failure
  | fuel + 1 => do
    match ← peekToken with
    | .key =>
      nextToken
      let k ← orEmpty [.key, .value, .blockEnd] (node fuel true true)
      let v ← valueOr [.key, .value, .blockEnd] (node fuel true true)
      return (k, v) :: (← blockEntries fuel)
    | .blockEnd => nextToken; return []
    | _ => failure

/-- The items of a list in brackets. An entry among them is a record of its own; if it has no key, the
token in place of the key is passed over. -/
def flowItems : Nat → Bool → Parse (List Node)
  | 0, _ => failure
  | fuel + 1, first => do
    match ← peekToken, first with
    | .listClose, _ => nextToken; return []
    | .comma, false => nextToken
    | _, true => pure ()
    | _, false => failure
    match ← peekToken with
    | .listClose => nextToken; return []
    | .key =>
      nextToken
      let k ← if [.value, .comma, .listClose].contains (← peekToken) then
        do nextToken; pure .empty else node fuel false false
      let v ← valueOr [.comma, .listClose] (node fuel false false)
      return .record [(k, v)] :: (← flowItems fuel false)
    | _ =>
      let n ← node fuel false false
      return n :: (← flowItems fuel false)

def flowEntries : Nat → Bool → Parse (List (Node × Node))
  | 0, _ => failure
  | fuel + 1, first => do
    match ← peekToken, first with
    | .recordClose, _ => nextToken; return []
    | .comma, false => nextToken
    | _, true => pure ()
    | _, false => failure
    match ← peekToken with
    | .recordClose => nextToken; return []
    | .key =>
      nextToken
      let k ← orEmpty [.value, .comma, .recordClose] (node fuel false false)
      let v ← valueOr [.comma, .recordClose] (node fuel false false)
      return (k, v) :: (← flowEntries fuel false)
    | _ =>
      let k ← node fuel false false
      let _ ← peekToken
      return (k, .empty) :: (← flowEntries fuel false)

end

def knownVersion : Nat × Nat := (1, 1)

/-- The directives in front of a document: at most one version, and each handle once. -/
def directives : Nat → Bool → Parse Unit
  | 0, _ => failure
  | fuel + 1, versioned => do
    match ← peekToken with
    | .version major minor =>
      if versioned || (major, minor) ≠ knownVersion then failure
      nextToken
      directives fuel true
    | .handle h uri =>
      if ((← get).handles.lookup h).isSome then failure
      modify fun s ↦ { s with handles := (h, uri) :: s.handles }
      nextToken
      directives fuel versioned
    | _ => modify fun s ↦ { s with handles := s.handles ++ [("!", "!"), ("!!", standardUri)] }

def document : Parse Node := do
  let fuel := 4 * (← get).tokens.length + 8
  let explicit ← match ← peekToken with
    | .streamEnd => failure
    | .version .. | .handle .. | .documentStart => pure true
    | _ => pure false
  directives fuel false
  let root ← if explicit then do
      if (← peekToken) ≠ .documentStart then failure
      nextToken
      match ← peekToken with
      | .version .. | .handle .. | .documentStart | .documentEnd | .streamEnd => pure .empty
      | _ => node fuel true false
    else node fuel true false
  let _ ← peekToken
  return root

def Stream.document (s : Stream) : Option Node := Yaml.document.run' { tokens := s.tokens }

end CilSsa.Codec.Yaml

