import CilSsa.Codec.Data
import CilSsa.Image.Basic

namespace CilSsa.Codec

open CilSsa.Image

def imageKeys : List String := ["name", "imports", "types"]
def typeKeys : List String := ["namespace", "name", "kind", "arity", "fields", "methods"]
def fieldKeys : List String := ["name", "type", "static"]
def methodKeys : List String := ["name", "static", "ctor", "returns", "params", "maxstack", "locals", "il", "hex"]

def optional (key : String) (empty : Bool) (d : Data) : List (String × Data) := if empty then [] else [(key, d)]

def textEntry (key s : String) : List (String × Data) := optional key (s == "") (.text s)
def intEntry (key : String) (n : Int) : List (String × Data) := optional key (n == 0) (.int n)
def boolEntry (key : String) (b : Bool) : List (String × Data) := optional key (!b) (.bool b)
def listEntry {α : Type} (key : String) (f : α → Data) (xs : List α) : List (String × Data) :=
  optional key xs.isEmpty (.list (xs.map f))

def fieldData (f : FieldDecl) : Data :=
  .record ([("name", .text f.name), ("type", .text f.type)] ++ boolEntry "static" f.isStatic)

def methodData (m : MethodDecl) : Data :=
  .record ([("name", .text m.name)] ++ boolEntry "static" m.isStatic ++ boolEntry "ctor" m.isCtor ++
    textEntry "returns" m.returns ++ listEntry "params" .text m.params ++ intEntry "maxstack" m.maxStack ++
    listEntry "locals" .text m.locals ++ textEntry "il" m.source ++ textEntry "hex" m.hex)

def typeData (t : TypeDecl) : Data :=
  .record (textEntry "namespace" t.space ++ [("name", .text t.name), ("kind", .text t.kind)] ++
    intEntry "arity" t.arity ++ listEntry "fields" fieldData t.fields ++ listEntry "methods" methodData t.methods)

def imageData (i : Image) : Data :=
  .record ([("name", .text i.name)] ++ listEntry "imports" .text i.imports ++
    [("types", match i.types with
      | some ts => .list (ts.map typeData)
      | none => .null)])

/-- An image with everything said, also what is empty and what follows from the rest. -/
def imageSummary (i : Image) : Data :=
  let texts (xs : List String) : Data := .list (xs.map .text)
  let field (f : FieldDecl) : Data :=
    .record [("name", .text f.name), ("type", .text f.type), ("static", .bool f.isStatic)]
  let method (m : MethodDecl) : Data :=
    .record [("name", .text m.name), ("static", .bool m.isStatic), ("ctor", .bool m.isCtor),
    ("returns", .text m.returns),
      ("params", texts m.params), ("maxstack", .int m.maxStack), ("locals", texts m.locals), ("il", .text m.source),
      ("hex", .text m.hex), ("has_body", .bool m.hasBody)]
  let type (t : TypeDecl) : Data :=
    .record [("namespace", .text t.space), ("name", .text t.name), ("full", .text t.fullName), ("kind", .text t.kind),
      ("arity", .int t.arity), ("fields", .list (t.fields.map field)), ("methods", .list (t.methods.map method))]
  .record [("name", .text i.name), ("imports", texts i.imports), ("types", .list (i.typeList.map type))]

structure TypeDraft where
  head : TypeDecl := {}
  fields : Slots FieldDecl := {}
  methods : Slots MethodDecl := {}

def TypeDraft.decl (t : TypeDraft) : TypeDecl :=
  { t.head with fields := t.fields.toList, methods := t.methods.toList }

structure ImageDraft where
  name : String := ""
  imports : List String := []
  types : Slots TypeDraft := {}

def ImageDraft.image (i : ImageDraft) : Image :=
  ⟨i.name, i.imports, i.types.toList?.map fun ts ↦ ts.map TypeDraft.decl⟩

section

variable {m : Type → Type} [Monad m] {ν : Type} (r : Reading m ν)

def setField (f : FieldDecl) (key : String) (d : ν) : m FieldDecl :=
  match key with
  | "name" => return { f with name := ← r.text d }
  | "type" => return { f with type := ← r.text d }
  | "static" => return { f with isStatic := ← r.bool d }
  | _ => return f

def readField : FieldDecl → ν → m FieldDecl := r.record {} fieldKeys (setField r)

def setMethod (f : MethodDecl) (key : String) (d : ν) : m MethodDecl :=
  match key with
  | "name" => return { f with name := ← r.text d }
  | "static" => return { f with isStatic := ← r.bool d }
  | "ctor" => return { f with isCtor := ← r.bool d }
  | "returns" => return { f with returns := ← r.text d }
  | "params" => return { f with params := ← r.texts f.params d }
  | "maxstack" => return { f with maxStack := ← r.int d }
  | "locals" => return { f with locals := ← r.texts f.locals d }
  | "il" => return { f with source := ← r.text d }
  | "hex" => return { f with hex := ← r.text d }
  | _ => return f

def readMethod : MethodDecl → ν → m MethodDecl := r.record {} methodKeys (setMethod r)

def setType (t : TypeDraft) (key : String) (d : ν) : m TypeDraft :=
  match key with
  | "namespace" => return { t with head := { t.head with space := ← r.text d } }
  | "name" => return { t with head := { t.head with name := ← r.text d } }
  | "kind" => return { t with head := { t.head with kind := ← r.text d } }
  | "arity" => return { t with head := { t.head with arity := ← r.int d } }
  | "fields" => return { t with fields := ← r.slots {} (readField r) t.fields d }
  | "methods" => return { t with methods := ← r.slots {} (readMethod r) t.methods d }
  | _ => return t

def readType : TypeDraft → ν → m TypeDraft := r.record {} typeKeys (setType r)

def setImage (i : ImageDraft) (key : String) (d : ν) : m ImageDraft :=
  match key with
  | "name" => return { i with name := ← r.text d }
  | "imports" => return { i with imports := ← r.texts i.imports d }
  | "types" => return { i with types := ← r.slots {} (readType r) i.types d }
  | _ => return i

def readDraft : ImageDraft → ν → m ImageDraft := r.record {} imageKeys (setImage r)

def readImage (d : ν) : m Image := do return (← readDraft r {} d).image

end

end CilSsa.Codec

