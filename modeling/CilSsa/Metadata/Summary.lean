import CilSsa.Codec.Data
import CilSsa.Metadata.Universe

namespace CilSsa.Metadata

open CilSsa.Codec CilSsa.Text

def Ty.summary (t : Ty) : Data :=
  if t = .missing then .null
  else .record
    [("name", .text t.text), ("full", .text t.fullName), ("kind", .text t.kind.text),
     ("prim", .text ((t.prim?.map Prim.text).getD "<none>")), ("token", .text t.token.text),
     ("open", .bool t.isOpen), ("generic", .bool t.isGeneric), ("byref", .bool t.isByRef),
     ("pointer", .bool t.isPointer), ("void", .bool t.isVoid), ("unsigned", .bool t.isUnsigned),
     ("integer", .bool t.isInteger), ("float", .bool t.isFloat), ("ptrlike", .bool t.isPointerLike),
     ("scope", (t.scope.map fun m ↦ Data.text m.name).getD .null)]

def Field.summary (f : Field) : Data :=
  .record [("field", .text f.text), ("type", .text f.type.text), ("static", .bool f.isStatic),
    ("token", .text f.token.text)]

def Body.summary (b : Body) : Data :=
  .record [("maxstack", .int b.maxStack), ("locals", .list (b.locals.map fun t ↦ .text t.text)),
    ("hex", .text (hexOfBytes b.code))]

def Method.summary (m : Method) : Data :=
  .record [("method", .text m.text), ("returns", .text m.returnType.text), ("static", .bool m.isStatic),
    ("ctor", .bool m.isCtor), ("instance", .bool m.isInstance), ("conversion", .bool m.isConversion),
    ("token", .text m.token.text), ("param_names", .list (m.params.map fun p ↦ .text p.name)),
    ("body", (m.body.map Body.summary).getD .null)]

def Universe.summary (u : Universe) (t : Ty) : Data :=
  let own := match t.summary with
    | .record es => es
    | _ => []
  .record (own ++ [("fields", .list ((u.fields t).map Field.summary)),
    ("methods", .list ((u.methods t).map Method.summary)),
    ("instance_fields", .list ((u.instanceFields t).map fun f ↦ .text f.name))])

end CilSsa.Metadata

