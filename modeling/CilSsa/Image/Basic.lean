import CilSsa.Text.Hex

namespace CilSsa.Image

structure FieldDecl where
  name : String := ""
  type : String := ""
  isStatic : Bool := false
deriving DecidableEq

structure MethodDecl where
  name : String := ""
  isStatic : Bool := false
  isCtor : Bool := false
  returns : String := ""
  params : List String := []
  maxStack : Int := 0
  locals : List String := []
  source : String := ""
  hex : String := ""
deriving DecidableEq

structure TypeDecl where
  space : String := ""
  name : String := ""
  kind : String := ""
  arity : Int := 0
  fields : List FieldDecl := []
  methods : List MethodDecl := []
deriving DecidableEq

def TypeDecl.fullName (t : TypeDecl) : String := if t.space = "" then t.name else t.space ++ "." ++ t.name

def MethodDecl.hasBody (m : MethodDecl) : Bool := m.source != "" || m.hex != ""

def defaultMaxStack : Int := 8

end CilSsa.Image

namespace CilSsa

/-- An image. The list of types may be absent, which is written differently from an empty one. -/
structure Image where
  name : String := ""
  imports : List String := []
  types : Option (List Image.TypeDecl) := none
deriving DecidableEq

def Image.typeList (i : Image) : List Image.TypeDecl := i.types.getD []

end CilSsa
