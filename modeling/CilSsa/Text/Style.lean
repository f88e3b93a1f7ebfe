namespace CilSsa.Text

inductive Attribute
  | bold | red | green | yellow | blue | cyan
deriving DecidableEq

def Attribute.code : Attribute → String
  | .bold => "1"
  | .red => "31"
  | .green => "32"
  | .yellow => "33"
  | .blue => "34"
  | .cyan => "36"

def Attribute.resetCode : Attribute → String
  | .bold => "22"
  | _ => "0"

def paint (colored : Bool) (attributes : List Attribute) (s : String) : String :=
  let sequence (codes : List String) := "\x1b[" ++ ";".intercalate codes ++ "m"
  if colored then sequence (attributes.map (·.code)) ++ s ++ sequence (attributes.map (·.resetCode)) else s

end CilSsa.Text
