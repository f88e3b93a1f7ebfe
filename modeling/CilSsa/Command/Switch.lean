import CilSsa.Text.Blank
import CilSsa.Text.Cases
import CilSsa.Text.Quoted

namespace CilSsa.Command

open CilSsa.Text

inductive Switch
  | auto | on | off
deriving DecidableEq

/-- A value that is none of the three, of the flag that it was given to. -/
structure SwitchError where
  flag : String
  value : String
deriving DecidableEq

def SwitchError.message (e : SwitchError) : String :=
  "invalid --" ++ e.flag ++ " value " ++ quote e.value ++ " (expected auto|on|off)"

def Switch.parse (flag value : String) : Except SwitchError Switch :=
  match trim (toLower value) with
  | "" | "auto" => .ok .auto
  | "on" => .ok .on
  | "off" => .ok .off
  | _ => .error ⟨flag, value⟩

def Switch.isOn (s : Switch) (auto : Bool) : Bool :=
  match s with
  | .auto => auto
  | .on => true
  | .off => false

end CilSsa.Command
