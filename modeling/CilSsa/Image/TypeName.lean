import CilSsa.Metadata.Lookup
import CilSsa.Text.Quoted

namespace CilSsa.Image

open CilSsa.Metadata CilSsa.Text CilSsa.Number

inductive TypeNameError
  | empty
  | badParam (text : String)
  | unbalancedIn (text : String)
  | unbalancedArgs (text : String)
  | notGeneric (type : Ty)
  | argCount (type : Ty) (want got : Nat)
  | openQualifier (text : String)
  | notImported (image : String)
  | unknownIn (name image : String)
  | unknown (name : String)
  | ambiguous (name : String)

def TypeNameError.message : TypeNameError → String
  | .empty => "empty type name"
  | .badParam s => "invalid generic parameter " ++ quote s
  | .unbalancedIn s => "unbalanced type arguments in " ++ quote s
  | .unbalancedArgs s => quote s ++ ": unbalanced type arguments"
  | .notGeneric t => t.text ++ " is not a generic definition"
  | .argCount t n k => t.text ++ " takes " ++ toString n ++ " type arguments, got " ++ toString k
  | .openQualifier s => "unterminated image qualifier in " ++ quote s
  | .notImported m => "image " ++ quote m ++ " is not imported"
  | .unknownIn n m => "unknown type " ++ n ++ " in image " ++ m
  | .unknown n => "unknown type " ++ n
  | .ambiguous n => "type name " ++ n ++ " is ambiguous; qualify it with its namespace"

def TypeNameError.isUnknown : TypeNameError → Bool
  | .unknownIn .. | .unknown _ => true
  | _ => false

/-- What names can refer to: the definitions of one image and the modules that it imports. -/
structure Scope where
  home : ModuleRef
  imports : List (String × List TypeDef)
  defs : List TypeDef

def Scope.named (sc : Scope) (name : List Char) : Except TypeNameError TypeDef :=
  let s := name.takeWhile (· ≠ Char.ofNat 96)
  match s with
  | '[' :: rest => match cutChars [']'] rest with
    | none => .error (.openQualifier (String.ofList s))
    | some (m, t) =>
      let image := String.ofList m
      let type := String.ofList t
      match sc.imports.lookup image with
      | none => .error (.notImported image)
      | some defs => match defs.find? fun d ↦ d.fullName == type with
        | some d => .ok d
        | none => .error (.unknownIn type image)
  | _ =>
    let s := String.ofList s
    match sc.defs.find? fun d ↦ d.fullName == s with
    | some d => .ok d
    | none => match sc.defs.filter fun d ↦ d.name == s with
      | [] => .error (.unknown s)
      | [d] => .ok d
      | _ => .error (.ambiguous s)

/-- Splits arguments at the commas outside angle brackets; nothing if brackets do not match.
`depth` counts open brackets and `current` holds the open part, newest first. -/
def splitArgs (depth : Nat) (current : List Char) : List Char → Option (List (List Char))
  | [] => if depth = 0 then some [current.reverse] else none
  | c :: cs =>
    if c = '<' then splitArgs (depth + 1) (c :: current) cs
    else if c = '>' then
      match depth with
      | 0 => none
      | d + 1 => splitArgs d (c :: current) cs
    else if c = ',' ∧ depth = 0 then (splitArgs 0 [] cs).map (current.reverse :: ·)
    else splitArgs depth (c :: current) cs

def Scope.parseChars (sc : Scope) : Nat → List Char → Except TypeNameError Ty
  | 0, _ => .error .empty
  | fuel + 1, text => do
    let s := trimChars text
    match s.reverse with
    | [] => throw .empty
    | '&' :: rest => return .byref (← sc.parseChars fuel rest.reverse)
    | '*' :: rest => return .pointer (← sc.parseChars fuel rest.reverse)
    | last :: rest =>
      let whole := String.ofList s
      match builtin? whole, s with
      | some t, _ => return t
      | none, '!' :: digits => match parseDecimal? (String.ofList digits) with
        | some n => if n < 0 then throw (.badParam whole) else return .param n.toNat
        | none => throw (.badParam whole)
      | none, _ =>
        if last ≠ '>' then return .defined (← sc.named s)
        else match cutChars ['<'] s with
          | none => throw (.unbalancedIn whole)
          | some (name, tail) => do
            let d ← sc.named name
            if d.arity = 0 then throw (.notGeneric (.defined d))
            match splitArgs 0 [] (tail.take (rest.length - name.length - 1)) with
            | none => throw (.unbalancedArgs whole)
            | some parts => do
              let args ← parts.mapM (sc.parseChars fuel)
              if args.length ≠ d.arity then throw (.argCount (.defined d) d.arity args.length)
              return .inst (.defined d) args

def Scope.parseType (sc : Scope) (s : String) : Except TypeNameError Ty :=
  sc.parseChars (s.length + 1) s.toList

end CilSsa.Image
