import CilSsa.Codec.Cbor
import CilSsa.Codec.ImageData
import CilSsa.Codec.MessagePack
import CilSsa.Codec.Yaml.Printer
import CilSsa.Codec.Yaml.Reading
import CilSsa.Text.Cases

namespace CilSsa.Codec

open CilSsa.Image CilSsa.Text

inductive Format
  | yaml | messagePack | cbor
  | other (n : Nat)
deriving DecidableEq

inductive CodecError
  | cannotEncode (f : Format)
  | cannotDecode (f : Format)
  | malformed
  | extension (path : String)
deriving DecidableEq

namespace Format

def ofNumber : Nat → Format
  | 1 => .yaml
  | 2 => .messagePack
  | 3 => .cbor
  | n => .other n

def name : Format → String
  | .yaml => "yaml"
  | .messagePack => "msgpack"
  | .cbor => "cbor"
  | .other n => "format(" ++ toString n ++ ")"

def extension (path : String) : String :=
  let tail := (path.toList.reverse.takeWhile (· ≠ '/')).takeWhile (· ≠ '.')
  if tail.length < (path.toList.reverse.takeWhile (· ≠ '/')).length then String.ofList ('.' :: tail.reverse) else ""

def ofPath (path : String) : Except CodecError Format :=
  match toLower (extension path) with
  | ".yaml" | ".yml" => .ok .yaml
  | ".mp" | ".msgpack" => .ok .messagePack
  | ".cbor" => .ok .cbor
  | _ => .error (.extension path)

end Format

def CodecError.message : CodecError → String
  | .cannotEncode f => "cannot encode " ++ f.name
  | .cannotDecode f => "cannot decode " ++ f.name
  | .malformed => "malformed document"
  | .extension p => p ++ ": unknown image extension (want .yaml, .yml, .mp or .cbor)"

structure Libraries where
  messagePack : Library
  cbor : Library

def Libraries.standard : Libraries := ⟨MessagePack.library, Cbor.library⟩

def encodeImage (libs : Libraries) (f : Format) (i : Image) : Except CodecError Bytes :=
  match f with
  | .yaml => .ok (utf8Bytes (Yaml.print (imageData { i with types := some i.typeList })))
  | .messagePack => .ok (libs.messagePack.encode (imageData i))
  | .cbor => .ok (libs.cbor.encode (imageData i))
  | .other n => .error (.cannotEncode (.other n))

def encodeFor (libs : Libraries) (path : String) (i : Image) : Except CodecError Bytes := do
  encodeImage libs (← Format.ofPath path) i

def Yaml.decode? (bs : Bytes) : Option Image := do
  let n ← (Yaml.Stream.ofBytes bs).document
  (readImage Yaml.reading { node := n }).run' {}

def Library.decodeImage? (lib : Library) (bs : Bytes) : Option Image := (lib.decode? bs).bind (readImage lib.reading)

def orMalformed (i : Option Image) : Except CodecError Image := i.elim (.error .malformed) .ok

def decodeImage (libs : Libraries) (f : Format) (bs : Bytes) : Except CodecError Image :=
  match f with
  | .yaml => orMalformed (Yaml.decode? bs)
  | .messagePack => orMalformed (libs.messagePack.decodeImage? bs)
  | .cbor => orMalformed (libs.cbor.decodeImage? bs)
  | .other n => .error (.cannotDecode (.other n))

end CilSsa.Codec
