import CilSsa.Codec.MessagePack
import CilSsa.Digest.Sha256
import CilSsa.Files.Store
import CilSsa.Text.Utf8

namespace CilSsa.Pipeline

open CilSsa.Codec CilSsa.Digest CilSsa.Files CilSsa.Number CilSsa.Text

/-- The bytes that a key digests: each image with its length in front, the selector, and whether code is optimised. -/
def keyInput (images : List Bytes) (selector : String) (optimize : Bool) : Bytes :=
  images.flatMap (fun data ↦ littleEndian 8 data.length ++ data) ++ utf8Bytes selector ++ [if optimize then 1 else 0]

def cacheKey (images : List Bytes) (selector : String) (optimize : Bool) : Bytes :=
  sha256 (keyInput images selector optimize)

structure CacheEntry where
  selector : String
  function : String
  code : String
deriving DecidableEq

/-- The number of the layout of entries; entries of others are not used. -/
def cacheSchema : Nat := 1

namespace CacheEntry

def keys : List String := ["Schema", "Selector", "Function", "IR"]

def encode (e : CacheEntry) (schema : Nat) : Bytes :=
  let entry (key s : String) := MessagePack.encodeText key ++ MessagePack.encodeText s
  MessagePack.recordHead 4 ++ MessagePack.encodeText "Schema" ++ MessagePack.head 0xCD 2 schema ++
    entry "Selector" e.selector ++ entry "Function" e.function ++ entry "IR" e.code

def decode? (bs : Bytes) : Option (Nat × CacheEntry) := do
  let r := MessagePack.reading
  let set (e : Nat × CacheEntry) (key : String) (d : Data) : Option (Nat × CacheEntry) := match key with
    | "Schema" => return (((← r.int d) % 65536).toNat, e.2)
    | "Selector" => return (e.1, { e.2 with selector := ← r.text d })
    | "Function" => return (e.1, { e.2 with function := ← r.text d })
    | "IR" => return (e.1, { e.2 with code := ← r.text d })
    | _ => return e
  r.record (0, ⟨"", "", ""⟩) keys set (0, ⟨"", "", ""⟩) (← MessagePack.decode? bs)

end CacheEntry

structure DiskCache where
  dir : String

namespace DiskCache

variable (c : DiskCache)

def entryDir : String := join c.dir "ir"

def pathFor (key : Bytes) : String := join c.entryDir (hexOfBytes key ++ ".mp")

def get? (files : FileStore) (key : Bytes) : Option CacheEntry :=
  match (files.content? (c.pathFor key)).bind CacheEntry.decode? with
  | some (schema, e) => if schema = cacheSchema then some e else none
  | none => none

def put (files : FileStore) (key : Bytes) (e : CacheEntry) : Except FileError FileStore := do
  (← files.makeDirs c.entryDir).write (c.pathFor key) (e.encode cacheSchema)

def clear (files : FileStore) : FileStore := files.removeAll c.entryDir

def openIn (files : FileStore) (dir : String) : Except FileError (DiskCache × FileStore) := do
  return (⟨dir⟩, ← files.makeDirs dir)

end DiskCache

end CilSsa.Pipeline
