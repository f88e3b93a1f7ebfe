import CilSsa.Text.Hex

namespace CilSsa.Metadata

structure Token where
  raw : UInt32
deriving DecidableEq, Hashable

inductive Table
  | typeDef | field | method | memberRef | typeSpec
deriving DecidableEq

def Table.number : Table → Nat
  | .typeDef => 0x02
  | .field => 0x04
  | .method => 0x06
  | .memberRef => 0x0A
  | .typeSpec => 0x1B

namespace Token

/-- The token of a table number and a row; a row keeps its low 24 bits. -/
def ofParts (table row : Nat) : Token :=
  ⟨UInt32.ofNat (table % 256 * 0x1000000 + row % 0x1000000)⟩

def make (table : Table) (row : Nat) : Token := ofParts table.number row

def tableNumber (t : Token) : Nat := t.raw.toNat / 0x1000000

def row (t : Token) : Nat := t.raw.toNat % 0x1000000

def table? (t : Token) : Option Table :=
  [Table.typeDef, .field, .method, .memberRef, .typeSpec].find? fun k ↦ k.number = t.tableNumber

def text (t : Token) : String := "0x" ++ Text.hexPaddedUpper 8 t.raw.toNat

end Token

end CilSsa.Metadata
