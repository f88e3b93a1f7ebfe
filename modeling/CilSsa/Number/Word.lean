namespace CilSsa.Number

/-- Cuts `v` to `bits` and extends its sign; widths outside 1 to 63 keep the pattern. -/
def signExtend (v : UInt64) (bits : Nat) : UInt64 :=
  if bits = 0 ∨ 64 ≤ bits then v
  else
    let s := (64 - bits).toUInt64
    (((v <<< s).toInt64) >>> s.toInt64).toUInt64

/-- Cuts `v` to `bits` and extends with zeros; widths outside 1 to 63 keep the pattern. -/
def zeroExtend (v : UInt64) (bits : Nat) : UInt64 :=
  if bits = 0 ∨ 64 ≤ bits then v
  else v &&& (((1 : UInt64) <<< bits.toUInt64) - 1)

def wordOfInt (n : Int) : UInt64 := UInt64.ofNat (n % 18446744073709551616).toNat

def intOfWord (v : UInt64) : Int := v.toInt64.toInt

def wrapInt (n : Int) : Int := Int.bmod n 18446744073709551616

def littleEndian : Nat → Nat → List UInt8
  | 0, _ => []
  | k + 1, n => n.toUInt8 :: littleEndian k (n / 256)

def ofLittleEndian : List UInt8 → Nat
  | [] => 0
  | b :: bs => b.toNat + 256 * ofLittleEndian bs

def bigEndian (k n : Nat) : List UInt8 := (littleEndian k n).reverse

def ofBigEndian (bs : List UInt8) : Nat := ofLittleEndian bs.reverse

def signedOf (bits n : Nat) : Int :=
  if n < Nat.pow 2 (bits - 1) then n else (n : Int) - Nat.pow 2 bits

end CilSsa.Number
