import CilSsa.Number.Word
import CilSsa.Text.Hex

namespace CilSsa.Machine

open CilSsa.Number CilSsa.Text

/-- Why a region reserves nothing: there is no room, or the end would lie before the start. -/
inductive ReserveError
  | exhausted
  | wrapped
deriving DecidableEq

def zeros (n : Nat) : ByteArray :=
  if n = 0 then .empty
  else
    let half := zeros (n / 2)
    let whole := half ++ half
    if n % 2 = 0 then whole else whole.push 0
termination_by n
decreasing_by omega

theorem size_zeros (n : Nat) : (zeros n).size = n := by
  fun_induction zeros n with
  | case1 => rfl
  | case2 n h half whole he ih =>
    rw [ByteArray.size_append, ih]
    omega
  | case3 n h half whole he ih =>
    rw [ByteArray.size_push, ByteArray.size_append, ih]
    omega

def clear (data : ByteArray) (offset : Nat) : Nat → ByteArray
  | 0 => data
  | n + 1 => clear (data.set! offset 0) (offset + 1) n

theorem size_clear (data : ByteArray) (offset n : Nat) : (clear data offset n).size = data.size := by
  induction n generalizing data offset with
  | zero => rfl
  | succ n ih => rw [clear, ih, ByteArray.size_set!]

theorem fits_empty : 0 ≤ ByteArray.empty.size := Nat.zero_le _

/-- Bytes from an address on. Those below `top` are in use; what was in use before may lie behind it. -/
structure Region where
  base : UInt64
  data : ByteArray := .empty
  top : Nat := 0
  fits : top ≤ data.size := by exact fits_empty

namespace Region

def place? (r : Region) (address : UInt64) (n : Int) : Option Nat :=
  if address < r.base ∨ n < 0 then none
  else
    let offset := (address - r.base).toNat
    if r.top < offset ∨ (r.top - offset : Int) < n then none else some offset

def alignUp (n align : Nat) : Nat := if align ≤ 1 then n else (n + align - 1) / align * align

/-- The address of `size` more bytes at a multiple of `align`, and the top of the region with them, which is at most
`limit`. -/
def room (r : Region) (size : Int) (align : Nat) (limit : Int) : Except ReserveError (UInt64 × Nat) :=
  let start := alignUp r.top align
  let stop := wrapInt (start + size)
  if limit < stop then .error .exhausted
  else if stop < r.top then .error .wrapped
  else .ok (r.base + start.toUInt64, stop.toNat)

/-- The bytes of a region where there is room for those up to `stop`: new ones, twice as many at least, if there was
none. -/
def backing (r : Region) (stop : Nat) : ByteArray :=
  if r.data.size < stop then r.data.extract 0 r.top ++ zeros (max stop (max (2 * r.data.size) 256) - r.top) else r.data

theorem le_size_backing (r : Region) (stop : Nat) : stop ≤ (r.backing stop).size := by
  have h := r.fits
  unfold backing
  split
  · rw [ByteArray.size_append, ByteArray.size_extract, size_zeros]
    omega
  · omega

def grow (r : Region) (stop : Nat) : Region where
  base := r.base
  data := clear (r.backing stop) r.top (stop - r.top)
  top := stop
  fits := by
    rw [size_clear]
    exact r.le_size_backing stop

def release (r : Region) (mark : Nat) : Region :=
  { r with top := min mark r.top, fits := Nat.le_trans (Nat.min_le_right _ _) r.fits }

def read (r : Region) (offset n : Nat) : Bytes := (r.data.extract offset (offset + n)).toList

def set (r : Region) (offset : Nat) (b : UInt8) : Region :=
  { r with data := r.data.set! offset b, fits := by simpa using r.fits }

def write (r : Region) (offset : Nat) : Bytes → Region
  | [] => r
  | b :: bs => write (r.set offset b) (offset + 1) bs

end Region

def heapBase : UInt64 := 0x10000
def stackBase : UInt64 := 0x10000000000

def functionBase : UInt64 := 0x7F0000000000
def functionStep : UInt64 := 16

structure Memory where
  heap : Region := { base := heapBase }
  stack : Region := { base := stackBase }

namespace Memory

def read? (mem : Memory) (address : UInt64) (n : Int) : Option Bytes :=
  match mem.stack.place? address n with
  | some o => some (mem.stack.read o n.toNat)
  | none => (mem.heap.place? address n).map fun o ↦ mem.heap.read o n.toNat

def maps (mem : Memory) (address : UInt64) (n : Int) : Bool :=
  (mem.stack.place? address n).isSome || (mem.heap.place? address n).isSome

/-- Writes bytes at an address; changes nothing if some of them are not in use. -/
def write (mem : Memory) (address : UInt64) (bs : Bytes) : Memory :=
  match mem.stack.place? address bs.length with
  | some o => { mem with stack := mem.stack.write o bs }
  | none => match mem.heap.place? address bs.length with
    | some o => { mem with heap := mem.heap.write o bs }
    | none => mem

def clearStack (mem : Memory) : Memory := { mem with stack := mem.stack.release 0 }

end Memory

def byteWidth (bits : Nat) : Nat := (bits + 7) / 8

/-- The pattern in some bytes. Widths other than 1, 2 and 4 need eight bytes and read the first eight. -/
def readWord? (bs : Bytes) : Option UInt64 :=
  match bs.length with
  | 1 | 2 | 4 => some (ofLittleEndian bs).toUInt64
  | n => if n < 8 then none else some (ofLittleEndian (bs.take 8)).toUInt64

def wordBytes? (n : Nat) (v : UInt64) : Option Bytes :=
  match n with
  | 1 | 2 | 4 => some (littleEndian n v.toNat)
  | n => if n < 8 then none else some (littleEndian 8 v.toNat)

end CilSsa.Machine

