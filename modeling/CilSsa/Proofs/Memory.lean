import Mathlib.Algebra.Order.Ring.Int
import CilSsa.Machine.Memory
import CilSsa.Ssa.Layout

namespace CilSsa.Ssa

def scalarLayout? : Ty → Option Layout
  | .int n => some (.scalar ((n + 7) / 8))
  | .pointer _ => some { size := 8, align := 8 }
  | _ => none

namespace Layouts

/-- What is remembered of integers and pointers is right. -/
structure Plain (s : Layouts) : Prop where
  size : s.target.pointerSize = 8
  align : s.target.pointerAlign = 8
  memo : ∀ t a l, s.memo.lookup t = some a → scalarLayout? t = some l → a = .ok l

theorem Plain.empty : Plain {} := ⟨rfl, rfl, nofun⟩

theorem Plain.of {s : Layouts} (h : s.Plain) (m : Module) {t : Ty} {l : Layout} (ht : scalarLayout? t = some l) :
    (s.of m t).1 = .ok l ∧ (s.of m t).2.Plain := by
  unfold Layouts.of compute
  cases hm : s.memo.lookup t with
  | some a => exact ⟨h.memo t a l hm ht, h⟩
  | none =>
    have hremember : (s.remember t (.ok l)).Plain := by
      refine ⟨h.size, h.align, fun t' a l' ha hl ↦ ?_⟩
      simp only [remember, List.lookup_cons] at ha
      split at ha
      · rename_i heq
        rw [eq_of_beq heq, ht] at hl
        rw [← Option.some.inj ha, Option.some.inj hl]
      · exact h.memo t' a l' ha hl
    cases t with
    | int n =>
      cases ht
      exact ⟨rfl, hremember⟩
    | pointer e =>
      cases ht
      simp only [h.size, h.align]
      exact ⟨rfl, hremember⟩
    | _ => cases ht

end Layouts

end CilSsa.Ssa

namespace CilSsa.Machine

open CilSsa.Number CilSsa.Text

def slice (l : Bytes) (o n : Nat) : Bytes := (l.drop o).take n

def splice (l : Bytes) (o : Nat) (bs : Bytes) : Bytes := l.take o ++ bs ++ l.drop (o + bs.length)

theorem getElem?_slice (l : Bytes) (o n i : Nat) : (slice l o n)[i]? = if i < n then l[o + i]? else none := by
  simp [slice, List.getElem?_take, List.getElem?_drop]

theorem getElem?_splice {l : Bytes} {o : Nat} {bs : Bytes} (h : o + bs.length ≤ l.length) (i : Nat) :
    (splice l o bs)[i]? = if i < o then l[i]? else if i < o + bs.length then bs[i - o]? else l[i]? := by
  grind [splice]

theorem length_splice {l : Bytes} {o : Nat} {bs : Bytes} (h : o + bs.length ≤ l.length) :
    (splice l o bs).length = l.length := by
  grind [splice]

theorem slice_splice_inside {l : Bytes} {o : Nat} {bs : Bytes} (h : o + bs.length ≤ l.length) {a n : Nat}
    (ha : a + n ≤ bs.length) : slice (splice l o bs) (o + a) n = slice bs a n := by
  apply List.ext_getElem?
  intro i
  simp only [getElem?_slice, getElem?_splice h]
  grind

theorem slice_splice_apart {l : Bytes} {o : Nat} {bs : Bytes} (h : o + bs.length ≤ l.length) {a n : Nat}
    (ha : a + n ≤ o ∨ o + bs.length ≤ a) : slice (splice l o bs) a n = slice l a n := by
  apply List.ext_getElem?
  intro i
  simp only [getElem?_slice, getElem?_splice h]
  grind

theorem slice_append {l m : Bytes} {a n : Nat} (h : a + n ≤ l.length) : slice (l ++ m) a n = slice l a n := by
  apply List.ext_getElem?
  intro i
  simp only [getElem?_slice]
  grind

theorem slice_replicate {k a n : Nat} (b : UInt8) (h : a + n ≤ k) : slice (List.replicate k b) a n =
    List.replicate n b := by
  apply List.ext_getElem?
  intro i
  simp only [getElem?_slice]
  grind

theorem toList_loop (a : ByteArray) (p : Nat) (found : List UInt8) :
    ByteArray.toList.loop a p found = found.reverse ++ a.data.toList.drop p := by
  fun_induction ByteArray.toList.loop a p found with
  | case1 p found hp ih =>
    have hlt : p < a.data.toList.length := by simpa using hp
    have hbyte : a.get! p = a.data.toList[p] := by simp [ByteArray.get!, hp]
    rw [ih, List.reverse_cons, List.append_assoc, List.singleton_append, hbyte, ← List.drop_eq_getElem_cons hlt]
  | case2 p found hp =>
    have hle : a.data.toList.length ≤ p := by simpa using hp
    rw [List.drop_of_length_le hle, List.append_nil]

theorem toList_eq (bs : ByteArray) : bs.toList = bs.data.toList := by
  simp [ByteArray.toList, toList_loop]

theorem wrapInt_of_lt {n : Nat} (h : n < 2 ^ 63) : wrapInt n = n := by
  have hn : (n : Int) < 9223372036854775808 := by omega
  rw [wrapInt, Int.bmod_def]
  omega

namespace Region

theorem le_alignUp (n align : Nat) : n ≤ alignUp n align := by
  unfold alignUp
  split
  · exact Nat.le_refl n
  · have h := Nat.div_add_mod (n + align - 1) align
    have hlt := Nat.mod_lt (n + align - 1) (by omega : 0 < align)
    have hc := Nat.mul_comm ((n + align - 1) / align) align
    omega

theorem room_eq {r : Region} {n align : Nat} {limit : Int} (h : alignUp r.top align + n < 2 ^ 63) :
    r.room n align limit = if (alignUp r.top align + n : Nat) ≤ limit then
      .ok (r.base + (alignUp r.top align).toUInt64, alignUp r.top align + n) else .error .exhausted := by
  have hle := le_alignUp r.top align
  have hstop := wrapInt_of_lt h
  rw [Int.natCast_add] at hstop
  simp only [room, hstop]
  by_cases hlim : ((alignUp r.top align + n : Nat) : Int) ≤ limit
  · rw [if_neg (by omega), if_neg (by omega), if_pos hlim, ← Int.natCast_add, Int.toNat_natCast]
  · rw [if_pos (by omega), if_neg hlim]

def bytes (r : Region) : Bytes := r.data.data.toList.take r.top

theorem length_bytes (r : Region) : r.bytes.length = r.top := by
  rw [bytes, List.length_take, Array.length_toList]
  exact Nat.min_eq_left r.fits

theorem read_eq (r : Region) {o n : Nat} (h : o + n ≤ r.top) : r.read o n = slice r.bytes o n := by
  have hread : r.read o n = slice r.data.data.toList o n := by simp [read, toList_eq, slice]
  rw [hread, slice, slice, bytes, List.drop_take, List.take_take, Nat.min_eq_left (by omega)]

@[simp] theorem read_zero (r : Region) (o : Nat) : r.read o 0 = [] := by
  simp [read, toList_eq]

theorem toList_clear (data : ByteArray) {o n : Nat} (h : o + n ≤ data.size) :
    (clear data o n).data.toList = splice data.data.toList o (List.replicate n 0) := by
  induction n generalizing data o with
  | zero => simp [clear, splice]
  | succ n ih =>
    have hset : (data.set! o 0).data.toList = data.data.toList.set o 0 := by simp [ByteArray.set!]
    have hlen : data.data.toList.length = data.size := Array.length_toList
    rw [clear, ih _ (by rw [ByteArray.size_set!]; omega), hset]
    apply List.ext_getElem?
    intro i
    rw [getElem?_splice (by simp; omega), getElem?_splice (by simp; omega)]
    grind

theorem take_backing (r : Region) (stop : Nat) : (r.backing stop).data.toList.take r.top = r.bytes := by
  have hfits : r.top ≤ r.data.data.toList.length := r.fits
  unfold backing
  split
  · have hlen : r.top ≤ (r.data.data.toList.take r.top).length := by rw [List.length_take, Nat.min_eq_left hfits]
    simp [bytes, List.take_append_of_le_length hlen, List.take_take]
  · rfl

/-- A region that ends at 2⁴⁷ at most never needs more than 2⁴⁸ bytes at once. -/
theorem size_backing_le (r : Region) {stop : Nat} (h : stop ≤ 2 ^ 47) : (r.backing stop).size ≤
    max r.data.size (2 ^ 48) := by
  have hfits := r.fits
  unfold backing
  split
  · rw [ByteArray.size_append, ByteArray.size_extract, size_zeros]
    omega
  · exact Nat.le_max_left ..

theorem size_grow (r : Region) (stop : Nat) : (r.grow stop).data.size = (r.backing stop).size := size_clear ..

theorem bytes_grow (r : Region) {stop : Nat} (h : r.top ≤ stop) :
    (r.grow stop).bytes = r.bytes ++ List.replicate (stop - r.top) 0 := by
  have hsize := r.le_size_backing stop
  have hlen : (r.backing stop).data.toList.length = (r.backing stop).size := Array.length_toList
  rw [bytes, grow]
  dsimp only
  rw [toList_clear _ (by omega), splice, take_backing, List.take_append_of_le_length, List.take_of_length_le] <;>
    rw [List.length_append, length_bytes, List.length_replicate] <;> omega

@[simp] theorem top_set (r : Region) (o : Nat) (b : UInt8) : (r.set o b).top = r.top := rfl

@[simp] theorem base_set (r : Region) (o : Nat) (b : UInt8) : (r.set o b).base = r.base := rfl

theorem base_write (r : Region) (o : Nat) (bs : Bytes) : (r.write o bs).base = r.base := by
  induction bs generalizing r o with
  | nil => rfl
  | cons b bs ih => rw [write, ih, base_set]

theorem bytes_write (r : Region) (o : Nat) (bs : Bytes) (h : o + bs.length ≤ r.top) :
    (r.write o bs).bytes = splice r.bytes o bs := by
  induction bs generalizing r o with
  | nil => simp [write, splice]
  | cons b bs ih => 
    have hlen : r.bytes.length = r.top := r.length_bytes
    have hset : (r.set o b).bytes = r.bytes.set o b := by simp [bytes, set, ByteArray.set!, List.take_set]
    simp only [List.length_cons] at h
    rw [write, ih _ _ (by rw [top_set]; omega), hset]
    apply List.ext_getElem?
    intro i
    rw [getElem?_splice (by simp; omega), getElem?_splice (by simp; omega)]
    grind

theorem top_write (r : Region) (o : Nat) (bs : Bytes) : (r.write o bs).top = r.top := by
  induction bs generalizing r o with
  | nil => rfl
  | cons b bs ih => rw [write, ih, top_set]

theorem size_write (r : Region) (o : Nat) (bs : Bytes) : (r.write o bs).data.size = r.data.size := by
  induction bs generalizing r o with
  | nil => rfl
  | cons b bs ih => rw [write, ih, set, ByteArray.size_set!]

theorem top_grow (r : Region) (stop : Nat) : (r.grow stop).top = stop := rfl

theorem top_release (r : Region) (mark : Nat) : (r.release mark).top = min mark r.top := rfl

theorem bytes_release (r : Region) (mark : Nat) : (r.release mark).bytes = r.bytes.take mark := by
  rw [bytes, bytes, List.take_take]
  rfl

theorem base_release (r : Region) (mark : Nat) : (r.release mark).base = r.base := rfl

theorem place?_eq {r : Region} (hr : r.base.toNat + r.top < 2 ^ 64) {o n : Nat} (h : o + n ≤ r.top) :
    r.place? (r.base + o.toUInt64) n = some o := by
  have ho : o.toUInt64.toNat = o := by
    rw [UInt64.toNat_ofNat']
    omega
  have hle : ¬ r.base + o.toUInt64 < r.base := by
    rw [UInt64.lt_iff_toNat_lt, UInt64.toNat_add, ho]
    omega
  have hsub : r.base + o.toUInt64 - r.base = o.toUInt64 := by
    rw [UInt64.add_comm, UInt64.add_sub_cancel]
  simp only [place?, hle, hsub, ho, false_or]
  rw [if_neg (by omega), if_neg (by omega)]

end Region

namespace Memory

variable {mem : Memory}

section

variable (hm : mem.stack.base.toNat + mem.stack.top < 2 ^ 64) {o n : Nat} (h : o + n ≤ mem.stack.top)

include hm h

theorem read?_stack : mem.read? (mem.stack.base + o.toUInt64) n = some (slice mem.stack.bytes o n) := by
  simp [read?, Region.place?_eq hm h, Region.read_eq _ h]

theorem maps_stack : mem.maps (mem.stack.base + o.toUInt64) n = true := by
  simp [maps, Region.place?_eq hm h]

end

theorem write_stack (hm : mem.stack.base.toNat + mem.stack.top < 2 ^ 64) {o : Nat} {bs : Bytes}
    (h : o + bs.length ≤ mem.stack.top) :
    mem.write (mem.stack.base + o.toUInt64) bs = { mem with stack := mem.stack.write o bs } := by
  simp [write, Region.place?_eq hm h]

end Memory

end CilSsa.Machine

