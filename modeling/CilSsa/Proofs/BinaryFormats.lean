import Mathlib.Tactic.IntervalCases
import CilSsa.Codec.Format
import CilSsa.Proofs.ImageReading
import CilSsa.Proofs.Memory
import CilSsa.Proofs.Words

namespace CilSsa.Text

theorem textOfBytes?_utf8Bytes (s : String) : textOfBytes? (utf8Bytes s) = some s := by
  have hvalid : s.toUTF8.IsValidUTF8 := s.isValidUTF8
  rw [textOfBytes?, utf8Bytes, Machine.toList_eq, Array.toArray_toList]
  exact dif_pos hvalid

theorem textOfBytes_utf8Bytes (s : String) : textOfBytes (utf8Bytes s) = s := by
  rw [textOfBytes, textOfBytes?_utf8Bytes, Option.getD_some]

end CilSsa.Text

namespace CilSsa.Number

theorem bigEndian_length (k n : Nat) : (bigEndian k n).length = k := by
  rw [bigEndian, List.length_reverse, littleEndian_length]

theorem ofBigEndian_bigEndian (k n : Nat) : ofBigEndian (bigEndian k n) = n % 256 ^ k := by
  rw [ofBigEndian, bigEndian, List.reverse_reverse, ofLittleEndian_littleEndian]

theorem wrapInt_of_fits {n : Int} (hlow : -2 ^ 63 ≤ n) (hhigh : n < 2 ^ 63) : wrapInt n = n := by
  rw [wrapInt, Int.bmod_def]
  omega

end CilSsa.Number

namespace CilSsa.Codec

open CilSsa.Number CilSsa.Text

/-- Data that a format can hold: numbers of 64 bits, texts of fewer than `t` bytes, lists and records of fewer than `l`
items, with different keys in a record, and all of it no deeper than told. -/
inductive Data.Within (t l : Nat) : Nat → Data → Prop
  | null {depth : Nat} : Within t l depth .null
  | bool {depth : Nat} {b : Bool} : Within t l depth (.bool b)
  | int {depth : Nat} {n : Int} : -2 ^ 63 ≤ n → n < 2 ^ 63 → Within t l depth (.int n)
  | text {depth : Nat} {s : String} : (utf8Bytes s).length < t → Within t l depth (.text s)
  | list {depth : Nat} {xs : List Data} : xs.length < l → (∀ x ∈ xs, Within t l depth x) →
      Within t l (depth + 1) (.list xs)
  | record {depth : Nat} {es : List (String × Data)} : es.length < l → (es.map (·.1)).Nodup →
      (∀ e ∈ es, (utf8Bytes e.1).length < t) → (∀ e ∈ es, Within t l depth e.2) → Within t l (depth + 1) (.record es)

/-- A library holds data with texts of fewer than `t` bytes and with fewer than `l` items in a list or record, and at
most 32 levels deep: what it writes for such data is read as that data, only the entries of records may come in another
order. -/
def Library.Conforms (lib : Library) (t l : Nat) : Prop :=
  ∀ d : Data, d.Within t l 32 → ∃ x, lib.decode? (lib.encode d) = some x ∧ Represents lib.reading d x

theorem take?_append (bs rest : Bytes) : take? bs.length (bs ++ rest) = some (bs, rest) := by
  simp [take?]

namespace MessagePack

theorem number?_bigEndian_mod (k n : Nat) (rest : Bytes) :
    number? k (bigEndian k n ++ rest) = some (n % 256 ^ k, rest) := by
  have htake := take?_append (bigEndian k n) rest
  rw [bigEndian_length] at htake
  simp [number?, htake, ofBigEndian_bigEndian]

theorem number?_bigEndian {k n : Nat} (h : n < 256 ^ k) (rest : Bytes) :
    number? k (bigEndian k n ++ rest) = some (n, rest) := by
  rw [number?_bigEndian_mod, Nat.mod_eq_of_lt h]

theorem parseHead_number {code : UInt8} {k n : Nat} {f : Nat → Head}
    (hcode : ∀ bs, parseHead (code :: bs) = (number? k bs).map fun (n, rest) ↦ (f n, rest)) (h : n < 256 ^ k)
    (rest : Bytes) : parseHead (head code k n ++ rest) = some (f n, rest) := by
  rw [head, List.cons_append, hcode, number?_bigEndian h]
  rfl

theorem parseHead_textHead {n : Nat} (h : n < 2 ^ 32) (rest : Bytes) :
    parseHead (textHead n ++ rest) = some (.text n, rest) := by
  by_cases hshort : n < 32
  · interval_cases n <;> rfl
  · by_cases h1 : n < 256
    · rw [show textHead n = head 0xD9 1 n by simp [textHead, sizedHead, hshort, h1]]
      exact parseHead_number (fun _ ↦ rfl) h1 rest
    · by_cases h2 : n < 65536
      · rw [show textHead n = head 0xDA 2 n by simp [textHead, sizedHead, hshort, h1, h2]]
        exact parseHead_number (fun _ ↦ rfl) h2 rest
      · have h4 : n < 4294967296 := h
        rw [show textHead n = head 0xDB 4 n by simp [textHead, sizedHead, hshort, h1, h2, h4]]
        exact parseHead_number (fun _ ↦ rfl) h4 rest

theorem parseHead_listHead {n : Nat} (h : n < 2 ^ 32) (rest : Bytes) :
    parseHead (listHead n ++ rest) = some (.list n, rest) := by
  by_cases hshort : n < 16
  · interval_cases n <;> rfl
  · by_cases h2 : n < 65536
    · rw [show listHead n = head 0xDC 2 n by simp [listHead, sizedHead, hshort, h2]]
      exact parseHead_number (fun _ ↦ rfl) h2 rest
    · have h4 : n < 4294967296 := h
      rw [show listHead n = head 0xDD 4 n by simp [listHead, sizedHead, hshort, h2, h4]]
      exact parseHead_number (fun _ ↦ rfl) h4 rest

theorem parseHead_recordHead {n : Nat} (h : n < 2 ^ 32) (rest : Bytes) :
    parseHead (recordHead n ++ rest) = some (.record n, rest) := by
  by_cases hshort : n < 16
  · interval_cases n <;> rfl
  · by_cases h2 : n < 65536
    · rw [show recordHead n = head 0xDE 2 n by simp [recordHead, sizedHead, hshort, h2]]
      exact parseHead_number (fun _ ↦ rfl) h2 rest
    · have h4 : n < 4294967296 := h
      rw [show recordHead n = head 0xDF 4 n by simp [recordHead, sizedHead, hshort, h2, h4]]
      exact parseHead_number (fun _ ↦ rfl) h4 rest

theorem parseHead_signed {code : UInt8} {k : Nat} {n : Int}
    (hcode : ∀ bs, parseHead (code :: bs) = (number? k bs).map fun (n, rest) ↦
    (.done (.int (signedOf (8 * k) n)), rest)) (hback : signedOf (8 * k) ((n % 18446744073709551616).toNat % 256 ^ k) =
    n) (rest : Bytes) : parseHead (head code k (n % 18446744073709551616).toNat ++ rest) =
    some (.done (.int n), rest) := by
  rw [head, List.cons_append, hcode, number?_bigEndian_mod]
  simp only [Option.map_some, hback]

theorem parseHead_encodeInt {n : Int} (hlow : -2 ^ 63 ≤ n) (hhigh : n < 2 ^ 63) (rest : Bytes) :
    parseHead (encodeInt n ++ rest) = some (.done (.int n), rest) := by
  by_cases h0 : 0 ≤ n
  · obtain ⟨m, rfl⟩ := Int.eq_ofNat_of_zero_le h0
    rw [encodeInt, if_pos h0, Int.toNat_natCast]
    dsimp only
    by_cases h7 : m < 128
    · rw [if_pos h7]
      interval_cases m <;> rfl
    · rw [if_neg h7]
      by_cases h8 : m < 256
      · rw [if_pos h8]
        exact parseHead_number (f := fun n ↦ .done (.int n)) (fun _ ↦ rfl) h8 rest
      · rw [if_neg h8]
        by_cases h16 : m < 65536
        · rw [if_pos h16]
          exact parseHead_number (f := fun n ↦ .done (.int n)) (fun _ ↦ rfl) h16 rest
        · rw [if_neg h16]
          by_cases h32 : m < 4294967296
          · rw [if_pos h32]
            exact parseHead_number (f := fun n ↦ .done (.int n)) (fun _ ↦ rfl) h32 rest
          · rw [if_neg h32]
            exact parseHead_number (f := fun n ↦ .done (.int n)) (fun _ ↦ rfl) (by omega) rest
  · rw [encodeInt, if_neg h0]
    dsimp only
    by_cases h5 : -32 ≤ n
    · rw [if_pos h5]
      have hneg : n ≤ -1 := by omega
      clear h0 hlow hhigh
      interval_cases n <;> rfl
    · rw [if_neg h5]
      by_cases h8 : -128 ≤ n
      · rw [if_pos h8]
        exact parseHead_signed (fun _ ↦ rfl) (by simp only [signedOf]; norm_num; split <;> omega) rest
      · rw [if_neg h8]
        by_cases h16 : -32768 ≤ n
        · rw [if_pos h16]
          exact parseHead_signed (fun _ ↦ rfl) (by simp only [signedOf]; norm_num; split <;> omega) rest
        · rw [if_neg h16]
          by_cases h32 : -2147483648 ≤ n
          · rw [if_pos h32]
            exact parseHead_signed (fun _ ↦ rfl) (by simp only [signedOf]; norm_num; split <;> omega) rest
          · rw [if_neg h32]
            exact parseHead_signed (fun _ ↦ rfl) (by simp only [signedOf]; norm_num; split <;> omega) rest

theorem item_text {s : String} (h : (utf8Bytes s).length < 2 ^ 32) (fuel : Nat) (rest : Bytes) :
    item (fuel + 1) (encodeText s ++ rest) = some (.text s, rest) := by
  rw [item, encodeText, List.append_assoc, parseHead_textHead h]
  simp [take?_append, textOfBytes_utf8Bytes]

theorem pairsFrom_text {key : String} (h : (utf8Bytes key).length < 2 ^ 32) {fuel n : Nat} {bs rest : Bytes} {d : Data}
    {more : List (Data × Data)} {left : Bytes} (hd : item (fuel + 1) bs = some (d, rest))
    (hmore : pairsFrom (fuel + 1) n rest = some (more, left)) :
    pairsFrom (fuel + 2) (n + 1) (encodeText key ++ bs) = some ((.text key, d) :: more, left) := by
  rw [pairsFrom, item_text h]
  simp [hd, hmore]

theorem sizedHead_pos (short : UInt8) (limit : Nat) (wide : List (UInt8 × Nat)) (n : Nat) :
    0 < (sizedHead short limit wide n).length := by
  unfold sizedHead
  split
  · exact Nat.one_pos
  · split <;> exact Nat.succ_pos _

theorem encode_pos (d : Data) : 0 < (encode d).length := by
  cases d with
  | null | bool | other => rw [encode]; exact Nat.one_pos
  | int n =>
    rw [encode, encodeInt]
    split <;> dsimp only <;> repeat' first | split | exact Nat.succ_pos _
  | text s =>
    rw [encode, encodeText, List.length_append]
    exact Nat.add_pos_left (sizedHead_pos ..) _
  | bytes bs | list xs | record es =>
    rw [encode, List.length_append]
    exact Nat.add_pos_left (sizedHead_pos ..) _

def Decodes (d : Data) : Prop :=
  ∀ (fuel : Nat) (rest : Bytes), 2 * (encode d).length ≤ fuel + 1 → item fuel (encode d ++ rest) = some (d, rest)

theorem itemsFrom_encodeList {xs : List Data} (h : ∀ x ∈ xs, Decodes x) (fuel : Nat) (rest : Bytes)
    (hfuel : 2 * (encodeList xs).length ≤ fuel) : itemsFrom fuel xs.length (encodeList xs ++ rest) =
    some (xs, rest) := by
  induction xs generalizing fuel with
  | nil => cases fuel <;> rfl
  | cons x xs ih =>
    rw [encodeList, List.length_append] at hfuel
    have hpos := encode_pos x
    obtain ⟨fuel, rfl⟩ : ∃ k, fuel = k + 1 := ⟨fuel - 1, by omega⟩
    have hx := h x List.mem_cons_self fuel (encodeList xs ++ rest) (by omega)
    have hxs := ih (fun y hy ↦ h y (List.mem_cons_of_mem _ hy)) fuel (by omega)
    rw [encodeList, List.append_assoc, List.length_cons, itemsFrom, hx]
    simp only [Option.bind_eq_bind, Option.bind_some, hxs]
    rfl

theorem encodeText_pos (s : String) : 0 < (encodeText s).length := by
  rw [encodeText, List.length_append]
  exact Nat.add_pos_left (sizedHead_pos ..) _

theorem pairsFrom_encodeEntries {es : List (String × Data)} (hkeys : ∀ e ∈ es, (utf8Bytes e.1).length < 2 ^ 32)
    (h : ∀ e ∈ es, Decodes e.2) (fuel : Nat) (rest : Bytes) (hfuel : 2 * (encodeEntries es).length ≤ fuel) :
    pairsFrom fuel es.length (encodeEntries es ++ rest) = some (es.map fun e ↦ (.text e.1, e.2), rest) := by
  induction es generalizing fuel with
  | nil => cases fuel <;> rfl
  | cons e es ih =>
    obtain ⟨k, d⟩ := e
    rw [encodeEntries, List.length_append, List.length_append] at hfuel
    have hpos := encodeText_pos k
    have hpos' := encode_pos d
    obtain ⟨fuel, rfl⟩ : ∃ k, fuel = k + 2 := ⟨fuel - 2, by omega⟩
    have hd := h (k, d) List.mem_cons_self (fuel + 1) (encodeEntries es ++ rest) (by dsimp only; omega)
    have hes := ih (fun y hy ↦ hkeys y (List.mem_cons_of_mem _ hy)) (fun y hy ↦ h y (List.mem_cons_of_mem _ hy))
      (fuel + 1) (by omega)
    rw [encodeEntries, List.append_assoc, List.append_assoc, List.length_cons]
    exact pairsFrom_text (hkeys _ List.mem_cons_self) hd hes

theorem recordOf_texts (es : List (String × Data)) :
    recordOf (es.map fun e ↦ (.text e.1, e.2)) = .record es := by
  have hkeys : (es.map fun e ↦ ((.text e.1 : Data), e.2)).mapM (fun p ↦ (keyText? p.1).map (·, p.2)) = some es := by
    induction es with
    | nil => rfl
    | cons e es ih =>
      rw [List.map_cons, List.mapM_cons, ih]
      rfl
  rw [recordOf, hkeys]

theorem decodes_of_within {depth : Nat} {d : Data} (h : d.Within (2 ^ 32) (2 ^ 32) depth) : Decodes d := by
  induction h with
  | null =>
    intro fuel rest hfuel
    obtain ⟨fuel, rfl⟩ : ∃ k, fuel = k + 1 := ⟨fuel - 1, by have := encode_pos .null; omega⟩
    rfl
  | @bool _ b =>
    intro fuel rest hfuel
    obtain ⟨fuel, rfl⟩ : ∃ k, fuel = k + 1 := ⟨fuel - 1, by have := encode_pos (.bool b); omega⟩
    cases b <;> rfl
  | @int _ n hlow hhigh =>
    intro fuel rest hfuel
    obtain ⟨fuel, rfl⟩ : ∃ k, fuel = k + 1 := ⟨fuel - 1, by have := encode_pos (.int n); omega⟩
    rw [item, encode, parseHead_encodeInt hlow hhigh]
    rfl
  | @text _ s hs =>
    intro fuel rest hfuel
    obtain ⟨fuel, rfl⟩ : ∃ k, fuel = k + 1 := ⟨fuel - 1, by have := encode_pos (.text s); omega⟩
    rw [encode]
    exact item_text hs fuel rest
  | @list _ xs hlen _ ih =>
    intro fuel rest hfuel
    have hpos := sizedHead_pos 0x90 16 [(0xDC, 2), (0xDD, 4)] xs.length
    rw [encode, List.length_append, listHead] at hfuel
    obtain ⟨fuel, rfl⟩ : ∃ k, fuel = k + 1 := ⟨fuel - 1, by omega⟩
    rw [item, encode, List.append_assoc, parseHead_listHead hlen]
    simp only [Option.bind_eq_bind, Option.bind_some, itemsFrom_encodeList ih fuel rest (by omega)]
    rfl
  | @record _ es hlen _ hkeys _ ih =>
    intro fuel rest hfuel
    have hpos := sizedHead_pos 0x80 16 [(0xDE, 2), (0xDF, 4)] es.length
    rw [encode, List.length_append, recordHead] at hfuel
    obtain ⟨fuel, rfl⟩ : ∃ k, fuel = k + 1 := ⟨fuel - 1, by omega⟩
    rw [item, encode, List.append_assoc, parseHead_recordHead hlen]
    simp only [Option.bind_eq_bind, Option.bind_some, pairsFrom_encodeEntries hkeys ih fuel rest (by omega),
      recordOf_texts]
    rfl

theorem decode?_encode {depth : Nat} {d : Data} (h : d.Within (2 ^ 32) (2 ^ 32) depth) :
    decode? (encode d) = some d := by
  have hitem := decodes_of_within h (2 * (encode d).length + 2) [] (by omega)
  rw [List.append_nil] at hitem
  rw [decode?, hitem, Option.map_some]

theorem represents_self {t l depth : Nat} {d : Data} (h : d.Within t l depth) : Represents reading d d := by
  induction h with
  | null => exact .null rfl
  | bool => exact .bool rfl
  | int hlow hhigh => exact .int (congrArg some (wrapInt_of_fits hlow hhigh))
  | text => exact .text rfl
  | list _ _ ih => exact .list rfl (List.forall₂_same.mpr ih)
  | @record _ es _ hnodup _ _ ih =>
    refine @Represents.record _ _ es (es.map fun e ↦ (e, e.2)) _ (fun keys _ _ ↦ ?_) hnodup ?_ fun t ht ↦ ?_
    · rw [List.map_map]
      exact congrArg (some ∘ some) (List.map_id es).symm
    · rw [List.map_map]
      exact .of_eq (List.map_id es)
    · obtain ⟨e, he, rfl⟩ := List.mem_map.mp ht
      exact ih e he

theorem conforms : library.Conforms (2 ^ 32) (2 ^ 32) := fun d hd ↦ ⟨d, decode?_encode hd, represents_self hd⟩

end MessagePack

namespace Cbor

theorem toNat_add_of_small {major : UInt8} {k : Nat} (hmajor : major.toNat < 8) (hk : k < 32) :
    (major * 32 + k.toUInt8).toNat = 32 * major.toNat + k := by
  rw [UInt8.toNat_add, UInt8.toNat_mul]
  have hbyte : k.toUInt8.toNat = k := by simp [Nat.toUInt8]; omega
  have hbits : (32 : UInt8).toNat = 32 := rfl
  rw [hbyte, hbits]
  omega

theorem parseHead_wide {major : UInt8} (hmajor : major.toNat < 8) {n k low : Nat} (hn : n < 256 ^ k)
    (hlow : (low, k) ∈ [(24, 1), (25, 2), (26, 4), (27, 8)]) (rest : Bytes) :
    parseHead ((major * 32 + low.toUInt8) :: bigEndian k n ++ rest) = some (major.toNat, low, .value n, rest) := by
  have hlow32 : low < 32 := by
    simp only [List.mem_cons, Prod.mk.injEq, List.not_mem_nil, or_false] at hlow
    omega
  have hbyte := toNat_add_of_small hmajor hlow32
  have hdiv : (32 * major.toNat + low) / 32 = major.toNat := by omega
  have hmod : (32 * major.toNat + low) % 32 = low := by omega
  have htake : (bigEndian k n ++ rest).take k = bigEndian k n := by
    rw [List.take_append_of_le_length (bigEndian_length k n).ge, List.take_of_length_le (bigEndian_length k n).le]
  have hdrop : (bigEndian k n ++ rest).drop k = rest := by
    rw [List.drop_append_of_le_length (bigEndian_length k n).ge, List.drop_of_length_le (bigEndian_length k n).le,
      List.nil_append]
  have hback : ofBigEndian (bigEndian k n) = n := by rw [ofBigEndian_bigEndian, Nat.mod_eq_of_lt hn]
  rw [List.cons_append, parseHead, hbyte, hdiv, hmod]
  simp only [List.mem_cons, Prod.mk.injEq, List.not_mem_nil, or_false] at hlow
  rcases hlow with ⟨rfl, rfl⟩ | ⟨rfl, rfl⟩ | ⟨rfl, rfl⟩ | ⟨rfl, rfl⟩ <;>
    simp [htake, hdrop, hback, bigEndian_length]

theorem parseHead_head (major : UInt8) (hmajor : major.toNat < 8) {n : Nat} (hn : n < 2 ^ 64) (rest : Bytes) :
    ∃ low, parseHead (head major n ++ rest) = some (major.toNat, low, .value n, rest) := by
  by_cases h24 : n < 24
  · refine ⟨n, ?_⟩
    have hbyte := toNat_add_of_small (k := n) hmajor (by omega)
    have hdiv : (32 * major.toNat + n) / 32 = major.toNat := by omega
    have hmod : (32 * major.toNat + n) % 32 = n := by omega
    rw [head, if_pos h24, List.cons_append, List.nil_append, parseHead, hbyte, hdiv, hmod]
    dsimp only
    rw [if_pos h24]
  · rw [head, if_neg h24]
    by_cases h1 : n < 256
    · rw [if_pos h1]
      exact ⟨24, parseHead_wide hmajor h1 (by simp) rest⟩
    · rw [if_neg h1]
      by_cases h2 : n < 65536
      · rw [if_pos h2]
        exact ⟨25, parseHead_wide hmajor h2 (by simp) rest⟩
      · rw [if_neg h2]
        by_cases h4 : n < 4294967296
        · rw [if_pos h4]
          exact ⟨26, parseHead_wide hmajor h4 (by simp) rest⟩
        · rw [if_neg h4]
          exact ⟨27, parseHead_wide hmajor (by omega) (by simp) rest⟩

theorem head_pos (major : UInt8) (n : Nat) : 0 < (head major n).length := by
  rw [head]
  repeat' first | split | exact Nat.succ_pos _

theorem encode_pos (d : Data) : 0 < (encode d).length := by
  cases d with
  | null | bool | other => rw [encode]; exact Nat.one_pos
  | int n =>
    rw [encode, encodeInt]
    split <;> exact head_pos ..
  | text s =>
    rw [encode, encodeText, List.length_append]
    exact Nat.add_pos_left (head_pos ..) _
  | bytes bs | list xs | record es =>
    rw [encode, List.length_append]
    exact Nat.add_pos_left (head_pos ..) _

theorem encodeText_pos (s : String) : 0 < (encodeText s).length := by
  rw [encodeText, List.length_append]
  exact Nat.add_pos_left (head_pos ..) _

/-- In `depth` levels and with fuel for it, the encoding of data is decoded as an item. -/
def Decodes (depth : Nat) (d : Data) (x : Item) : Prop :=
  ∀ (most fuel : Nat) (rest : Bytes), depth ≤ most → 2 * (encode d).length ≤ fuel + 1 →
    item most fuel (encode d ++ rest) = some (x, rest)

theorem item_text {s : String} (h : (utf8Bytes s).length < 2 ^ 64) (most fuel : Nat) (rest : Bytes) :
    item most (fuel + 1) (encodeText s ++ rest) = some (.text (some s), rest) := by
  obtain ⟨low, hhead⟩ := parseHead_head 3 (by decide) h (utf8Bytes s ++ rest)
  rw [item, encodeText, List.append_assoc, hhead]
  simp only [Option.bind_eq_bind, Option.bind_some, UInt8.reduceToNat, take?_append, textOfBytes?_utf8Bytes]
  rfl

theorem exists_pairs {α β : Type} {R : α → β → Prop} {l : List α} (h : ∀ x ∈ l, ∃ y, R x y) :
    ∃ ts : List (α × β), ts.map (·.1) = l ∧ ∀ t ∈ ts, R t.1 t.2 := by
  induction l with
  | nil => exact ⟨[], rfl, nofun⟩
  | cons x l ih =>
    obtain ⟨y, hy⟩ := h x List.mem_cons_self
    obtain ⟨ts, hts, hall⟩ := ih fun z hz ↦ h z (List.mem_cons_of_mem _ hz)
    exact ⟨(x, y) :: ts, by rw [List.map_cons, hts], List.forall_mem_cons.mpr ⟨hy, hall⟩⟩

theorem itemsFrom_encodeList {depth : Nat} {ts : List (Data × Item)} (h : ∀ t ∈ ts, Decodes depth t.1 t.2)
    (most : Nat) (hmost : depth ≤ most) (fuel : Nat) (rest : Bytes)
    (hfuel : 2 * (encodeList (ts.map (·.1))).length ≤ fuel) :
    itemsFrom most fuel (.value ts.length) (encodeList (ts.map (·.1)) ++ rest) = some (ts.map (·.2), rest) := by
  induction ts generalizing fuel with
  | nil => cases fuel <;> rfl
  | cons t ts ih =>
    rw [List.map_cons, encodeList, List.length_append] at hfuel
    have hpos := encode_pos t.1
    obtain ⟨fuel, rfl⟩ : ∃ k, fuel = k + 1 := ⟨fuel - 1, by omega⟩
    have ht := h t List.mem_cons_self most fuel (encodeList (ts.map (·.1)) ++ rest) hmost (by omega)
    have hts := ih (fun y hy ↦ h y (List.mem_cons_of_mem _ hy)) fuel (by omega)
    rw [List.map_cons, encodeList, List.append_assoc, List.length_cons, itemsFrom, ht]
    · simp only [Option.bind_eq_bind, Option.bind_some, Argument.pred, Nat.add_sub_cancel, hts]
      rfl
    · exact nofun
    · exact nofun

def encodePairs (es : List (String × Data)) : Bytes := es.flatMap fun e ↦ encodeText e.1 ++ encode e.2

def sortEntries (es : List (String × Data)) : List (String × Data) :=
  es.mergeSort fun a b ↦ keyLe (encodeText a.1) (encodeText b.1)

theorem encodeEntries_eq (es : List (String × Data)) :
    encodeEntries es = es.map fun e ↦ (encodeText e.1, encode e.2) := by
  induction es with
  | nil => rfl
  | cons e es ih => rw [encodeEntries, ih, List.map_cons]

theorem encode_record (es : List (String × Data)) :
    encode (.record es) = head 5 es.length ++ encodePairs (sortEntries es) := by
  have hsort : (encodeEntries es).mergeSort (fun a b ↦ keyLe a.1 b.1) =
      (sortEntries es).map fun e ↦ (encodeText e.1, encode e.2) := by
    rw [encodeEntries_eq, sortEntries]
    refine (List.map_mergeSort ?_).symm
    exact fun _ _ _ _ ↦ rfl
  rw [encode, hsort, encodePairs, List.flatMap_map]

theorem pairsFrom_encodePairs {depth : Nat} {ts : List ((String × Data) × Item)}
    (hkeys : ∀ t ∈ ts, (utf8Bytes t.1.1).length < 2 ^ 64) (h : ∀ t ∈ ts, Decodes depth t.1.2 t.2)
    (most : Nat) (hmost : depth ≤ most) (fuel : Nat) (rest : Bytes)
    (hfuel : 2 * (encodePairs (ts.map (·.1))).length ≤ fuel) :
    pairsFrom most fuel (.value ts.length) (encodePairs (ts.map (·.1)) ++ rest) =
      some (ts.map fun t ↦ (.text (some t.1.1), t.2), rest) := by
  induction ts generalizing fuel with
  | nil => cases fuel <;> rfl
  | cons t ts ih =>
    have hcons : encodePairs ((t :: ts).map (·.1)) =
        encodeText t.1.1 ++ (encode t.1.2 ++ encodePairs (ts.map (·.1))) := by
      simp [encodePairs]
    rw [hcons, List.length_append, List.length_append] at hfuel
    have hpos := encodeText_pos t.1.1
    have hpos' := encode_pos t.1.2
    obtain ⟨fuel, rfl⟩ : ∃ k, fuel = k + 2 := ⟨fuel - 2, by omega⟩
    have ht := h t List.mem_cons_self most (fuel + 1) (encodePairs (ts.map (·.1)) ++ rest) hmost (by omega)
    have hts := ih (fun y hy ↦ hkeys y (List.mem_cons_of_mem _ hy)) (fun y hy ↦ h y (List.mem_cons_of_mem _ hy))
      (fuel + 1) (by omega)
    rw [hcons, List.append_assoc, List.append_assoc, List.length_cons, pairsFrom,
      item_text (hkeys t List.mem_cons_self)]
    · simp only [Option.bind_eq_bind, Option.bind_some, ht, Argument.pred, Nat.add_sub_cancel, hts]
      rfl
    · exact nofun
    · exact nofun

theorem find?_self {keys : List String} {s : String} (h : s ∈ keys) : keys.find? (· == s) = some s := by
  cases hfind : keys.find? (· == s) with
  | none => simpa using List.find?_eq_none.mp hfind s h
  | some x =>
    have hx := List.find?_some hfind
    rw [eq_of_beq hx]

/-- Texts that are different keys of a record are given to the fields that they name. -/
theorem assign_texts {keys : List String} {ts : List ((String × Data) × Item)} (hkeys : keys.Nodup)
    (hnodup : (ts.map (·.1.1)).Nodup) (hmem : ∀ t ∈ ts, t.1.1 ∈ keys) :
    assign keys (ts.map fun t ↦ (.text (some t.1.1), t.2)) = some (ts.map fun t ↦ (t.1.1, t.2)) := by
  induction ts generalizing keys with
  | nil => rfl
  | cons t ts ih =>
    rw [List.map_cons, List.nodup_cons] at hnodup
    have hrest : ∀ t' ∈ ts, t'.1.1 ∈ keys.erase t.1.1 := fun t' ht' ↦ by
      refine (hkeys.mem_erase_iff).mpr ⟨?_, hmem t' (List.mem_cons_of_mem _ ht')⟩
      intro heq
      exact hnodup.1 (heq ▸ List.mem_map_of_mem ht')
    rw [List.map_cons, assign, find?_self (hmem t List.mem_cons_self), Option.some_or]
    dsimp only
    rw [ih (hkeys.erase _) hnodup.2 hrest]
    rfl

theorem item_list {depth : Nat} {ts : List (Data × Item)} (hlen : ts.length ≤ maxCount)
    (h : ∀ t ∈ ts, Decodes depth t.1 t.2) {most fuel : Nat} (hmost : depth + 1 ≤ most) (rest : Bytes)
    (hfuel : 2 * (encode (.list (ts.map (·.1)))).length ≤ fuel + 1) :
    item most fuel (encode (.list (ts.map (·.1))) ++ rest) =
      some (.list (ts.map (·.2)), rest) := by
  have hsmall : ts.length < 2 ^ 64 := hlen.trans_lt (by decide)
  have hpos := head_pos 4 (ts.map (·.1)).length
  rw [encode, List.length_append] at hfuel
  obtain ⟨fuel, rfl⟩ : ∃ k, fuel = k + 1 := ⟨fuel - 1, by omega⟩
  obtain ⟨low, hhead⟩ := parseHead_head 4 (by decide) hsmall (encodeList (ts.map (·.1)) ++ rest)
  have hitems := itemsFrom_encodeList h (most - 1) (by omega) fuel rest (by omega)
  rw [item, encode, List.append_assoc, List.length_map, hhead]
  simp only [Option.bind_eq_bind, Option.bind_some, UInt8.reduceToNat, hitems, List.length_map,
    if_neg (by omega : ¬most = 0), if_neg (by omega : ¬ts.length > maxCount)]
  rfl

theorem item_record {depth : Nat} {es : List (String × Data)} {ts : List ((String × Data) × Item)}
    (hts : ts.map (·.1) = sortEntries es) (hlen : es.length ≤ maxCount)
    (hkeys : ∀ e ∈ es, (utf8Bytes e.1).length < 2 ^ 64) (h : ∀ t ∈ ts, Decodes depth t.1.2 t.2) {most fuel : Nat}
    (hmost : depth + 1 ≤ most) (rest : Bytes) (hfuel : 2 * (encode (.record es)).length ≤ fuel + 1) :
    item most fuel (encode (.record es) ++ rest) =
      some (.record (ts.map fun t ↦ (.text (some t.1.1), t.2)), rest) := by
  have hperm : (sortEntries es).Perm es := List.mergeSort_perm _ _
  have hcount : ts.length = es.length := by rw [← hperm.length_eq, ← hts, List.length_map]
  have hpos := head_pos 5 es.length
  rw [encode_record, List.length_append, ← hts] at hfuel
  obtain ⟨fuel, rfl⟩ : ∃ k, fuel = k + 1 := ⟨fuel - 1, by omega⟩
  have hsmall : es.length < 2 ^ 64 := hlen.trans_lt (by decide)
  obtain ⟨low, hhead⟩ := parseHead_head 5 (by decide) hsmall (encodePairs (ts.map (·.1)) ++ rest)
  have hmem : ∀ t ∈ ts, t.1 ∈ es := fun t ht ↦ hperm.mem_iff.mp (hts ▸ List.mem_map_of_mem ht)
  have hpairs := pairsFrom_encodePairs (fun t ht ↦ hkeys _ (hmem t ht)) h (most - 1) (by omega) fuel rest (by omega)
  rw [hcount] at hpairs
  rw [item, encode_record, ← hts, List.append_assoc, hhead]
  simp only [Option.bind_eq_bind, Option.bind_some, UInt8.reduceToNat, hpairs, List.length_map, hcount,
    if_neg (by omega : ¬most = 0), if_neg (by omega : ¬es.length > maxCount)]
  rfl

/-- What CBOR can hold and its decoder takes is decoded as an item that stands for it. -/
theorem exists_item {depth : Nat} {d : Data} (h : d.Within (2 ^ 64) (maxCount + 1) depth) :
    ∃ x, Decodes depth d x ∧ Represents reading d x := by
  induction h with
  | null =>
    refine ⟨.null, fun most fuel rest _ hfuel ↦ ?_, .null rfl⟩
    obtain ⟨fuel, rfl⟩ : ∃ k, fuel = k + 1 := ⟨fuel - 1, by have := encode_pos .null; omega⟩
    rfl
  | @bool _ b =>
    refine ⟨.bool b, fun most fuel rest _ hfuel ↦ ?_, .bool rfl⟩
    obtain ⟨fuel, rfl⟩ : ∃ k, fuel = k + 1 := ⟨fuel - 1, by have := encode_pos (.bool b); omega⟩
    cases b <;> rfl
  | @int _ n hlow hhigh =>
    refine ⟨.int n, fun most fuel rest _ hfuel ↦ ?_, .int ?_⟩
    · obtain ⟨fuel, rfl⟩ : ∃ k, fuel = k + 1 := ⟨fuel - 1, by have := encode_pos (.int n); omega⟩
      rw [item, encode, encodeInt]
      by_cases h0 : 0 ≤ n
      · obtain ⟨low, hhead⟩ := parseHead_head 0 (by decide) (n := n.toNat) (by omega) rest
        rw [if_pos h0, hhead]
        simp only [Option.bind_eq_bind, Option.bind_some, UInt8.reduceToNat, Int.toNat_of_nonneg h0]
        rfl
      · obtain ⟨low, hhead⟩ := parseHead_head 1 (by decide) (n := (-1 - n).toNat) (by omega) rest
        have hback : -1 - ((-1 - n).toNat : Int) = n := by omega
        rw [if_neg h0, hhead]
        simp only [Option.bind_eq_bind, Option.bind_some, UInt8.reduceToNat, hback]
        rfl
    · change (if wrapInt n = n then some n else none) = some n
      rw [if_pos (wrapInt_of_fits hlow hhigh)]
  | @text _ s hs =>
    refine ⟨.text (some s), fun most fuel rest _ hfuel ↦ ?_, .text rfl⟩
    obtain ⟨fuel, rfl⟩ : ∃ k, fuel = k + 1 := ⟨fuel - 1, by have := encode_pos (.text s); omega⟩
    rw [encode]
    exact item_text hs most fuel rest
  | @list depth xs hlen _ ih =>
    obtain ⟨ts, rfl, hts⟩ := exists_pairs ih
    rw [List.length_map] at hlen
    refine ⟨.list (ts.map (·.2)), fun most fuel rest hmost hfuel ↦ ?_, .list rfl ?_⟩
    · exact item_list (by omega) (fun t ht ↦ (hts t ht).1) hmost rest hfuel
    · rw [List.forall₂_map_left_iff, List.forall₂_map_right_iff, List.forall₂_same]
      exact fun t ht ↦ (hts t ht).2
  | @record depth es hlen hnodup hkeys _ ih =>
    have hperm : (sortEntries es).Perm es := List.mergeSort_perm _ _
    obtain ⟨ts, htsort, hts⟩ := exists_pairs (R := fun e x ↦ Decodes depth e.2 x ∧ Represents reading e.2 x)
      fun e he ↦ ih e (hperm.mem_iff.mp he)
    rw [← htsort] at hperm
    refine ⟨.record (ts.map fun t ↦ (.text (some t.1.1), t.2)), fun most fuel rest hmost hfuel ↦ ?_,
      .record (fun keys hkeysn hall ↦ ?_) hnodup hperm fun t ht ↦ (hts t ht).2⟩
    · exact item_record htsort (by omega) hkeys (fun t ht ↦ (hts t ht).1) hmost rest hfuel
    · have hsame := (hperm.map (·.1)).nodup_iff.mpr hnodup
      rw [List.map_map] at hsame
      have hassign := assign_texts hkeysn hsame fun t ht ↦ hall _ (hperm.mem_iff.mp (List.mem_map_of_mem ht))
      change (assign keys (ts.map fun t ↦ (.text (some t.1.1), t.2))).map some = _
      rw [hassign]
      rfl

theorem conforms : library.Conforms (2 ^ 64) (maxCount + 1) := by
  intro d h
  obtain ⟨x, hx, hrep⟩ := exists_item h
  have hitem := hx maxDepth (2 * (encode d).length + 2) [] le_rfl (by omega)
  rw [List.append_nil] at hitem
  refine ⟨x, ?_, hrep⟩
  change decode? (encode d) = some x
  rw [decode?, hitem]
  rfl

end Cbor

end CilSsa.Codec

