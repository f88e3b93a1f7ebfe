import CilSsa.Pipeline.Cache
import CilSsa.Proofs.BinaryFormats
import CilSsa.Proofs.Words

namespace CilSsa.Pipeline

open CilSsa.Number CilSsa.Text

def measured (data : Bytes) : Bytes := littleEndian 8 data.length ++ data

/-- The images of the one request go on where those of the other end, and its selector begins with them. -/
def Swallows (images images' : List Bytes) (selector selector' : String) : Prop :=
  ∃ more, images' = images ++ more ∧ utf8Bytes selector = more.flatMap measured ++ utf8Bytes selector'

section

variable {a b rest rest' : Bytes} {as bs images images' : List Bytes} {selector selector' : String}
  {optimize optimize' : Bool}

theorem utf8Bytes_injective : Function.Injective utf8Bytes := fun s s' h ↦
  Option.some.inj ((textOfBytes?_utf8Bytes s).symm.trans (h ▸ textOfBytes?_utf8Bytes s'))

theorem measured_append_inj (ha : a.length < 2 ^ 64) (hb : b.length < 2 ^ 64)
    (h : measured a ++ rest = measured b ++ rest') : a = b ∧ rest = rest' := by
  unfold measured at h
  rw [List.append_assoc, List.append_assoc] at h
  obtain ⟨hcount, hdata⟩ := List.append_inj h (by rw [littleEndian_length, littleEndian_length])
  have hlength := congrArg ofLittleEndian hcount
  rw [ofLittleEndian_littleEndian, ofLittleEndian_littleEndian, Nat.mod_eq_of_lt (by omega),
    Nat.mod_eq_of_lt (by omega)] at hlength
  exact List.append_inj hdata hlength

theorem flatMap_measured_append (has : ∀ a ∈ as, a.length < 2 ^ 64) (hbs : ∀ b ∈ bs, b.length < 2 ^ 64)
    (h : as.flatMap measured ++ rest = bs.flatMap measured ++ rest') :
    (∃ more, bs = as ++ more ∧ rest = more.flatMap measured ++ rest') ∨
      ∃ more, as = bs ++ more ∧ rest' = more.flatMap measured ++ rest := by
  induction as generalizing bs with
  | nil => exact .inl ⟨bs, rfl, h⟩
  | cons a as ih =>
    cases bs with
    | nil => exact .inr ⟨a :: as, rfl, h.symm⟩
    | cons b bs =>
      obtain ⟨ha, hmoreA⟩ := List.forall_mem_cons.mp has
      obtain ⟨hb, hmoreB⟩ := List.forall_mem_cons.mp hbs
      rw [List.flatMap_cons, List.flatMap_cons, List.append_assoc, List.append_assoc] at h
      obtain ⟨rfl, hrest⟩ := measured_append_inj ha hb h
      exact (ih hmoreA hmoreB hrest).imp (fun ⟨more, heq, hmore⟩ ↦ ⟨more, congrArg (a :: ·) heq, hmore⟩)
        fun ⟨more, heq, hmore⟩ ↦ ⟨more, congrArg (a :: ·) heq, hmore⟩

theorem keyInput_eq : keyInput images selector optimize =
    images.flatMap measured ++ utf8Bytes selector ++ [if optimize then 1 else 0] := rfl

theorem optimize_of_append_eq (h : a ++ [if optimize then (1 : UInt8) else 0] = b ++ [if optimize' then 1 else 0]) :
    a = b ∧ optimize = optimize' := by
  obtain ⟨hab, hlast⟩ := List.append_inj' h rfl
  refine ⟨hab, ?_⟩
  cases optimize <;> cases optimize' <;> first | rfl | cases hlast

theorem keyInput_eq_iff (himages : ∀ a ∈ images, a.length < 2 ^ 64) (himages' : ∀ a ∈ images', a.length < 2 ^ 64) :
    keyInput images selector optimize = keyInput images' selector' optimize' ↔
      optimize = optimize' ∧ (Swallows images images' selector selector' ∨
      Swallows images' images selector' selector) := by
  constructor
  · intro h
    obtain ⟨hbytes, rfl⟩ := optimize_of_append_eq h
    exact ⟨rfl, flatMap_measured_append himages himages' hbytes⟩
  · rintro ⟨rfl, ⟨more, rfl, hmore⟩ | ⟨more, rfl, hmore⟩⟩ <;>
      simp only [keyInput_eq, hmore, List.flatMap_append, List.append_assoc]

theorem zero_mem_littleEndian {n : Nat} (h : n < 2 ^ 56) : (0 : UInt8) ∈ littleEndian 8 n := by
  have hlast : n / 256 / 256 / 256 / 256 / 256 / 256 / 256 = 0 := by omega
  simp [littleEndian, hlast]

theorem Swallows.eq (h : Swallows images images' selector selector') (hzero : (0 : UInt8) ∉ utf8Bytes selector)
    (hshort : (utf8Bytes selector).length < 2 ^ 56) : images = images' ∧ selector = selector' := by
  obtain ⟨more, rfl, hmore⟩ := h
  cases more with
  | nil => exact ⟨(List.append_nil images).symm, utf8Bytes_injective hmore⟩
  | cons a more =>
    rw [List.flatMap_cons, measured] at hmore
    refine absurd ?_ hzero
    have hlength : a.length < 2 ^ 56 := by
      rw [hmore] at hshort
      simp only [List.length_append] at hshort
      omega
    rw [hmore]
    simp [zero_mem_littleEndian hlength]

theorem Swallows.eq_of_length (h : Swallows images images' selector selector')
    (hcount : images.length = images'.length) : images = images' ∧ selector = selector' := by
  obtain ⟨more, rfl, hmore⟩ := h
  obtain rfl : more = [] := by
    rw [List.length_append] at hcount
    exact List.length_eq_zero_iff.mp (by omega)
  exact ⟨(List.append_nil images).symm, utf8Bytes_injective hmore⟩

/-- Keys tell requests apart as far as their bytes go. Two requests are digested from the same bytes exactly if they
optimise alike and the selector of one begins with the images that only the other has. So requests of as many images
differ in their bytes if they differ at all, and so do requests whose selectors have no zero bytes. -/
theorem keyInput_separates (himages : ∀ a ∈ images, a.length < 2 ^ 64) (himages' : ∀ a ∈ images', a.length < 2 ^ 64) :
    (keyInput images selector optimize = keyInput images' selector' optimize' ↔
      optimize = optimize' ∧ (Swallows images images' selector selector' ∨
      Swallows images' images selector' selector)) ∧
    (images.length = images'.length ∨ (∀ s ∈ [selector, selector'], (0 : UInt8) ∉ utf8Bytes s ∧
    (utf8Bytes s).length < 2 ^ 56) →
      keyInput images selector optimize = keyInput images' selector' optimize' →
        images = images' ∧ selector = selector' ∧ optimize = optimize') := by
  refine ⟨keyInput_eq_iff himages himages', fun hplain h ↦ ?_⟩
  obtain ⟨hsame, hswallows⟩ := (keyInput_eq_iff himages himages').mp h
  have hboth : images = images' ∧ selector = selector' := by
    rcases hplain with hcount | hplain <;> rcases hswallows with hs | hs
    · exact hs.eq_of_length hcount
    · exact (hs.eq_of_length hcount.symm).imp Eq.symm Eq.symm
    · obtain ⟨hzero, hshort⟩ := hplain selector (by simp)
      exact hs.eq hzero hshort
    · obtain ⟨hzero, hshort⟩ := hplain selector' (by simp)
      exact (hs.eq hzero hshort).imp Eq.symm Eq.symm
  exact ⟨hboth.1, hboth.2, hsame⟩

end

/-- Moving the boundary between two images changes the bytes. -/
theorem keyInput_separates_moved : keyInput [[97, 98], [99]] "S" true ≠ keyInput [[97], [98, 99]] "S" true := fun h ↦ by
  obtain ⟨-, hplain⟩ := @keyInput_separates [[97, 98], [99]] [[97], [98, 99]] "S" "S" true true (by decide) (by decide)
  exact absurd (hplain (.inl rfl) h).1 (by decide)

/-- An empty image is a length of zero, and a selector can begin with it. -/
theorem selector_swallows_image :
    keyInput [] "\x00\x00\x00\x00\x00\x00\x00\x00S" true = keyInput [[]] "S" true ∧
      ([] : List Bytes) ≠ [[]] ∧ "\x00\x00\x00\x00\x00\x00\x00\x00S" ≠ "S" := by
  decide +kernel

end CilSsa.Pipeline

