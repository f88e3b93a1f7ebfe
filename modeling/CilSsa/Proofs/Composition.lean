import CilSsa.Text.Composed
import Mathlib.Data.List.Chain

namespace CilSsa.Text

def ascends : Nat → List Decomposition → Bool
  | _, [] => true
  | n, d :: ds => n.blt d.char && ascends d.char ds

def charBits (ds : List Decomposition) : Nat := ds.foldr (fun d n ↦ 1 <<< d.char ||| n) 0

def nested (ds : List Decomposition) : List Decomposition :=
  ds.filter fun d ↦ d.parts.any fun p ↦ (charBits ds).testBit p

/-- The ranges that a decomposition keeps to: no character is plain, a syllable or a part of one, no part is a syllable,
and what composes with what stands before it is a mark. -/
def Decomposition.InRange (d : Decomposition) : Prop :=
  0xC0 ≤ d.char ∧ d.char.isValidChar ∧ ¬ (0x1100 ≤ d.char ∧ d.char < 0x1200) ∧ isSyllable d.char = false ∧
    (∀ p ∈ d.parts, p.isValidChar) ∧ (d.composes = true → ∀ p ∈ d.parts.tail, 0x300 ≤ p)

def isCodePoint (n : Nat) : Bool := n.blt 0xD800 || Nat.blt 0xDFFF n && n.blt 0x110000

theorem isCodePoint_iff {n : Nat} : isCodePoint n = true ↔ n.isValidChar := by simp [isCodePoint, Nat.isValidChar]

def Decomposition.inRange (d : Decomposition) : Bool :=
  Nat.ble 0xC0 d.char && isCodePoint d.char && (d.char.blt 0x1100 || Nat.ble 0x1200 d.char) &&
    (d.char.blt 0xAC00 || Nat.blt 0xD7A3 d.char) && d.parts.all isCodePoint &&
    (!d.composes || d.parts.tail.all (Nat.ble 0x300))

theorem Decomposition.inRange_iff {d : Decomposition} : d.inRange = true ↔ d.InRange := by
  simp only [inRange, InRange, isSyllable, Bool.and_eq_true, Bool.or_eq_true, Bool.not_eq_true', List.all_eq_true,
    isCodePoint_iff, Nat.ble_eq, Nat.blt_eq, Bool.and_eq_false_imp, decide_eq_true_eq, decide_eq_false_iff_not]
  grind

theorem tables_hold : (ascends 0 decompositions && decompositions.all Decomposition.inRange &&
    (nested (nested (nested decompositions))).isEmpty && combiningRuns.all fun r ↦ Nat.ble 0x300 r.1) = true := by
  decide +kernel

theorem decompositions_ascend : ascends 0 decompositions = true := by
  have h := tables_hold
  simp only [Bool.and_eq_true] at h
  exact h.1.1.1

theorem decompositions_ranges : ∀ d ∈ decompositions, d.InRange := by
  have h := tables_hold
  simp only [Bool.and_eq_true, List.all_eq_true] at h
  exact fun d hd ↦ Decomposition.inRange_iff.mp (h.1.1.2 d hd)

theorem nested_thrice : nested (nested (nested decompositions)) = [] := by
  have h := tables_hold
  simp only [Bool.and_eq_true] at h
  exact List.isEmpty_iff.mp h.1.2

theorem combiningRuns_ranges : ∀ r ∈ combiningRuns, 0x300 ≤ r.1 := by
  have h := tables_hold
  simp only [Bool.and_eq_true, List.all_eq_true, Nat.ble_eq] at h
  exact h.2

theorem lt_of_ascends {n : Nat} {ds : List Decomposition} (h : ascends n ds = true) :
    (∀ d ∈ ds, n < d.char) ∧ ds.Pairwise fun d e ↦ d.char < e.char := by
  induction ds generalizing n with
  | nil => simp
  | cons d ds ih =>
    rw [ascends, Bool.and_eq_true, Nat.blt_eq] at h
    obtain ⟨hall, hpair⟩ := ih h.2
    refine ⟨?_, List.pairwise_cons.mpr ⟨hall, hpair⟩⟩
    intro e he
    rcases List.mem_cons.mp he with rfl | he
    · exact h.1
    · exact Nat.lt_trans h.1 (hall e he)

theorem decompositionOf_of_mem {d : Decomposition} (h : d ∈ decompositions) :
    decompositionOf[d.char]? = some d.parts := by
  unfold decompositionOf
  refine Std.HashMap.getElem?_ofList_of_mem (k := d.char) (by simp) ?_ (List.mem_map.mpr ⟨d, h, rfl⟩)
  rw [List.pairwise_map]
  refine (lt_of_ascends decompositions_ascend).2.imp ?_
  intro d e hlt
  simpa using Nat.ne_of_lt hlt

theorem decompositionOf_eq_none {c : Nat} (h : ∀ d ∈ decompositions, d.char ≠ c) : decompositionOf[c]? = none := by
  unfold decompositionOf
  apply Std.HashMap.getElem?_ofList_of_contains_eq_false
  rw [← Bool.not_eq_true, List.contains_iff_mem]
  intro hc
  obtain ⟨d, hd, rfl⟩ := List.mem_map.mp (List.map_map ▸ hc)
  exact h d hd rfl

theorem getElem?_insertMany_cases {α β : Type} [BEq α] [LawfulBEq α] [Hashable α] {k : α} {v : β}
    (l : List (α × β)) (m : Std.HashMap α β) (h : (m.insertMany l)[k]? = some v) : (k, v) ∈ l ∨ m[k]? = some v := by
  induction l generalizing m with
  | nil => exact .inr (by simpa using h)
  | cons e l ih =>
    obtain ⟨k', v'⟩ := e
    rw [Std.HashMap.insertMany_cons] at h
    rcases ih _ h with hl | hm
    · exact .inl (List.mem_cons_of_mem _ hl)
    · rw [Std.HashMap.getElem?_insert] at hm
      split at hm
      · rename_i hk
        cases hm
        exact .inl (by simp [eq_of_beq hk])
      · exact .inr hm

theorem mem_of_compositionOf {a b c : Nat} (h : compositionOf[(a, b)]? = some c) :
    ∃ d ∈ decompositions, d.composes = true ∧ d.parts = [a, b] ∧ d.char = c := by
  unfold compositionOf at h
  rw [Std.HashMap.ofList_eq_insertMany_empty] at h
  rcases getElem?_insertMany_cases _ _ h with hl | hm
  · obtain ⟨d, hd, he⟩ := List.mem_filterMap.mp hl
    refine ⟨d, hd, ?_⟩
    split at he
    · rename_i hc hp
      cases he
      exact ⟨hc, hp, rfl⟩
    · cases he
  · simp at hm

theorem combiningClass_plain {c : Nat} (h : c < 0x300) : combiningClass c = 0 := by
  unfold combiningClass combiningClasses
  apply Std.HashMap.getD_ofList_of_contains_eq_false
  rw [← Bool.not_eq_true, List.contains_iff_mem]
  intro hc
  obtain ⟨e, he, rfl⟩ := List.mem_map.mp hc
  obtain ⟨r, hr, he⟩ := List.mem_flatMap.mp he
  obtain ⟨i, -, rfl⟩ := List.mem_map.mp he
  have := combiningRuns_ranges r hr
  simp only at h
  omega

theorem testBit_charBits (ds : List Decomposition) (p : Nat) :
    (charBits ds).testBit p = true ↔ ∃ d ∈ ds, d.char = p := by
  induction ds with
  | nil => simp [charBits]
  | cons d ds ih =>
    have hc : charBits (d :: ds) = 1 <<< d.char ||| charBits ds := rfl
    rw [hc, Nat.testBit_or, Bool.or_eq_true, ih, Nat.one_shiftLeft, Nat.testBit_two_pow, decide_eq_true_iff]
    simp

def Simple (c : Nat) : Prop := ∀ n, decompose n c = [c]

theorem isSyllable_iff {c : Nat} : isSyllable c = true ↔ 0xAC00 ≤ c ∧ c ≤ 0xD7A3 := by simp [isSyllable]

theorem isSyllable_eq_false {c : Nat} (h : c < 0xAC00 ∨ 0xD7A3 < c) : isSyllable c = false := by
  rw [← Bool.not_eq_true, isSyllable_iff]
  omega

theorem simple_of_not_mem {c : Nat} (hs : isSyllable c = false) (h : ∀ d ∈ decompositions, d.char ≠ c) : Simple c := by
  intro n
  cases n with
  | zero => rfl
  | succ n => simp only [decompose, hs, decompositionOf_eq_none h, Bool.false_eq_true, if_false, Option.elim_none]

theorem simple_plain {c : Nat} (h : c < 0xC0) : Simple c := by
  refine simple_of_not_mem (isSyllable_eq_false (by omega)) ?_
  rintro d hd rfl
  have := (decompositions_ranges d hd).1
  omega

theorem simple_jamo {c : Nat} (h : 0x1100 ≤ c ∧ c < 0x1200) : Simple c := by
  refine simple_of_not_mem (isSyllable_eq_false (by omega)) ?_
  rintro d hd rfl
  exact (decompositions_ranges d hd).2.2.1 h

theorem decompose_syllable {c : Nat} (h : isSyllable c = true) (n : Nat) : decompose (n + 1) c = letters c := by
  simp only [decompose, h, if_true]

theorem mem_letters {c e : Nat} (h : isSyllable c = true) (he : e ∈ letters c) : 0x1100 ≤ e ∧ e < 0x1200 := by
  rw [isSyllable_iff] at h
  unfold letters at he
  dsimp only at he
  split at he <;> simp only [List.mem_cons, List.not_mem_nil, or_false] at he <;> omega

theorem decompose_of_mem {d : Decomposition} (h : d ∈ decompositions) (n : Nat) :
    decompose (n + 1) d.char = d.parts.flatMap (decompose n) := by
  simp only [decompose, (decompositions_ranges d h).2.2.2.1, decompositionOf_of_mem h, Bool.false_eq_true, if_false,
    Option.elim_some]

/-- What `n` levels of a code point's decomposition give does not change with more levels and is not taken apart. -/
def Settles (n c : Nat) : Prop :=
  (∀ k, n < k → decompose (k + 1) c = decompose k c) ∧ ∀ e ∈ decompose (n + 1) c, Simple e

theorem settles_zero {c : Nat} (h : ∀ d ∈ decompositions, d.char ≠ c) : Settles 0 c := by
  cases hs : isSyllable c with
  | true =>
    constructor
    · intro k hk
      obtain ⟨j, rfl⟩ := Nat.exists_eq_add_of_lt hk
      rw [decompose_syllable hs, decompose_syllable hs]
    · intro e he
      rw [decompose_syllable hs] at he
      exact simple_jamo (mem_letters hs he)
  | false =>
    have := simple_of_not_mem hs h
    refine ⟨fun k _ ↦ (this _).trans (this _).symm, ?_⟩
    intro e he
    rw [this, List.mem_singleton] at he
    exact he ▸ this

theorem Settles.succ {n c : Nat} (h : Settles n c) : Settles (n + 1) c := by
  refine ⟨fun k hk ↦ h.1 k (by omega), ?_⟩
  rw [h.1 (n + 1) (Nat.lt_succ_self n)]
  exact h.2

theorem settles_of_nested {ds : List Decomposition} {n c : Nat} (hds : ∀ d ∈ ds, d ∈ decompositions)
    (ih : ∀ c, (∀ d ∈ ds, d.char ≠ c) → Settles n c) (h : ∀ d ∈ nested ds, d.char ≠ c) : Settles (n + 1) c := by
  by_cases hc : ∀ d ∈ ds, d.char ≠ c
  · exact (ih c hc).succ
  · push Not at hc
    obtain ⟨d, hd, rfl⟩ := hc
    have hparts : ∀ p ∈ d.parts, Settles n p := by
      intro p hp
      apply ih
      intro e he hep
      refine h d ?_ rfl
      rw [nested, List.mem_filter, List.any_eq_true]
      exact ⟨hd, p, hp, (testBit_charBits ds p).mpr ⟨e, he, hep⟩⟩
    constructor
    · intro k hk
      obtain ⟨j, rfl⟩ : ∃ j, k = j + 1 := ⟨k - 1, by omega⟩
      rw [decompose_of_mem (hds d hd), decompose_of_mem (hds d hd)]
      apply List.flatMap_congr
      intro p hp
      exact (hparts p hp).1 j (by omega)
    · intro e he
      rw [decompose_of_mem (hds d hd)] at he
      obtain ⟨p, hp, he⟩ := List.mem_flatMap.mp he
      exact (hparts p hp).2 e he

theorem settles (c : Nat) : Settles 3 c := by
  have hsub : ∀ {ds : List Decomposition}, (∀ d ∈ ds, d ∈ decompositions) → ∀ d ∈ nested ds, d ∈ decompositions :=
    fun hds d hd ↦ hds d (List.mem_of_mem_filter hd)
  have h0 : ∀ d ∈ decompositions, d ∈ decompositions := fun _ h ↦ h
  have h1 := fun c ↦ settles_of_nested (c := c) h0 fun c hc ↦ settles_zero hc
  have h2 := fun c ↦ settles_of_nested (c := c) (hsub h0) h1
  have h3 := fun c ↦ settles_of_nested (c := c) (hsub (hsub h0)) h2
  apply h3
  rw [nested_thrice]
  simp

theorem decompose_simple {c e : Nat} (h : e ∈ decompose 8 c) : Simple e := by
  apply (settles c).2
  have hs := (settles c).1
  rwa [← hs 4 (by omega), ← hs 5 (by omega), ← hs 6 (by omega), ← hs 7 (by omega)]

theorem placeMark_comm {m c : Nat} (hm : combiningClass m ≠ 0) (hlt : combiningClass m < combiningClass c)
    (r : List Nat) : placeMark m (placeMark c r) = placeMark c (placeMark m r) := by
  induction r with
  | nil => simp [placeMark, hlt, hm, Nat.not_lt_of_gt hlt]
  | cons d ds ih => grind [placeMark]

theorem foldr_placeMark_move {ms : List Nat} {c : Nat}
    (h : ∀ m ∈ ms, combiningClass m ≠ 0 ∧ combiningClass m < combiningClass c) (r : List Nat) :
    (ms ++ [c]).foldr placeMark r = placeMark c (ms.foldr placeMark r) := by
  induction ms with
  | nil => rfl
  | cons m ms ih =>
    rw [List.cons_append, List.foldr_cons, ih fun x hx ↦ h x (List.mem_cons_of_mem _ hx), List.foldr_cons]
    obtain ⟨hm, hlt⟩ := h m List.mem_cons_self
    exact placeMark_comm hm hlt _

abbrev Ordered : List Nat → Prop := List.IsChain fun a b ↦ combiningClass b = 0 ∨ combiningClass a ≤ combiningClass b

theorem Ordered.placeMark {r : List Nat} (h : Ordered r) (c : Nat) : Ordered (placeMark c r) := by
  induction r with
  | nil => exact .singleton c
  | cons d ds ih =>
    unfold Text.placeMark
    split
    · rename_i hd
      refine List.isChain_cons.mpr ⟨?_, ih h.tail⟩
      intro e he
      cases ds with
      | nil =>
        obtain rfl : c = e := by simpa [Text.placeMark] using he
        exact .inr (Nat.le_of_lt hd.1)
      | cons d' ds =>
        unfold Text.placeMark at he
        split at he
        · exact (List.isChain_cons.mp h).1 e he
        · obtain rfl : c = e := by simpa using he
          exact .inr (Nat.le_of_lt hd.1)
    · rename_i hd
      refine .cons_cons ?_ h
      omega

theorem ordered_orderMarks (cs : List Nat) : Ordered (orderMarks cs) := by
  induction cs with
  | nil => exact .nil
  | cons c cs ih => exact ih.placeMark c

theorem Ordered.orderMarks_eq {cs : List Nat} (h : Ordered cs) : orderMarks cs = cs := by
  induction cs with
  | nil => rfl
  | cons c cs ih =>
    have hcs : orderMarks (c :: cs) = Text.placeMark c cs := congrArg (Text.placeMark c) (ih h.tail)
    rw [hcs]
    cases cs with
    | nil => rfl
    | cons d ds =>
      have := (List.isChain_cons_cons.mp h).1
      rw [Text.placeMark, if_neg (by omega)]

theorem mem_placeMark {c e : Nat} {r : List Nat} : e ∈ placeMark c r ↔ e = c ∨ e ∈ r := by
  induction r with
  | nil => simp [placeMark]
  | cons d ds ih =>
    unfold placeMark
    split
    · rw [List.mem_cons, ih, List.mem_cons]
      exact or_left_comm
    · exact List.mem_cons

theorem mem_orderMarks {e : Nat} {cs : List Nat} : e ∈ orderMarks cs ↔ e ∈ cs := by
  induction cs with
  | nil => rfl
  | cons c cs ih =>
    have hcs : orderMarks (c :: cs) = placeMark c (orderMarks cs) := rfl
    rw [hcs, mem_placeMark, ih, List.mem_cons]

theorem composePair_parts {a c ab : Nat} (h : composePair a c = some ab) (hc : Simple c) :
    decompose 8 ab = decompose 8 a ++ [c] := by
  unfold composePair at h
  split at h
  · rename_i hr
    rw [Option.some.injEq] at h
    subst h
    have hs : isSyllable (0xAC00 + ((a - 0x1100) * 21 + (c - 0x1161)) * 28) = true := isSyllable_iff.mpr (by omega)
    rw [decompose_syllable hs, simple_jamo (by omega) 8]
    simp only [letters]
    rw [if_pos (by omega)]
    simp only [List.cons_append, List.nil_append, List.cons.injEq, and_true]
    omega
  · split at h
    · rename_i hr
      rw [Option.some.injEq] at h
      subst h
      have hs : isSyllable (a + (c - 0x11A7)) = true := isSyllable_iff.mpr (by omega)
      rw [decompose_syllable hs, decompose_syllable (isSyllable_iff.mpr ⟨hr.1, hr.2.1⟩)]
      simp only [letters]
      rw [if_neg (by omega), if_pos hr.2.2.1]
      simp only [List.cons_append, List.nil_append, List.cons.injEq, and_true]
      omega
    · obtain ⟨d, hd, -, hparts, rfl⟩ := mem_of_compositionOf h
      rw [decompose_of_mem hd, hparts, (settles a).1 7 (by omega)]
      simp [hc 7]

theorem composePair_plain {a c : Nat} (h : c < 0xC0) : composePair a c = none := by
  unfold composePair
  rw [if_neg (by omega), if_neg (by omega)]
  cases hc : compositionOf[(a, c)]? with
  | none => rfl
  | some ab =>
    obtain ⟨d, hd, hcomp, hparts, -⟩ := mem_of_compositionOf hc
    have := (decompositions_ranges d hd).2.2.2.2.2 hcomp c (by simp [hparts])
    omega

theorem composePair_valid {a c ab : Nat} (h : composePair a c = some ab) : ab.isValidChar := by
  unfold composePair at h
  split at h
  · rw [Option.some.injEq] at h
    exact .inl (by omega)
  · split at h
    · rw [Option.some.injEq] at h
      exact .inl (by omega)
    · obtain ⟨d, hd, -, -, rfl⟩ := mem_of_compositionOf h
      exact (decompositions_ranges d hd).2.1

/-- One step of the scan keeps the next code point as it is, or takes it into the last starter if no mark between has
its class or a higher one. -/
theorem Composing.step_cases (s : Composing) (c : Nat) :
    ((s.step c).finish = s.finish ++ [c] ∧
      (s.step c).marks = if combiningClass c = 0 then [] else c :: s.marks) ∨
    ∃ a ab, s.starter = some a ∧ composePair a c = some ab ∧ s.step c = ⟨s.done, some ab, s.marks⟩ ∧
      ∀ m ∈ s.marks.head?, combiningClass m < combiningClass c := by
  obtain ⟨done, starter, marks⟩ := s
  cases starter with
  | none =>
    left
    by_cases hc : combiningClass c = 0 <;> simp [step, hc, finish]
  | some a =>
    have hkept : step ⟨done, some a, marks⟩ c =
        (if combiningClass c = 0 then ⟨finish ⟨done, some a, marks⟩, some c, []⟩ else ⟨done, some a, c :: marks⟩) →
        (step ⟨done, some a, marks⟩ c).finish = finish ⟨done, some a, marks⟩ ++ [c] ∧
          (step ⟨done, some a, marks⟩ c).marks = if combiningClass c = 0 then [] else c :: marks := by
      intro h
      rw [h]
      by_cases hc : combiningClass c = 0 <;> simp [hc, finish]
    by_cases hblocked : ∃ m ∈ marks.head?, combiningClass c ≤ combiningClass m
    · left
      obtain ⟨m, hm, hle⟩ := hblocked
      obtain ⟨ms, rfl⟩ := List.head?_eq_some_iff.mp hm
      apply hkept
      simp [step, hle]
    · push Not at hblocked
      have hopen : step ⟨done, some a, marks⟩ c = (composePair a c).elim
          (if combiningClass c = 0 then ⟨finish ⟨done, some a, marks⟩, some c, []⟩ else ⟨done, some a, c :: marks⟩)
          fun ab ↦ ⟨done, some ab, marks⟩ := by
        cases marks with
        | nil => cases h : composePair a c <;> simp [step, h]
        | cons m ms => cases h : composePair a c <;> simp [step, h, Nat.not_le_of_gt (hblocked m rfl)]
      cases hpair : composePair a c with
      | none =>
        rw [hpair] at hopen
        exact .inl (hkept hopen)
      | some ab =>
        rw [hpair] at hopen
        exact .inr ⟨a, ab, rfl, hpair, hopen, hblocked⟩

/-- The scan after the code points `p`, the last of class `k`: taken apart again, what it has so far has the order of
`p`, and its marks ascend from the oldest. -/
structure Composing.After (p : List Nat) (k : Nat) (s : Composing) : Prop where
  alike : ∀ r, (s.finish.flatMap (decompose 8)).foldr placeMark r = p.foldr placeMark r
  simple : ∀ m ∈ s.marks, Simple m ∧ combiningClass m ≠ 0 ∧ combiningClass m ≤ k
  ascend : s.marks.Pairwise fun m m' ↦ combiningClass m' ≤ combiningClass m

theorem Composing.After.step {p : List Nat} {k c : Nat} {s : Composing} (h : s.After p k) (hc : Simple c)
    (hk : combiningClass c = 0 ∨ k ≤ combiningClass c) : (s.step c).After (p ++ [c]) (combiningClass c) := by
  obtain ⟨hfinish, hmarks⟩ | ⟨a, ab, hstarter, hpair, hstep, hhead⟩ := s.step_cases c
  · refine ⟨?_, ?_, ?_⟩
    · intro r
      rw [hfinish, List.flatMap_append, List.foldr_append, h.alike, List.foldr_append]
      simp [hc 8]
    · rw [hmarks]
      split
      · simp
      · rename_i hne
        intro m hm
        rcases List.mem_cons.mp hm with rfl | hm
        · exact ⟨hc, hne, Nat.le_refl _⟩
        · obtain ⟨h1, h2, h3⟩ := h.simple m hm
          exact ⟨h1, h2, by omega⟩
    · rw [hmarks]
      split
      · exact .nil
      · refine List.pairwise_cons.mpr ⟨?_, h.ascend⟩
        intro m hm
        have := (h.simple m hm).2.2
        omega
  · have hlower : ∀ m ∈ s.marks, combiningClass m ≠ 0 ∧ combiningClass m < combiningClass c := by
      intro m hm
      refine ⟨(h.simple m hm).2.1, ?_⟩
      obtain ⟨m', ms, hms⟩ := List.exists_cons_of_ne_nil (List.ne_nil_of_mem hm)
      have hhead' := hhead m' (by simp [hms])
      have hasc := h.ascend
      rw [hms, List.pairwise_cons] at hasc
      rw [hms, List.mem_cons] at hm
      rcases hm with rfl | hm
      · exact hhead'
      · exact Nat.lt_of_le_of_lt (hasc.1 m hm) hhead'
    rw [hstep]
    refine ⟨?_, ?_, h.ascend⟩
    · intro r
      -- the marks between the starter and `c` are simple, so `c` may come before them
      have hmarks : s.marks.reverse.flatMap (decompose 8) = s.marks.reverse := by
        rw [List.flatMap_congr (g := fun m ↦ [m]) fun m hm ↦ (h.simple m (List.mem_reverse.mp hm)).1 8]
        simp
      have hmove := foldr_placeMark_move (fun m hm ↦ hlower m (List.mem_reverse.mp hm)) r
      have halike := h.alike (placeMark c r)
      simp only [finish, hstarter, Option.toList_some, List.flatMap_append, List.flatMap_cons, List.flatMap_nil,
        List.append_nil, hmarks, List.foldr_append, List.foldr_cons, List.foldr_nil] at halike hmove ⊢
      rw [composePair_parts hpair hc, List.foldr_append, List.foldr_cons, List.foldr_nil, ← hmove, halike]
    · intro m hm
      obtain ⟨h1, h2, -⟩ := h.simple m hm
      exact ⟨h1, h2, Nat.le_of_lt (hlower m hm).2⟩

theorem Composing.After.foldl {y p : List Nat} {k : Nat} {s : Composing} (h : s.After p k) (hy : ∀ e ∈ y, Simple e)
    (hord : Ordered y) (hk : ∀ c ∈ y.head?, combiningClass c = 0 ∨ k ≤ combiningClass c) :
    ∃ k', (y.foldl Composing.step s).After (p ++ y) k' := by
  induction y generalizing p k s with
  | nil => exact ⟨k, by simpa using h⟩
  | cons c y ih =>
    have hstep := h.step (hy c List.mem_cons_self) (hk c rfl)
    obtain ⟨k', hk'⟩ := ih hstep (fun e he ↦ hy e (List.mem_cons_of_mem _ he)) hord.tail (List.isChain_cons.mp hord).1
    exact ⟨k', by simpa using hk'⟩

def normal (cs : List Nat) : List Nat :=
  ((orderMarks (cs.flatMap (decompose 8))).foldl Composing.step ⟨[], none, []⟩).finish

/-- Composing loses nothing: taken apart and ordered again, the composed form is what it was made of. -/
theorem orderMarks_normal (cs : List Nat) :
    orderMarks ((normal cs).flatMap (decompose 8)) = orderMarks (cs.flatMap (decompose 8)) := by
  have hsimple : ∀ e ∈ orderMarks (cs.flatMap (decompose 8)), Simple e := by
    intro e he
    obtain ⟨c, -, hc⟩ := List.mem_flatMap.mp (mem_orderMarks.mp he)
    exact decompose_simple hc
  have hstart : Composing.After [] 0 ⟨[], none, []⟩ := ⟨fun _ ↦ rfl, by simp, .nil⟩
  obtain ⟨k, hk⟩ := hstart.foldl hsimple (ordered_orderMarks _) (by simp)
  exact (hk.alike []).trans (ordered_orderMarks _).orderMarks_eq

theorem normal_normal (cs : List Nat) : normal (normal cs) = normal cs := by
  rw [normal, orderMarks_normal, normal]

theorem decompose_valid {c : Nat} (n : Nat) (hc : c.isValidChar) : ∀ e ∈ decompose n c, e.isValidChar := by
  induction n generalizing c with
  | zero => simpa [decompose] using hc
  | succ n ih =>
    intro e he
    cases hs : isSyllable c with
    | true =>
      rw [decompose_syllable hs] at he
      have := mem_letters hs he
      exact .inl (by omega)
    | false =>
      by_cases hd : ∀ d ∈ decompositions, d.char ≠ c
      · rw [simple_of_not_mem hs hd, List.mem_singleton] at he
        exact he ▸ hc
      · push Not at hd
        obtain ⟨d, hd, rfl⟩ := hd
        rw [decompose_of_mem hd] at he
        obtain ⟨p, hp, he⟩ := List.mem_flatMap.mp he
        exact ih ((decompositions_ranges d hd).2.2.2.2.1 p hp) e he

theorem Composing.step_valid {s : Composing} {c : Nat} (h : ∀ e ∈ s.finish, e.isValidChar) (hc : c.isValidChar) :
    ∀ e ∈ (s.step c).finish, e.isValidChar := by
  intro e he
  obtain ⟨hfinish, -⟩ | ⟨a, ab, hstarter, hpair, hstep, -⟩ := s.step_cases c
  · rw [hfinish, List.mem_append, List.mem_singleton] at he
    rcases he with he | rfl
    · exact h e he
    · exact hc
  · rw [hstep] at he
    simp only [finish, Option.toList_some, List.append_assoc, List.singleton_append, List.mem_append,
    List.mem_cons] at he h
    rcases he with he | rfl | he
    · exact h e (.inl he)
    · exact composePair_valid hpair
    · exact h e (.inr (.inr he))

theorem normal_valid {cs : List Nat} (h : ∀ c ∈ cs, c.isValidChar) : ∀ e ∈ normal cs, e.isValidChar := by
  have key : ∀ (y : List Nat) (s : Composing), (∀ e ∈ y, e.isValidChar) → (∀ e ∈ s.finish, e.isValidChar) →
      ∀ e ∈ (y.foldl Composing.step s).finish, e.isValidChar := by
    intro y
    induction y with
    | nil => exact fun s _ hs ↦ hs
    | cons c y ih =>
      intro s hy hs
      exact ih _ (fun e he ↦ hy e (List.mem_cons_of_mem _ he)) (Composing.step_valid hs (hy c List.mem_cons_self))
  refine key _ _ ?_ (by simp [Composing.finish])
  intro e he
  obtain ⟨c, hc, he⟩ := List.mem_flatMap.mp (mem_orderMarks.mp he)
  exact decompose_valid 8 (h c hc) e he

theorem placeMark_append {c : Nat} (hc : combiningClass c = 0) (m : Nat) (r : List Nat) :
    placeMark m (r ++ [c]) = placeMark m r ++ [c] := by
  induction r with
  | nil => simp [placeMark, hc]
  | cons d ds ih =>
    simp only [List.cons_append, placeMark, ih]
    split <;> rfl

theorem normal_append_plain (cs : List Nat) {c : Nat} (h : c < 0xC0) : normal (cs ++ [c]) = normal cs ++ [c] := by
  have hclass : combiningClass c = 0 := combiningClass_plain (by omega)
  have hord : ∀ z : List Nat, orderMarks (z ++ [c]) = orderMarks z ++ [c] := by
    intro z
    induction z with
    | nil => rfl
    | cons d z ih =>
      have hcons : ∀ z, orderMarks (d :: z) = placeMark d (orderMarks z) := fun _ ↦ rfl
      rw [List.cons_append, hcons, ih, placeMark_append hclass, ← hcons]
  unfold normal
  rw [List.flatMap_append, List.flatMap_cons, List.flatMap_nil, simple_plain h, List.append_nil, hord,
    List.foldl_append]
  obtain ⟨hfinish, -⟩ | ⟨a, ab, -, hpair, -, -⟩ :=
    ((orderMarks (cs.flatMap (decompose 8))).foldl Composing.step ⟨[], none, []⟩).step_cases c
  · exact hfinish
  · rw [composePair_plain h] at hpair
    cases hpair

theorem composed_eq (s : String) : composed s =
    if s.toList.all (·.toNat < 0x300) then s
    else String.ofList ((normal (s.toList.map Char.toNat)).map Char.ofNat) := by
  rw [composed, normal, List.flatMap_map]

theorem toNat_ofNat_of_valid {n : Nat} (h : n.isValidChar) : (Char.ofNat n).toNat = n := by
  rw [Char.ofNat, dif_pos h]
  rfl

theorem toNat_normal (s : String) :
    ((normal (s.toList.map Char.toNat)).map Char.ofNat).map Char.toNat = normal (s.toList.map Char.toNat) := by
  rw [List.map_map]
  conv_rhs => rw [← List.map_id (normal (s.toList.map Char.toNat))]
  apply List.map_congr_left
  intro n hn
  apply toNat_ofNat_of_valid
  refine normal_valid ?_ n hn
  intro c hc
  obtain ⟨x, -, rfl⟩ := List.mem_map.mp hc
  exact x.valid

theorem composed_composed (s : String) : composed (composed s) = composed s := by
  rw [composed_eq s]
  split
  · rename_i hs
    rw [composed_eq, if_pos hs]
  · rw [composed_eq]
    split
    · rfl
    · rw [String.toList_ofList, toNat_normal, normal_normal]

theorem composed_append_plain (s t : String) (h : ∀ c ∈ t.toList, c.toNat < 0xC0) :
    composed (s ++ t) = composed s ++ t := by
  have htail : ∀ (ts : List Char) (cs : List Nat), (∀ c ∈ ts, c.toNat < 0xC0) →
      normal (cs ++ ts.map Char.toNat) = normal cs ++ ts.map Char.toNat := by
    intro ts
    induction ts with
    | nil => simp
    | cons c ts ih =>
      intro cs hts
      rw [List.map_cons, List.append_cons, ih _ fun e he ↦ hts e (List.mem_cons_of_mem _ he),
        normal_append_plain cs (hts c List.mem_cons_self), ← List.append_cons]
  have hall : (s ++ t).toList.all (·.toNat < 0x300) = s.toList.all (·.toNat < 0x300) := by
    rw [String.toList_append, List.all_append]
    have : t.toList.all (·.toNat < 0x300) = true := List.all_eq_true.mpr fun c hc ↦ by
      have := h c hc
      exact decide_eq_true (by omega)
    rw [this, Bool.and_true]
  rw [composed_eq, composed_eq, hall]
  split
  · rfl
  · rw [String.toList_append, List.map_append, htail _ _ h, List.map_append, String.ofList_append, List.map_map]
    congr 1
    conv_rhs => rw [← String.ofList_toList (s := t)]
    congr 1
    conv_rhs => rw [← List.map_id t.toList]
    exact List.map_congr_left fun c _ ↦ Char.ofNat_toNat c

end CilSsa.Text

