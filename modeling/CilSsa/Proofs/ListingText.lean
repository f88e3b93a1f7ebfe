import CilSsa.Bytecode.Source
import CilSsa.Metadata.Token
import CilSsa.Number.Literal
import CilSsa.Proofs.BlockDiscovery
import CilSsa.Proofs.Decoding
import Mathlib.Algebra.Order.Ring.Int
import Mathlib.Data.List.Nodup

namespace CilSsa.Number

open CilSsa.Metadata CilSsa.Text

section numerals

variable {base max n : Nat} {f : Char → Char}

theorem readDigits_append (u : Bool) (xs ys : List Char) :
    readDigits base u max n (xs ++ ys) = (readDigits base u max n xs).bind fun n ↦ readDigits base u max n ys := by
  induction xs generalizing n with
  | nil => rfl
  | cons c xs ih =>
    rw [List.cons_append, readDigits, readDigits]
    split
    · exact ih
    · cases digitValue? c with
      | none => rfl
      | some d =>
        dsimp only
        split
        · rfl
        · split
          · rfl
          · exact ih

/-- Digits are read as the number that they were written for, in whatever spelling each digit has. -/
theorem readDigits_toDigits (hb : 1 < base)
    (hf : ∀ d < base, digitValue? (f d.digitChar) = some d ∧ f d.digitChar ≠ '_') (u : Bool) (hn : n ≤ max) :
    readDigits base u max 0 ((base.toDigits n).map f) = .ok n := by
  have hone : ∀ k d, d < base → k * base + d ≤ max →
      readDigits base u max k [f d.digitChar] = .ok (k * base + d) := by
    intro k d hd hle
    obtain ⟨hv, hne⟩ := hf d hd
    rw [readDigits, if_neg (fun h ↦ hne h.1), hv]
    dsimp only
    rw [if_neg (by omega), if_neg (by omega)]
    rfl
  induction n using Nat.strongRecOn with
  | ind n ih =>
    rw [Nat.toDigits_eq_if hb]
    split
    · rename_i hlt
      have h := hone 0 n hlt (by omega)
      rwa [Nat.zero_mul, Nat.zero_add] at h
    · rename_i hge
      have hdiv : n / base < n := Nat.div_lt_self (by omega) hb
      have hsum : n / base * base + n % base = n := by rw [Nat.mul_comm]; exact Nat.div_add_mod n base
      rw [List.map_append, readDigits_append, ih _ hdiv (by omega)]
      exact (hone _ _ (Nat.mod_lt n (by omega)) (by omega)).trans (congrArg _ hsum)

theorem decimal_digit : ∀ d < 10, digitValue? (id d.digitChar) = some d ∧ id d.digitChar ≠ '_' := by decide

theorem upper_digit : ∀ d < 16, digitValue? d.digitChar.toUpper = some d ∧ d.digitChar.toUpper ≠ '_' := by decide

theorem mem_toDigits (hb : 1 < base) {c : Char} (hc : c ∈ base.toDigits n) : ∃ d < base, c = d.digitChar := by
  induction n using Nat.strongRecOn with
  | ind n ih =>
    rw [Nat.toDigits_eq_if hb] at hc
    split at hc
    · rename_i hlt
      exact ⟨n, hlt, List.mem_singleton.mp hc⟩
    · rcases List.mem_append.mp hc with hc | hc
      · exact ih _ (Nat.div_lt_self (by omega) hb) hc
      · exact ⟨n % base, Nat.mod_lt n (by omega), List.mem_singleton.mp hc⟩

theorem head_toDigits (hn : n ≠ 0) : ∃ d cs, d ≠ 0 ∧ d < 10 ∧ Nat.toDigits 10 n = d.digitChar :: cs := by
  induction n using Nat.strongRecOn with
  | ind n ih =>
    rw [Nat.toDigits_eq_if (by decide)]
    split
    · rename_i hlt
      exact ⟨n, [], hn, hlt, rfl⟩
    · rename_i hge
      obtain ⟨d, cs, hd, hlt, heq⟩ := ih (n / 10) (by omega) (by omega)
      exact ⟨d, cs ++ [(n % 10).digitChar], hd, hlt, by rw [heq, List.cons_append]⟩

theorem natLiteral_toDigits {bits : Nat} (hn : n < 2 ^ bits) : natLiteral bits (Nat.toDigits 10 n) = .ok n := by
  have hnone : (Nat.toDigits 10 n).contains '_' = false := by
    rw [Bool.eq_false_iff, ne_eq, List.contains_iff_mem]
    intro hmem
    obtain ⟨d, hd, heq⟩ := mem_toDigits (by decide) hmem
    exact (decimal_digit d hd).2 heq.symm
  have hread := readDigits_toDigits (f := id) (by decide) decimal_digit true
    (show n ≤ Nat.pow 2 bits - 1 from Nat.le_sub_one_of_lt hn)
  rw [List.map_id] at hread
  rw [natLiteral, if_neg Nat.toDigits_ne_nil, hnone]
  by_cases h0 : n = 0
  · subst h0
    rfl
  · obtain ⟨d, cs, hd, hlt, heq⟩ := head_toDigits h0
    have hbase : literalBase (Nat.toDigits 10 n) = (10, Nat.toDigits 10 n) := by
      have hne : d.digitChar ≠ '0' := (show ∀ d < 10, d ≠ 0 → d.digitChar ≠ '0' by decide) d hlt hd
      rw [heq]
      unfold literalBase
      split <;> simp_all
    rw [hbase]
    dsimp only
    rw [hread]
    rfl

theorem toList_toString (n : Nat) : (toString n).toList = Nat.toDigits 10 n := by
  change (String.ofList (Nat.toDigits 10 n)).toList = _
  exact String.toList_ofList

theorem toList_toString_int (v : Int) :
    (toString v).toList = if v < 0 then '-' :: Nat.toDigits 10 v.natAbs else Nat.toDigits 10 v.natAbs := by
  cases v with
  | ofNat n => exact toList_toString n
  | negSucc n =>
    change ("-" ++ toString (n + 1)).toList = _
    rw [String.toList_append, toList_toString, if_pos (Int.negSucc_lt_zero n)]
    rfl

theorem parseUnsigned_toString {bits : Nat} (hn : n < 2 ^ bits) : parseUnsigned bits (toString (n : Int)) = .ok n := by
  change parseUnsigned bits (toString n) = .ok n
  rw [parseUnsigned, toList_toString, natLiteral_toDigits hn]
  rfl

theorem splitSign_toDigits (n : Nat) : splitSign (Nat.toDigits 10 n) = (false, Nat.toDigits 10 n) := by
  have hfirst : ∀ c ∈ Nat.toDigits 10 n, c ≠ '+' ∧ c ≠ '-' := by
    intro c hc
    obtain ⟨d, hd, rfl⟩ := mem_toDigits (by decide) hc
    exact (show ∀ d < 10, d.digitChar ≠ '+' ∧ d.digitChar ≠ '-' by decide) d hd
  unfold splitSign
  split <;> simp_all

theorem parseDecimal?_toDigits (hn : n < 2 ^ 63) : parseDecimal? (String.ofList (Nat.toDigits 10 n)) =
    some (n : Int) := by
  have hread := readDigits_toDigits (f := id) (by decide) decimal_digit false (show n ≤ 18446744073709551615 by omega)
  rw [List.map_id] at hread
  rw [parseDecimal?, parseInBase?, String.toList_ofList, splitSign_toDigits]
  dsimp only
  rw [if_neg Nat.toDigits_ne_nil, hread]
  simp only [signedRange, Nat.pow_eq, Bool.false_eq_true, if_false]
  rw [if_neg (by omega)]

theorem parseSigned_toString {bits : Nat} {v : Int} (hb : 0 < bits) (hlo : -2 ^ (bits - 1) ≤ v)
    (hhi : v < 2 ^ (bits - 1)) : parseSigned bits (toString v) = .ok v := by
  have hpow : (2 : Nat) ^ (bits - 1) + 2 ^ (bits - 1) = 2 ^ bits := by
    rw [← Nat.two_mul, ← Nat.pow_succ', Nat.succ_eq_add_one, Nat.sub_add_cancel hb]
  have hcast : ((2 ^ (bits - 1) : Nat) : Int) = 2 ^ (bits - 1) := by norm_cast
  have hpos : 0 < 2 ^ (bits - 1) := Nat.two_pow_pos _
  have hnat : natLiteral bits (Nat.toDigits 10 v.natAbs) = .ok v.natAbs := natLiteral_toDigits (by omega)
  rw [parseSigned, toList_toString_int]
  by_cases hneg : v < 0
  · have hsign : splitSign ('-' :: Nat.toDigits 10 v.natAbs) = (true, Nat.toDigits 10 v.natAbs) := rfl
    rw [if_pos hneg, hsign]
    dsimp only
    rw [hnat]
    simp only [signedRange, Nat.pow_eq, if_true]
    rw [if_neg (by omega), show (-(v.natAbs : Int)) = v by omega]
    rfl
  · rw [if_neg hneg, splitSign_toDigits]
    dsimp only
    rw [hnat]
    simp only [signedRange, Nat.pow_eq, Bool.false_eq_true, if_false]
    rw [if_neg (by omega), show (v.natAbs : Int) = v by omega]
    rfl

theorem lower_digit : ∀ d < 16, digitValue? (id d.digitChar) = some d ∧ id d.digitChar ≠ '_' := by decide

theorem toList_padLeft (width : Nat) (cs : List Char) :
    (padLeft width '0' (String.ofList cs)).toList = List.replicate (width - cs.length) '0' ++ cs := by
  rw [padLeft, String.toList_append, String.toList_ofList, String.toList_ofList, String.length_ofList]

theorem readDigits_zeros {base max : Nat} (u : Bool) (hb : 0 < base) (k : Nat) (cs : List Char) :
    readDigits base u max 0 (List.replicate k '0' ++ cs) = readDigits base u max 0 cs := by
  induction k with
  | zero => rfl
  | succ k ih =>
    rw [List.replicate_succ, List.cons_append, readDigits, if_neg fun h ↦ absurd h.1 (by decide)]
    have hd : digitValue? '0' = some 0 := by decide
    simp [hd, hb.ne', ih]

theorem toList_tokenText (t : Token) : t.text.toList = ['0', 'x'] ++
    (List.replicate (8 - (Nat.toDigits 16 t.raw.toNat).length) '0' ++
      (Nat.toDigits 16 t.raw.toNat).map Char.toUpper) := by
  rw [Token.text, hexPaddedUpper, String.toList_append, toList_padLeft, List.length_map]
  rfl

theorem parseUnsigned_tokenText (t : Token) : parseUnsigned 32 t.text = .ok t.raw.toNat := by
  have hraw := t.raw.toNat_lt
  have hread := readDigits_toDigits (f := Char.toUpper) (by decide) upper_digit true
    (show t.raw.toNat ≤ Nat.pow 2 32 - 1 from Nat.le_sub_one_of_lt hraw)
  have hnone : t.text.toList.contains '_' = false := by
    rw [Bool.eq_false_iff, ne_eq, List.contains_iff_mem, toList_tokenText]
    intro hmem
    rcases List.mem_append.mp hmem with hmem | hmem
    · revert hmem
      decide
    · rcases List.mem_append.mp hmem with hmem | hmem
      · exact absurd (List.mem_replicate.mp hmem).2 (by decide)
      · obtain ⟨x, hx, heq⟩ := List.mem_map.mp hmem
        obtain ⟨d, hd, rfl⟩ := mem_toDigits (by decide) hx
        exact (upper_digit d hd).2 heq
  rw [parseUnsigned, natLiteral, if_neg (by simp [toList_tokenText]), hnone]
  have hbase : ∀ cs : List Char, cs ≠ [] → literalBase (['0', 'x'] ++ cs) = (16, cs) := by
    intro cs hcs
    obtain ⟨c, cs, rfl⟩ := List.exists_cons_of_ne_nil hcs
    rfl
  rw [toList_tokenText, hbase _ (by simp [Nat.toDigits_ne_nil])]
  dsimp only
  rw [readDigits_zeros true (by decide), hread]
  rfl

end numerals

end CilSsa.Number

namespace CilSsa.Bytecode

open CilSsa.Metadata CilSsa.Number CilSsa.Text

section lines

/-- Visible characters other than those that end a label or start a comment. -/
def isWordChar (c : Char) : Bool := '!' ≤ c && c ≤ '~' && c != ':' && c != '/'

def Word (cs : List Char) : Prop := cs ≠ [] ∧ ∀ c ∈ cs, isWordChar c = true

variable {c : Char} {a b cs : List Char}

theorem word_of_all (hne : cs ≠ []) (h : cs.all isWordChar = true) : Word cs := ⟨hne, List.all_eq_true.mp h⟩

theorem isBlank_wordChar (h : isWordChar c = true) : isBlank c = false := by
  simp only [isWordChar, Bool.and_eq_true, decide_eq_true_eq, bne_iff_ne, Char.le_def, UInt32.le_iff_toNat_le] at h
  obtain ⟨⟨⟨hlo, hhi⟩, -⟩, -⟩ := h
  change 33 ≤ c.toNat at hlo
  change c.toNat ≤ 126 at hhi
  simp only [isBlank, Bool.or_eq_false_iff, Bool.and_eq_false_imp, decide_eq_true_eq, decide_eq_false_iff_not,
    beq_eq_false_iff_ne]
  omega

theorem Word.notMem (h : Word cs) (hc : isWordChar c = false) : c ∉ cs := by
  intro hmem
  rw [h.2 c hmem] at hc
  cases hc

theorem Word.append (ha : Word a) (hb : ∀ c ∈ b, isWordChar c = true) : Word (a ++ b) := by
  refine ⟨List.append_ne_nil_of_left_ne_nil ha.1 b, fun c hc ↦ ?_⟩
  exact (List.mem_append.mp hc).elim (ha.2 c) (hb c)

theorem cutChars_none (h : c ∉ a) : cutChars [c] a = none := by
  induction a with
  | nil => rfl
  | cons x a ih =>
    rw [List.mem_cons, not_or] at h
    have hx : [c].isPrefixOf (x :: a) = false := by rw [List.isPrefixOf_cons_cons, beq_false_of_ne h.1, Bool.false_and]
    rw [cutChars, hx, ih h.2]
    rfl

theorem cutChars_some (h : c ∉ a) (b : List Char) : cutChars [c] (a ++ c :: b) = some (a, b) := by
  induction a with
  | nil => simp [cutChars]
  | cons x a ih =>
    rw [List.mem_cons, not_or] at h
    have hx : [c].isPrefixOf (x :: (a ++ c :: b)) = false :=
      by rw [List.isPrefixOf_cons_cons, beq_false_of_ne h.1, Bool.false_and]
    rw [List.cons_append, cutChars, hx, ih h.2]
    rfl

theorem cutChars_comment (h : '/' ∉ a) : cutChars "//".toList a = none := by
  change cutChars ['/', '/'] a = none
  induction a with
  | nil => rfl
  | cons x a ih =>
    rw [List.mem_cons, not_or] at h
    have hx : ['/', '/'].isPrefixOf (x :: a) = false :=
      by rw [List.isPrefixOf_cons_cons, beq_false_of_ne h.1, Bool.false_and]
    rw [cutChars, hx, ih h.2]
    rfl

theorem dropWhile_head (h : ∀ c ∈ cs.head?, isBlank c = false) : cs.dropWhile isBlank = cs := by
  cases cs with
  | nil => rfl
  | cons x cs => rw [List.dropWhile_cons, if_neg (by simp [h x rfl])]

theorem trimChars_eq (h : ∀ c ∈ cs.head?, isBlank c = false) (h' : ∀ c ∈ cs.getLast?, isBlank c = false) :
    trimChars cs = cs := by
  rw [trimChars, trimLeftChars, trimLeftChars, dropWhile_head h, dropWhile_head (by rwa [List.head?_reverse]),
    List.reverse_reverse]

theorem Word.trimChars (h : Word cs) : Text.trimChars cs = cs :=
  trimChars_eq (fun c hc ↦ isBlank_wordChar (h.2 c (List.mem_of_mem_head? hc)))
    fun c hc ↦ isBlank_wordChar (h.2 c (List.mem_of_mem_getLast? hc))

/-- A word, or two with a blank between them. -/
inductive Phrase : List Char → Prop
  | one {a : List Char} : Word a → Phrase a
  | two {a b : List Char} : Word a → Word b → Phrase (a ++ ' ' :: b)

namespace Phrase

theorem mem (h : Phrase cs) (hc : c ∈ cs) : isWordChar c = true ∨ c = ' ' := by
  cases h with
  | one h => exact .inl (h.2 c hc)
  | two ha hb =>
    rcases List.mem_append.mp hc with hc | hc
    · exact .inl (ha.2 c hc)
    · rcases List.mem_cons.mp hc with hc | hc
      · exact .inr hc
      · exact .inl (hb.2 c hc)

theorem ne_nil (h : Phrase cs) : cs ≠ [] := by
  cases h with
  | one h => exact h.1
  | two ha _ => exact List.append_ne_nil_of_left_ne_nil ha.1 _

theorem head (h : Phrase cs) (hc : c ∈ cs.head?) : isBlank c = false := by
  cases h with
  | one h => exact isBlank_wordChar (h.2 c (List.mem_of_mem_head? hc))
  | two ha _ =>
    rw [List.head?_append_of_ne_nil _ ha.1] at hc
    exact isBlank_wordChar (ha.2 c (List.mem_of_mem_head? hc))

theorem last (h : Phrase cs) (hc : c ∈ cs.getLast?) : isBlank c = false := by
  cases h with
  | one h => exact isBlank_wordChar (h.2 c (List.mem_of_mem_getLast? hc))
  | two _ hb =>
    rw [List.getLast?_append_cons, List.getLast?_cons_of_ne_nil hb.1] at hc
    exact isBlank_wordChar (hb.2 c (List.mem_of_mem_getLast? hc))

end Phrase

variable {l text : List Char}

theorem Word.trim_ofList (hw : Word l) : Text.trim (String.ofList l) = String.ofList l := by
  rw [Text.trim, String.toList_ofList, hw.trimChars]

theorem splitLabels_line (hw : Word l) (hl : isLabel (String.ofList l) = true) (ht : Phrase text) :
    splitLabels (stripComment (chomp (l ++ ':' :: ' ' :: text))) = ([String.ofList l], text) := by
  have hmem : ∀ c ∈ l ++ ':' :: ' ' :: text, isWordChar c = true ∨ c = ':' ∨ c = ' ' := by
    intro c hc
    rcases List.mem_append.mp hc with hc | hc
    · exact .inl (hw.2 c hc)
    · rcases List.mem_cons.mp hc with hc | hc
      · exact .inr (.inl hc)
      · rcases List.mem_cons.mp hc with hc | hc
        · exact .inr (.inr hc)
        · exact (ht.mem hc).imp_right .inr
  have hlast : ∀ c ∈ (l ++ ':' :: ' ' :: text).getLast?, isBlank c = false := by
    intro c hc
    rw [List.getLast?_append_cons, List.getLast?_cons_of_ne_nil (List.cons_ne_nil _ _),
      List.getLast?_cons_of_ne_nil ht.ne_nil] at hc
    exact ht.last hc
  have hchomp : chomp (l ++ ':' :: ' ' :: text) = l ++ ':' :: ' ' :: text := by
    unfold chomp
    split
    · rename_i rest hr
      have hcr : '\r' ∈ (l ++ ':' :: ' ' :: text).getLast? := by
        rw [← List.head?_reverse, hr]
        rfl
      exact absurd (hlast _ hcr) (by decide)
    · rfl
  have hstrip : stripComment (l ++ ':' :: ' ' :: text) = l ++ ':' :: ' ' :: text := by
    have hslash : '/' ∉ l ++ ':' :: ' ' :: text := fun h ↦ absurd (hmem _ h) (by decide)
    rw [stripComment, cutChars_comment hslash]
    refine trimChars_eq (fun c hc ↦ ?_) hlast
    rw [List.head?_append_of_ne_nil _ hw.1] at hc
    exact isBlank_wordChar (hw.2 c (List.mem_of_mem_head? hc))
  have hcolon : ':' ∉ text := fun h ↦ absurd (ht.mem h) (by decide)
  have htrim : trimChars (' ' :: text) = text := by
    calc trimChars (' ' :: text) = trimChars text := by
          rw [trimChars, trimLeftChars, trimLeftChars, List.dropWhile_cons, if_pos (by decide)]
          rfl
      _ = text := trimChars_eq (fun c ↦ ht.head) fun c ↦ ht.last
  have hrest : splitLabels text = ([], text) := by
    rw [splitLabels]
    split
    · rfl
    · rename_i h
      rw [cutChars_none hcolon] at h
      cases h
  rw [hchomp, hstrip, splitLabels]
  split
  · rename_i h
    rw [cutChars_some (hw.notMem (by decide))] at h
    cases h
  · rename_i name rest h
    rw [cutChars_some (hw.notMem (by decide))] at h
    cases h
    rw [if_pos hl, htrim, hrest, hw.trim_ofList]

/-- Lines that hold no line end are found again when they are written one after the other. -/
theorem rawLines_join {lines : List (List Char)} (h : ∀ line ∈ lines, '\n' ∉ line) :
    rawLines (String.ofList (lines.flatMap (· ++ ['\n']))) = lines := by
  have hflat : lines.flatMap (· ++ ['\n']) = ['\n'].intercalate (lines ++ [[]]) := by
    clear h
    induction lines with
    | nil => rfl
    | cons line lines ih =>
      rw [List.flatMap_cons, ih]
      cases lines with
      | nil => simp [List.intercalate]
      | cons line' lines => simp [List.intercalate]
  have hnone : ∀ line ∈ lines ++ [[]], '\n' ∉ line := by
    intro line hline
    rcases List.mem_append.mp hline with hline | hline
    · exact h line hline
    · obtain rfl := List.mem_singleton.mp hline
      exact List.not_mem_nil
  have hsplit : (String.ofList (lines.flatMap (· ++ ['\n']))).toList.splitOn '\n' = lines ++ [[]] := by
    rw [String.toList_ofList, hflat, List.splitOn_intercalate _ hnone (by simp)]
  rw [rawLines, hsplit, List.reverse_append]
  exact List.reverse_reverse lines

end lines

section words

variable {n : Nat}

theorem word_toDigits : Word (Nat.toDigits 10 n) := by
  refine ⟨Nat.toDigits_ne_nil, fun c hc ↦ ?_⟩
  obtain ⟨d, hd, rfl⟩ := mem_toDigits (by decide) hc
  exact (show ∀ d < 10, isWordChar d.digitChar = true by decide) d hd

theorem word_toString (v : Int) : Word (toString v).toList := by
  rw [toList_toString_int]
  split
  · exact ⟨List.cons_ne_nil _ _, List.forall_mem_cons.mpr ⟨by decide, word_toDigits.2⟩⟩
  · exact word_toDigits

theorem toList_offsetLabel (n : Nat) : (offsetLabel n).toList = ['I', 'L', '_'] ++
    (List.replicate (4 - (Nat.toDigits 16 n).length) '0' ++ Nat.toDigits 16 n) := by
  rw [offsetLabel, hexPaddedInt, if_neg (by omega), String.toList_append, hexPadded, hexDigits, toList_padLeft]
  rfl

theorem mem_hexadecimal {width : Nat} {c : Char} (hc : c ∈ List.replicate width '0' ++ Nat.toDigits 16 n) :
    ∃ d < 16, c = d.digitChar := by
  rcases List.mem_append.mp hc with hc | hc
  · exact ⟨0, by decide, (List.mem_replicate.mp hc).2⟩
  · exact mem_toDigits (by decide) hc

theorem offsetLabel_inj {m n : Nat} (h : offsetLabel m = offsetLabel n) : m = n := by
  have hread : ∀ k ≤ max m n, readDigits 16 false (max m n) 0 ((offsetLabel k).toList.drop 3) = .ok k := by
    intro k hk
    have hdigits := readDigits_toDigits (f := id) (by decide) lower_digit false hk
    rw [List.map_id] at hdigits
    rw [toList_offsetLabel, List.drop_left' (show ['I', 'L', '_'].length = 3 from rfl),
      readDigits_zeros false (by decide), hdigits]
  have hm := hread m (Nat.le_max_left m n)
  rw [h, hread n (Nat.le_max_right m n)] at hm
  exact (Except.ok.inj hm).symm

theorem word_offsetLabel (n : Nat) : Word (offsetLabel n).toList := by
  rw [toList_offsetLabel]
  refine Word.append (word_of_all (by simp) (by decide)) fun c hc ↦ ?_
  obtain ⟨d, hd, rfl⟩ := mem_hexadecimal hc
  exact (show ∀ d < 16, isWordChar d.digitChar = true by decide) d hd

theorem isLabel_offsetLabel (n : Nat) : isLabel (offsetLabel n) = true := by
  rw [isLabel, (word_offsetLabel n).trimChars, toList_offsetLabel]
  have hall : (List.replicate (4 - (Nat.toDigits 16 n).length) '0' ++ Nat.toDigits 16 n).all isLabelPart = true := by
    refine List.all_eq_true.mpr fun c hc ↦ ?_
    obtain ⟨d, hd, rfl⟩ := mem_hexadecimal hc
    exact (show ∀ d < 16, isLabelPart d.digitChar = true by decide) d hd
  simp only [List.cons_append, List.nil_append, List.all_cons, hall]
  decide

theorem length_offsetLabel (hn : n < 2 ^ 64) : (offsetLabel n).toList.length ≤ 20 := by
  have hlen := (Nat.length_toDigits_le_iff (b := 16) (n := n) (k := 16) (by decide) (by decide)).mpr (by omega)
  rw [toList_offsetLabel]
  simp only [List.length_append, List.length_replicate, List.length_cons, List.length_nil]
  omega

theorem word_tokenText (t : Token) : Word t.text.toList := by
  rw [toList_tokenText]
  refine Word.append (word_of_all (by simp) (by decide)) fun c hc ↦ ?_
  rcases List.mem_append.mp hc with hc | hc
  · rw [(List.mem_replicate.mp hc).2]
    decide
  · obtain ⟨x, hx, rfl⟩ := List.mem_map.mp hc
    obtain ⟨d, hd, rfl⟩ := mem_toDigits (by decide) hx
    exact (show ∀ d < 16, isWordChar d.digitChar.toUpper = true by decide) d hd

theorem length_tokenText (t : Token) : t.text.toList.length ≤ 10 := by
  have hraw := t.raw.toNat_lt
  have hlen := (Nat.length_toDigits_le_iff (b := 16) (n := t.raw.toNat) (k := 8) (by decide) (by decide)).mpr (by omega)
  rw [toList_tokenText]
  simp only [List.length_append, List.length_replicate, List.length_cons, List.length_nil, List.length_map]
  omega

end words

section instructions

def distinct : List Nat → Bool
  | [] => true
  | n :: ns => ns.all (fun k ↦ !n.beq k) && distinct ns

theorem nodup_of_distinct {ns : List Nat} (h : distinct ns = true) : ns.Nodup := by
  induction ns with
  | nil => exact .nil
  | cons n ns ih =>
    rw [distinct, Bool.and_eq_true] at h
    refine List.nodup_cons.mpr ⟨fun hmem ↦ ?_, ih h.2⟩
    simpa using List.all_eq_true.mp h.1 n hmem

theorem nodup_mnemonics : (Opcode.all.map fun op ↦
    op.mnemonic.toByteArray.data.toList.foldl (fun n b ↦ n * 256 + b.toNat) 0).Nodup :=
  nodup_of_distinct (by decide +kernel)

theorem ofMnemonic_mnemonic {op : Opcode} (h : op ∈ Opcode.all) : Opcode.ofMnemonic? op.mnemonic = some op := by
  cases hfind : Opcode.ofMnemonic? op.mnemonic with
  | none =>
    have hne := List.find?_eq_none.mp hfind op h
    simp at hne
  | some op' =>
    have heq : op'.mnemonic = op.mnemonic := by simpa using List.find?_some hfind
    have hmem := List.mem_of_find?_eq_some hfind
    rw [List.inj_on_of_nodup_map nodup_mnemonics hmem h (by rw [heq])]

def singleBytes (s : String) : List Char := s.toByteArray.data.toList.map fun b ↦ Char.ofNat b.toNat

theorem mnemonic_word : ∀ op ∈ Opcode.all, op.mnemonic.toList ≠ [] ∧ op.mnemonic.toList.length ≤ 20 ∧
    op.mnemonic.toList.all (fun c ↦ isWordChar c && toLowerChar c == c) = true := by
  have h : ∀ op ∈ Opcode.all, String.ofList (singleBytes op.mnemonic) = op.mnemonic ∧ singleBytes op.mnemonic ≠ [] ∧
      (singleBytes op.mnemonic).length ≤ 20 ∧
      (singleBytes op.mnemonic).all (fun c ↦ isWordChar c && toLowerChar c == c) = true := by
    decide +kernel
  intro op hop
  obtain ⟨hof, hword⟩ := h op hop
  rw [← hof, String.toList_ofList]
  exact hword

variable {op : Opcode}

theorem word_mnemonic (h : op ∈ Opcode.all) : Word op.mnemonic.toList := by
  obtain ⟨hne, -, hall⟩ := mnemonic_word op h
  refine ⟨hne, fun c hc ↦ ?_⟩
  have hc' := List.all_eq_true.mp hall c hc
  rw [Bool.and_eq_true] at hc'
  exact hc'.1

theorem toLower_mnemonic (h : op ∈ Opcode.all) : toLower op.mnemonic = op.mnemonic := by
  obtain ⟨-, -, hall⟩ := mnemonic_word op h
  have hmap : op.mnemonic.toList.map toLowerChar = op.mnemonic.toList := by
    refine (List.map_congr_left fun c hc ↦ ?_).trans (List.map_id _)
    have hc' := List.all_eq_true.mp hall c hc
    rw [Bool.and_eq_true, beq_iff_eq] at hc'
    exact hc'.2
  rw [toLower, hmap, String.ofList_toList]

end instructions

end CilSsa.Bytecode

