import CilSsa.Proofs.ImageMembers
import CilSsa.Proofs.ListingText

/-! The suffixes of a text are peeled off from the right, and a list of arguments is split at the commas outside
brackets only. -/

namespace CilSsa.Image

open CilSsa.Metadata CilSsa.Text CilSsa.Number CilSsa.Bytecode

/-- A character that stands for itself in a name, such as a letter, a digit, an underscore or a dot. -/
def isNameChar (c : Char) : Bool :=
  !isBlank c && !(['<', '>', ',', '&', '*', '!', '[', ']', Char.ofNat 96]).contains c

/-- A name that a text can refer to as it is. -/
structure Plain (name : String) : Prop where
  ne_nil : name.toList ≠ []
  chars : ∀ c ∈ name.toList, isNameChar c = true
  fresh : builtin? name = none

/-- The types whose texts are read back: built-in types, parameters that machine integers number, and the definitions of
the image, each with as many arguments as it takes, under references and pointers. -/
inductive Printable (sc : Scope) : Ty → Prop
  | void : Printable sc .void
  | prim (p : Prim) : Printable sc (.prim p)
  | param {i : Nat} : i < 2 ^ 63 → Printable sc (.param i)
  | byref {t : Ty} : Printable sc t → Printable sc (.byref t)
  | pointer {t : Ty} : Printable sc t → Printable sc (.pointer t)
  | defined {d : TypeDef} : d ∈ sc.defs → d.arity = 0 → Printable sc (.defined d)
  | inst {d : TypeDef} {args : List Ty} : d ∈ sc.defs → d.arity ≠ 0 → args.length = d.arity →
      (∀ a ∈ args, Printable sc a) → Printable sc (.inst (.defined d) args)

section splitting

variable {a b : List Char}

def Whole (a : List Char) : Prop :=
  ∀ depth current rest, splitArgs depth current (a ++ rest) = splitArgs depth (a.reverse ++ current) rest

def Inside (a : List Char) : Prop :=
  ∀ depth current rest, splitArgs (depth + 1) current (a ++ rest) = splitArgs (depth + 1) (a.reverse ++ current) rest

theorem Whole.inside (h : Whole a) : Inside a := fun depth ↦ h (depth + 1)

theorem Whole.append (ha : Whole a) (hb : Whole b) : Whole (a ++ b) := by
  intro depth current rest
  rw [List.append_assoc, ha, hb, List.reverse_append, List.append_assoc]

theorem Inside.append (ha : Inside a) (hb : Inside b) : Inside (a ++ b) := by
  intro depth current rest
  rw [List.append_assoc, ha, hb, List.reverse_append, List.append_assoc]

theorem splitArgs_open (depth : Nat) (current cs : List Char) :
    splitArgs depth current ('<' :: cs) = splitArgs (depth + 1) ('<' :: current) cs := by
  cases depth <;> rfl

theorem splitArgs_char {c : Char} (h : c ≠ '<' ∧ c ≠ '>') {depth : Nat} (hcomma : c = ',' → depth ≠ 0)
    (current cs : List Char) : splitArgs depth current (c :: cs) = splitArgs depth (c :: current) cs := by
  rw [splitArgs.eq_def]
  dsimp only
  rw [if_neg h.1, if_neg h.2, if_neg fun hc ↦ hcomma hc.1 hc.2]

theorem whole_of_forall (h : ∀ c ∈ a, c ≠ '<' ∧ c ≠ '>' ∧ c ≠ ',') : Whole a := by
  induction a with
  | nil => exact fun _ _ _ ↦ rfl
  | cons c a ih =>
    obtain ⟨⟨hopen, hclose, hcomma⟩, ha⟩ := List.forall_mem_cons.mp h
    intro depth current rest
    rw [List.cons_append, splitArgs_char ⟨hopen, hclose⟩ (fun h ↦ absurd h hcomma), ih ha, List.reverse_cons,
      List.append_assoc, List.singleton_append]

theorem inside_comma : Inside [','] := by
  intro depth current rest
  exact splitArgs_char (by decide) (fun _ ↦ Nat.succ_ne_zero depth) current rest

theorem Inside.bracketed (h : Inside a) : Whole ('<' :: a ++ ['>']) := by
  intro depth current rest
  rw [List.append_assoc, List.cons_append, splitArgs_open, h, List.singleton_append, splitArgs,
    if_neg (by decide), if_pos rfl]
  simp

variable {parts : List (List Char)}

theorem inside_intercalate (h : ∀ a ∈ parts, Whole a) : Inside ([','].intercalate parts) := by
  induction parts with
  | nil => exact fun _ _ _ ↦ rfl
  | cons a parts ih =>
    obtain ⟨ha, hparts⟩ := List.forall_mem_cons.mp h
    cases parts with
    | nil =>
      rw [List.intercalate_singleton]
      exact ha.inside
    | cons b parts =>
      rw [List.intercalate_cons_cons]
      exact (ha.inside.append inside_comma).append (ih hparts)

theorem splitArgs_intercalate (hne : parts ≠ []) (h : ∀ a ∈ parts, Whole a) :
    splitArgs 0 [] ([','].intercalate parts) = some parts := by
  induction parts with
  | nil => exact absurd rfl hne
  | cons a parts ih =>
    obtain ⟨ha, hparts⟩ := List.forall_mem_cons.mp h
    cases parts with
    | nil =>
      have hsplit := ha 0 [] []
      rw [List.append_nil] at hsplit
      rw [List.intercalate_singleton, hsplit, splitArgs, if_pos rfl, List.append_nil, List.reverse_reverse]
    | cons b parts =>
      rw [List.intercalate_cons_cons, List.append_assoc, ha, List.singleton_append, splitArgs, if_neg (by decide),
        if_neg (by decide), if_pos ⟨rfl, rfl⟩, ih (by simp) hparts, Option.map_some, List.append_nil,
        List.reverse_reverse]

end splitting

section texts

variable {sc : Scope} {d : TypeDef} {t : Ty} {cs : List Char}

/-- A text without white space at its ends. -/
structure Tidy (cs : List Char) : Prop where
  ne_nil : cs ≠ []
  head : ∀ c ∈ cs.head?, isBlank c = false
  last : ∀ c ∈ cs.getLast?, isBlank c = false

theorem Tidy.trimChars (h : Tidy cs) : Text.trimChars cs = cs := trimChars_eq h.head h.last

theorem Tidy.append {more : List Char} (h : Tidy cs) (hmore : Tidy more) : Tidy (cs ++ more) := by
  refine ⟨List.append_ne_nil_of_left_ne_nil h.ne_nil more, ?_, ?_⟩
  · rw [List.head?_append_of_ne_nil _ h.ne_nil]
    exact h.head
  · rw [List.getLast?_append_of_ne_nil _ hmore.ne_nil]
    exact hmore.last

theorem tidy_of_forall (hne : cs ≠ []) (h : ∀ c ∈ cs, isBlank c = false) : Tidy cs :=
  ⟨hne, fun c hc ↦ h c (List.mem_of_mem_head? hc), fun c hc ↦ h c (List.mem_of_mem_getLast? hc)⟩

theorem tidy_singleton {c : Char} (h : isBlank c = false) : Tidy [c] :=
  tidy_of_forall (List.cons_ne_nil c []) (List.forall_mem_singleton.mpr h)

theorem isNameChar_iff {c : Char} : isNameChar c = true ↔ isBlank c = false ∧ c ≠ '<' ∧ c ≠ '>' ∧ c ≠ ',' ∧
    c ≠ '&' ∧ c ≠ '*' ∧ c ≠ '!' ∧ c ≠ '[' ∧ c ≠ ']' ∧ c ≠ Char.ofNat 96 := by
  simp [isNameChar]

theorem digit_char {c : Char} {n : Nat} (hc : c ∈ Nat.toDigits 10 n) : isNameChar c = true := by
  obtain ⟨k, hk, rfl⟩ := mem_toDigits (by decide) hc
  exact (show ∀ k < 10, isNameChar k.digitChar = true by decide) k hk

/-- The names of built-in types consist of such characters too, some of them with a blank inside. -/
theorem builtin?_text {name : String} (h : builtin? name = some t) :
    Tidy name.toList ∧ ∀ c ∈ name.toList, c = ' ' ∨ isNameChar c = true := by
  have hall : (builtinNames.all fun p ↦ (p.1.toList.all fun c ↦ c == ' ' || isNameChar c) &&
      p.1.toList.head?.any (!isBlank ·) && p.1.toList.getLast?.any (!isBlank ·)) = true := by decide
  obtain ⟨_, _, hlist, -⟩ := List.lookup_eq_some_iff.mp h
  have hname := List.all_eq_true.mp hall (name, t) (by rw [hlist]; simp)
  simp only [Bool.and_eq_true, List.all_eq_true, Bool.or_eq_true, beq_iff_eq, Option.any_eq_true,
    Bool.not_eq_true'] at hname
  obtain ⟨⟨hchars, first, hfirst, hhead⟩, last, hlast, hend⟩ := hname
  refine ⟨⟨?_, ?_, ?_⟩, hchars⟩
  · rintro hnil
    rw [hnil] at hfirst
    cases hfirst
  · intro c hc
    obtain rfl : first = c := Option.some.inj (hfirst.symm.trans hc)
    exact hhead
  · intro c hc
    obtain rfl : last = c := Option.some.inj (hlast.symm.trans hc)
    exact hend

theorem builtin?_prim (p : Prim) : builtin? p.text = some (.prim p) := by
  cases p <;> rfl

theorem builtin?_void : builtin? Ty.void.text = some .void := rfl

theorem texts_eq_map (as : List Ty) : Ty.texts as = as.map Ty.text := by
  induction as with
  | nil => rfl
  | cons a as ih => rw [Ty.texts, ih, List.map_cons]

theorem toList_text_inst {args : List Ty} (hne : args ≠ []) : (Ty.inst (.defined d) args).text.toList =
    d.fullName.toList ++ Char.ofNat 96 :: Nat.toDigits 10 args.length ++
      ('<' :: [','].intercalate (args.map (·.text.toList)) ++ ['>']) := by
  have htext : (Ty.inst (.defined d) args).text = Ty.withArgs d.fullName (Ty.texts args) := by
    rw [Ty.text, Ty.kind]
    cases d.kind <;> rfl
  cases args with
  | nil => exact absurd rfl hne
  | cons a as =>
    have hargs : Ty.withArgs d.fullName ((a :: as).map Ty.text) = d.fullName ++ (Char.ofNat 96).toString ++
        toString ((a :: as).map Ty.text).length ++ "<" ++ ",".intercalate ((a :: as).map Ty.text) ++ ">" := rfl
    rw [htext, texts_eq_map, hargs]
    simp only [String.toList_append, String.toList_intercalate, toList_toString, List.length_map, List.map_map]
    simp [Function.comp_def]

theorem toList_text_param (i : Nat) : (Ty.param i).text.toList = '!' :: Nat.toDigits 10 i := by
  rw [Ty.text, String.toList_append, toList_toString]
  rfl

theorem text_defined (h : d.arity = 0) : (Ty.defined d).text = d.fullName := by
  rw [Ty.text, h]
  rfl

theorem Plain.tidy {name : String} (h : Plain name) : Tidy name.toList :=
  tidy_of_forall h.ne_nil fun c hc ↦ (isNameChar_iff.mp (h.chars c hc)).1

theorem whole_of_nameChars (h : ∀ c ∈ cs, c = ' ' ∨ isNameChar c = true) : Whole cs := by
  refine whole_of_forall fun c hc ↦ ?_
  rcases h c hc with rfl | hc
  · decide
  · obtain ⟨-, hopen, hclose, hcomma, -⟩ := isNameChar_iff.mp hc
    exact ⟨hopen, hclose, hcomma⟩

theorem whole_singleton {c : Char} (h : c ≠ '<' ∧ c ≠ '>' ∧ c ≠ ',') : Whole [c] :=
  whole_of_forall (List.forall_mem_singleton.mpr h)

theorem whole_arity (n : Nat) : Whole (Char.ofNat 96 :: Nat.toDigits 10 n) :=
  (whole_singleton (by decide)).append (whole_of_nameChars fun _ hc ↦ .inr (digit_char hc))

theorem tidy_arity (n : Nat) : Tidy (Char.ofNat 96 :: Nat.toDigits 10 n) :=
  tidy_of_forall (List.cons_ne_nil _ _)
    (List.forall_mem_cons.mpr ⟨by decide, fun _ hc ↦ (isNameChar_iff.mp (digit_char hc)).1⟩)

theorem tidy_bracketed (cs : List Char) : Tidy ('<' :: cs ++ ['>']) := by
  refine ⟨by simp, ?_, ?_⟩
  · rintro c ⟨⟩
    decide
  · rw [List.getLast?_append_of_ne_nil _ (by simp)]
    rintro c ⟨⟩
    decide

section printed

variable (hnames : ∀ d ∈ sc.defs, Plain d.fullName)
include hnames

theorem Printable.whole (h : Printable sc t) : Whole t.text.toList := by
  induction h with
  | void => exact whole_of_nameChars (builtin?_text builtin?_void).2
  | prim p => exact whole_of_nameChars (builtin?_text (builtin?_prim p)).2
  | @param i _ =>
    rw [toList_text_param]
    exact (whole_singleton (by decide)).append (whole_of_nameChars fun _ hc ↦ .inr (digit_char hc))
  | byref _ ih =>
    rw [Ty.text, String.toList_append]
    exact ih.append (whole_singleton (by decide))
  | pointer _ ih =>
    rw [Ty.text, String.toList_append]
    exact ih.append (whole_singleton (by decide))
  | defined hd harity =>
    rw [text_defined harity]
    exact whole_of_nameChars fun c hc ↦ .inr ((hnames _ hd).chars c hc)
  | inst hd harity hlength _ ih =>
    rw [toList_text_inst (List.ne_nil_of_length_pos (by omega))]
    refine ((whole_of_nameChars fun c hc ↦ .inr ((hnames _ hd).chars c hc)).append (whole_arity _)).append
      (inside_intercalate ?_).bracketed
    intro a ha
    obtain ⟨arg, harg, rfl⟩ := List.mem_map.mp ha
    exact ih arg harg

theorem Printable.tidy (h : Printable sc t) : Tidy t.text.toList := by
  induction h with
  | void => exact (builtin?_text builtin?_void).1
  | prim p => exact (builtin?_text (builtin?_prim p)).1
  | @param i _ =>
    rw [toList_text_param]
    refine tidy_of_forall (List.cons_ne_nil _ _) (List.forall_mem_cons.mpr ⟨by decide, fun c hc ↦ ?_⟩)
    exact (isNameChar_iff.mp (digit_char hc)).1
  | byref _ ih =>
    rw [Ty.text, String.toList_append]
    exact ih.append (tidy_singleton (by decide))
  | pointer _ ih =>
    rw [Ty.text, String.toList_append]
    exact ih.append (tidy_singleton (by decide))
  | defined hd harity =>
    rw [text_defined harity]
    exact (hnames _ hd).tidy
  | inst hd harity hlength _ ih =>
    rw [toList_text_inst (List.ne_nil_of_length_pos (by omega))]
    exact ((hnames _ hd).tidy.append (tidy_arity _)).append (tidy_bracketed _)

end printed

section parsing

variable {fuel : Nat}

theorem parseChars_byref (h : Tidy cs) : sc.parseChars (fuel + 1) (cs ++ ['&']) =
    (sc.parseChars fuel cs).map .byref := by
  rw [Scope.parseChars, (h.append (tidy_singleton (by decide))).trimChars, List.reverse_append, List.reverse_singleton,
    List.singleton_append]
  change (sc.parseChars fuel cs.reverse.reverse >>= fun e ↦ pure (Ty.byref e)) = _
  rw [List.reverse_reverse]
  cases sc.parseChars fuel cs <;> rfl

theorem parseChars_pointer (h : Tidy cs) : sc.parseChars (fuel + 1) (cs ++ ['*']) =
    (sc.parseChars fuel cs).map .pointer := by
  rw [Scope.parseChars, (h.append (tidy_singleton (by decide))).trimChars, List.reverse_append, List.reverse_singleton,
    List.singleton_append]
  change (sc.parseChars fuel cs.reverse.reverse >>= fun e ↦ pure (Ty.pointer e)) = _
  rw [List.reverse_reverse]
  cases sc.parseChars fuel cs <;> rfl

variable {last : Char} {rest : List Char}

theorem parseChars_builtin (h : Tidy cs) (hrev : cs.reverse = last :: rest) (hlast : last ≠ '&' ∧ last ≠ '*')
    (hb : builtin? (String.ofList cs) = some t) : sc.parseChars (fuel + 1) cs = .ok t := by
  unfold Scope.parseChars
  dsimp only
  rw [h.trimChars, hrev]
  split
  · contradiction
  · simp_all
  · simp_all
  · rw [hb]
    rfl

theorem builtin?_none {c : Char} (hc : c ∈ cs) (h : ¬ (c = ' ' ∨ isNameChar c = true)) :
    builtin? (String.ofList cs) = none := by
  rw [Option.eq_none_iff_forall_ne_some]
  intro t ht
  exact h ((builtin?_text ht).2 c (by rwa [String.toList_ofList]))

theorem parseChars_param {i : Nat} (hi : i < 2 ^ 63) : sc.parseChars (fuel + 1) ('!' :: Nat.toDigits 10 i) =
    .ok (.param i) := by
  have htidy : Tidy ('!' :: Nat.toDigits 10 i) := by
    refine tidy_of_forall (List.cons_ne_nil _ _) (List.forall_mem_cons.mpr ⟨by decide, fun c hc ↦ ?_⟩)
    exact (isNameChar_iff.mp (digit_char hc)).1
  have hnone : builtin? (String.ofList ('!' :: Nat.toDigits 10 i)) = none :=
    builtin?_none List.mem_cons_self (by decide)
  obtain ⟨digits, last, hsplit⟩ := List.eq_nil_or_concat _ |>.resolve_left (Nat.toDigits_ne_nil (n := i) (b := 10))
  have hlast : isNameChar last = true := digit_char (n := i) (by rw [hsplit]; simp)
  obtain ⟨-, -, -, -, hamp, hstar, -⟩ := isNameChar_iff.mp hlast
  have hrev : ('!' :: Nat.toDigits 10 i).reverse = last :: (digits.reverse ++ ['!']) := by
    rw [hsplit]
    simp
  unfold Scope.parseChars
  dsimp only
  rw [htidy.trimChars, hrev]
  split
  · contradiction
  · simp_all
  · simp_all
  · rw [hnone]
    split
    · contradiction
    · rename_i digits heq
      rw [← (List.cons.inj heq).2, parseDecimal?_toDigits hi]
      rfl
    · rename_i hhead
      exact absurd rfl (hhead _)

/-- A definition is found by its full name, with or without the mark of its arity. -/
theorem named_fullName (hnodup : (sc.defs.map TypeDef.fullName).Nodup) (hd : d ∈ sc.defs) (hplain : Plain d.fullName)
    {mark : List Char} (hmark : ∀ c ∈ mark.head?, c = Char.ofNat 96) :
    sc.named (d.fullName.toList ++ mark) = .ok d := by
  have hname : (d.fullName.toList ++ mark).takeWhile (· ≠ Char.ofNat 96) = d.fullName.toList := by
    rw [List.takeWhile_append_of_pos]
    · cases mark with
      | nil => rw [List.takeWhile_nil, List.append_nil]
      | cons c mark => rw [hmark c rfl, List.takeWhile_cons, if_neg (by simp), List.append_nil]
    · intro c hc
      simpa using (isNameChar_iff.mp (hplain.chars c hc)).2.2.2.2.2.2.2.2.2
  have hfind : sc.defs.find? (fun e ↦ e.fullName == d.fullName) = some d := by
    obtain ⟨before, after, hsplit⟩ := List.append_of_mem hd
    rw [hsplit, List.map_append, List.map_cons, List.nodup_append] at hnodup
    rw [hsplit, List.find?_append, List.find?_cons_of_pos (by simp), List.find?_eq_none.mpr, Option.none_or]
    intro e he heq
    exact hnodup.2.2 _ (List.mem_map_of_mem he) _ List.mem_cons_self (eq_of_beq heq)
  obtain ⟨first, rest, hcons⟩ := List.exists_cons_of_ne_nil hplain.ne_nil
  have hfirst : first ≠ '[' :=
    (isNameChar_iff.mp (hplain.chars first (hcons ▸ List.mem_cons_self))).2.2.2.2.2.2.2.1
  unfold Scope.named
  dsimp only
  rw [hname]
  split
  · rename_i heq
    rw [hcons] at heq
    exact absurd (List.cons.inj heq).1 hfirst
  · rw [String.ofList_toList, hfind]

theorem parseChars_defined (hnodup : (sc.defs.map TypeDef.fullName).Nodup) (hd : d ∈ sc.defs)
    (hplain : Plain d.fullName) : sc.parseChars (fuel + 1) d.fullName.toList = .ok (.defined d) := by
  have hnamed := named_fullName hnodup hd hplain (show ∀ c ∈ ([] : List Char).head?, c = Char.ofNat 96 by simp)
  obtain ⟨front, last, hsplit⟩ := List.eq_nil_or_concat _ |>.resolve_left hplain.ne_nil
  obtain ⟨-, -, hclose, -, hamp, hstar, -⟩ := isNameChar_iff.mp (hplain.chars last (by rw [hsplit]; simp))
  obtain ⟨first, rest, hcons⟩ := List.exists_cons_of_ne_nil hplain.ne_nil
  have hfirst := (isNameChar_iff.mp (hplain.chars first (hcons ▸ List.mem_cons_self))).2.2.2.2.2.2.1
  unfold Scope.parseChars
  dsimp only
  rw [hplain.tidy.trimChars, show d.fullName.toList.reverse = last :: front.reverse by rw [hsplit]; simp]
  split
  · contradiction
  · simp_all
  · simp_all
  · rename_i heq
    cases heq
    rw [String.ofList_toList, hplain.fresh]
    split
    · contradiction
    · rename_i heq
      exact absurd (List.cons.inj (hcons.symm.trans heq)).1 hfirst
    · rw [if_pos hclose, ← List.append_nil d.fullName.toList, hnamed]
      rfl

theorem parseChars_inst {parts : List (List Char)} {args : List Ty} {arity : Nat}
    (hnodup : (sc.defs.map TypeDef.fullName).Nodup) (hd : d ∈ sc.defs) (hplain : Plain d.fullName)
    (harity : d.arity ≠ 0) (hne : parts ≠ []) (hwhole : ∀ a ∈ parts, Whole a) (hlength : args.length = d.arity)
    (hargs : parts.mapM (sc.parseChars fuel) = .ok args) :
    sc.parseChars (fuel + 1) (d.fullName.toList ++ Char.ofNat 96 :: Nat.toDigits 10 arity ++
      ('<' :: [','].intercalate parts ++ ['>'])) = .ok (.inst (.defined d) args) := by
  obtain ⟨name, hname⟩ : ∃ name, name = d.fullName.toList ++ Char.ofNat 96 :: Nat.toDigits 10 arity := ⟨_, rfl⟩
  obtain ⟨inner, hinner⟩ : ∃ inner, inner = [','].intercalate parts := ⟨_, rfl⟩
  have htidy := (hplain.tidy.append (tidy_arity arity)).append (tidy_bracketed inner)
  rw [← hname] at htidy
  rw [← hname, ← hinner]
  have hnamed : sc.named name = .ok d := hname ▸ named_fullName hnodup hd hplain (by simp)
  have hnone : builtin? (String.ofList (name ++ ('<' :: inner ++ ['>']))) = none :=
    builtin?_none (c := '<') (by simp) (by decide)
  have hcut : cutChars ['<'] (name ++ ('<' :: inner ++ ['>'])) = some (name, inner ++ ['>']) := by
    refine cutChars_some ?_ (inner ++ ['>'])
    rw [hname, List.mem_append, List.mem_cons, not_or, not_or]
    refine ⟨fun h ↦ (isNameChar_iff.mp (hplain.chars _ h)).2.1 rfl, by decide, fun h ↦ ?_⟩
    exact (isNameChar_iff.mp (digit_char h)).2.1 rfl
  have hrev : (name ++ ('<' :: inner ++ ['>'])).reverse = '>' :: (name ++ '<' :: inner).reverse := by simp
  have hsplit : splitArgs 0 [] ((inner ++ ['>']).take ((name ++ '<' :: inner).reverse.length - name.length - 1)) =
      some parts := by
    have hlen : (name ++ '<' :: inner).reverse.length - name.length - 1 = inner.length := by
      rw [List.length_reverse, List.length_append, List.length_cons]
      omega
    rw [hlen, List.take_left, hinner]
    exact splitArgs_intercalate hne hwhole
  obtain ⟨first, rest, hcons⟩ := List.exists_cons_of_ne_nil hplain.ne_nil
  have hfirst := (isNameChar_iff.mp (hplain.chars first (hcons ▸ List.mem_cons_self))).2.2.2.2.2.2.1
  have hhead : name ++ ('<' :: inner ++ ['>']) = first :: (rest ++ Char.ofNat 96 :: Nat.toDigits 10 arity ++
      ('<' :: inner ++ ['>'])) := by
    rw [hname, hcons]
    simp
  unfold Scope.parseChars
  dsimp only
  rw [htidy.trimChars, hrev]
  split
  · contradiction
  · simp_all
  · simp_all
  · rename_i heq
    cases heq
    rw [hnone]
    split
    · contradiction
    · rename_i heq
      exact absurd (List.cons.inj (hhead.symm.trans heq)).1 hfirst
    · rw [if_neg (by simp), hcut]
      dsimp only
      rw [ok_bind hnamed, if_neg harity, hsplit]
      dsimp only
      rw [ok_bind hargs, if_neg (by simpa using hlength)]
      rfl

theorem length_le_intercalate {parts : List (List Char)} {a : List Char} (h : a ∈ parts) :
    a.length ≤ ([','].intercalate parts).length := by
  induction parts with
  | nil => cases h
  | cons b parts ih =>
    cases parts with
    | nil =>
      rw [List.mem_singleton.mp h, List.intercalate_singleton]
    | cons c parts =>
      rw [List.intercalate_cons_cons, List.length_append, List.length_append]
      rcases List.mem_cons.mp h with rfl | h
      · omega
      · exact Nat.le_trans (ih h) (Nat.le_add_left _ _)

theorem parseChars_name {name : String} (hb : builtin? name = some t) : sc.parseChars (fuel + 1)
    name.toList = .ok t := by
  obtain ⟨htidy, hchars⟩ := builtin?_text hb
  obtain ⟨front, last, hsplit⟩ := List.eq_nil_or_concat _ |>.resolve_left htidy.ne_nil
  have hlast : last ≠ '&' ∧ last ≠ '*' := by
    rcases hchars last (by rw [hsplit]; simp) with rfl | hlast
    · decide
    · obtain ⟨-, -, -, -, hamp, hstar, -⟩ := isNameChar_iff.mp hlast
      exact ⟨hamp, hstar⟩
  have hrev : name.toList.reverse = last :: front.reverse := by
    rw [hsplit]
    simp
  exact parseChars_builtin htidy hrev hlast (by rwa [String.ofList_toList])

/-- Reading the text of a type gives the type, with fuel for the length of the text. -/
theorem parseChars_text (hnodup : (sc.defs.map TypeDef.fullName).Nodup) (hnames : ∀ d ∈ sc.defs, Plain d.fullName)
    (h : Printable sc t) (hfuel : t.text.toList.length < fuel) : sc.parseChars fuel t.text.toList = .ok t := by
  induction h generalizing fuel with
  | void =>
    obtain ⟨fuel, rfl⟩ := Nat.exists_eq_add_one_of_ne_zero (Nat.ne_of_gt (Nat.zero_lt_of_lt hfuel))
    exact parseChars_name builtin?_void
  | prim p =>
    obtain ⟨fuel, rfl⟩ := Nat.exists_eq_add_one_of_ne_zero (Nat.ne_of_gt (Nat.zero_lt_of_lt hfuel))
    exact parseChars_name (builtin?_prim p)
  | param hi =>
    obtain ⟨fuel, rfl⟩ := Nat.exists_eq_add_one_of_ne_zero (Nat.ne_of_gt (Nat.zero_lt_of_lt hfuel))
    rw [toList_text_param]
    exact parseChars_param hi
  | byref helem ih =>
    obtain ⟨fuel, rfl⟩ := Nat.exists_eq_add_one_of_ne_zero (Nat.ne_of_gt (Nat.zero_lt_of_lt hfuel))
    rw [Ty.text, String.toList_append] at hfuel ⊢
    rw [List.length_append] at hfuel
    refine (parseChars_byref (helem.tidy hnames)).trans ?_
    rw [ih (Nat.lt_of_succ_lt_succ hfuel)]
    rfl
  | pointer helem ih =>
    obtain ⟨fuel, rfl⟩ := Nat.exists_eq_add_one_of_ne_zero (Nat.ne_of_gt (Nat.zero_lt_of_lt hfuel))
    rw [Ty.text, String.toList_append] at hfuel ⊢
    rw [List.length_append] at hfuel
    refine (parseChars_pointer (helem.tidy hnames)).trans ?_
    rw [ih (Nat.lt_of_succ_lt_succ hfuel)]
    rfl
  | defined hd harity =>
    obtain ⟨fuel, rfl⟩ := Nat.exists_eq_add_one_of_ne_zero (Nat.ne_of_gt (Nat.zero_lt_of_lt hfuel))
    rw [text_defined harity]
    exact parseChars_defined hnodup hd (hnames _ hd)
  | @inst d args hd harity hlength hargs ih =>
    obtain ⟨fuel, rfl⟩ := Nat.exists_eq_add_one_of_ne_zero (Nat.ne_of_gt (Nat.zero_lt_of_lt hfuel))
    have hne : args ≠ [] := List.ne_nil_of_length_pos (by omega)
    rw [toList_text_inst hne] at hfuel ⊢
    refine parseChars_inst hnodup hd (hnames d hd) harity (by simpa using hne) ?_ hlength ?_
    · intro a ha
      obtain ⟨arg, harg, rfl⟩ := List.mem_map.mp ha
      exact (hargs arg harg).whole hnames
    · have hread : ∀ arg ∈ args, sc.parseChars fuel arg.text.toList = .ok arg := by
        intro arg harg
        refine ih arg harg ?_
        have hle := length_le_intercalate (List.mem_map_of_mem (f := fun a : Ty ↦ a.text.toList) harg)
        simp only [List.length_append, List.length_cons] at hfuel
        omega
      rw [List.mapM_map]
      exact (mapM_ok_map hread).trans (congrArg _ (List.map_id _))

end parsing

end texts

theorem nodup_fullName {image : String} {home : ModuleRef} {decls : List TypeDecl} {u : Universe}
    {state : Universe × List TypeDef} (h : decls.foldlM (defineTypeDecl image home) (u, []) = .ok state) :
    (state.2.map TypeDef.fullName).Nodup := by
  refine foldlM_keeps (P := fun state : Universe × List TypeDef ↦ (state.2.map TypeDef.fullName).Nodup)
    (b := (u, [])) ?_ List.nodup_nil h
  intro td _ state state' hstate hdef
  unfold defineTypeDecl at hdef
  dsimp only at hdef
  split at hdef
  · cases hdef
  split at hdef
  · cases hdef
  split at hdef
  · cases hdef
  split at hdef
  · cases hdef
  rename_i hfresh
  cases hdef
  rw [List.map_append, List.nodup_append]
  refine ⟨hstate, List.nodup_singleton _, fun name hname other hother ↦ ?_⟩
  obtain ⟨d, hd, rfl⟩ := List.mem_map.mp hname
  intro heq
  refine hfresh (List.any_eq_true.mpr ⟨d, hd, beq_iff_eq.mpr ?_⟩)
  rw [heq, List.mem_singleton.mp hother]
  rfl

/-- Printed types are read back. Whatever types an image declares, if the names of all are plain, then every printable
type is what its text means. -/
theorem parseType_text {image : String} {decls : List TypeDecl} {u v : Universe} {sc : Scope}
    (hdefs : decls.foldlM (defineTypeDecl image sc.home) (u, []) = .ok (v, sc.defs))
    (hnames : ∀ d ∈ sc.defs, Plain d.fullName) {t : Ty} (h : Printable sc t) : sc.parseType t.text = .ok t := by
  refine parseChars_text (nodup_fullName hdefs) hnames h ?_
  exact Nat.lt_succ_self _

def shapes : List TypeDecl :=
  [{ space := "Geo", name := "Vec", kind := "struct" }, { space := "Geo", name := "Pair", kind := "class", arity := 2 }]

def vecDef : TypeDef := ⟨⟨0, "M"⟩, 0, "Geo", "Vec", .valueType, 0⟩

def pairDef : TypeDef := ⟨⟨0, "M"⟩, 1, "Geo", "Pair", .refType, 2⟩

def nestedPair : Ty :=
  .inst (.defined pairDef) [.byref (.inst (.defined pairDef) [.param 0, .prim .intPtr]), .pointer (.defined vecDef)]

theorem text_nestedPair : nestedPair.text = "Geo.Pair`2<Geo.Pair`2<!0,native int>&,Geo.Vec*>" := by decide +kernel

theorem parseType_text_pair : Scope.parseType ⟨⟨0, "M"⟩, [], [vecDef, pairDef]⟩
    "Geo.Pair`2<Geo.Pair`2<!0,native int>&,Geo.Vec*>" = .ok nestedPair := by
  have hdefs : shapes.foldlM (defineTypeDecl "M" ⟨0, "M"⟩) ((Universe.addModule {} "M").1, []) =
      .ok (((Universe.defineType (Universe.defineType (Universe.addModule {} "M").1 ⟨0, "M"⟩ "Geo" "Vec" .valueType 0).1
        ⟨0, "M"⟩ "Geo" "Pair" .refType 2).1), [vecDef, pairDef]) := rfl
  have hnames : ∀ d ∈ [vecDef, pairDef], Plain d.fullName := by
    intro d hd
    rcases List.mem_cons.mp hd with rfl | hd
    · exact ⟨by decide, List.all_eq_true.mp (by decide), rfl⟩
    · rw [List.mem_singleton.mp hd]
      exact ⟨by decide, List.all_eq_true.mp (by decide), rfl⟩
  have hpair : ∀ a b, Printable ⟨⟨0, "M"⟩, [], [vecDef, pairDef]⟩ a → Printable ⟨⟨0, "M"⟩, [], [vecDef, pairDef]⟩ b →
      Printable ⟨⟨0, "M"⟩, [], [vecDef, pairDef]⟩ (.inst (.defined pairDef) [a, b]) := fun a b ha hb ↦
    .inst (List.mem_cons_of_mem _ List.mem_cons_self) (by decide) rfl
      (List.forall_mem_cons.mpr ⟨ha, List.forall_mem_singleton.mpr hb⟩)
  rw [← text_nestedPair]
  exact parseType_text hdefs hnames
    (hpair _ _ (.byref (hpair _ _ (.param (by decide)) (.prim .intPtr))) (.pointer (.defined List.mem_cons_self rfl)))

end CilSsa.Image

