import CilSsa.Proofs.Requests
import CilSsa.Ssa.Printer

namespace CilSsa.Ssa

def quoteMark : List Char := ['\\', '2', '2']

def escaped (cs : List Char) : List Char := cs.flatMap fun c ↦ if c = '"' then quoteMark else [c]

theorem escaped_quote (cs : List Char) : escaped ('"' :: cs) = quoteMark ++ escaped cs := rfl

theorem escaped_cons {c : Char} (h : c ≠ '"') (cs : List Char) : escaped (c :: cs) = c :: escaped cs := by
  rw [escaped, List.flatMap_cons, if_neg h]
  rfl

theorem escaped_of_forall {cs : List Char} (h : ∀ c ∈ cs, c ≠ '"') : escaped cs = cs := by
  induction cs with
  | nil => rfl
  | cons c cs ih =>
    rw [escaped_cons (h c List.mem_cons_self), ih fun d hd ↦ h d (List.mem_cons_of_mem c hd)]

theorem mem_escaped {c : Char} {cs : List Char} (hc : c ∈ cs) (h : c ≠ '"') : c ∈ escaped cs :=
  List.mem_flatMap.mpr ⟨c, hc, by rw [if_neg h]; exact List.mem_singleton_self c⟩

theorem of_escaped_eq_cons {c : Char} {cs ds : List Char} (h : escaped cs = c :: ds) (hc : c ≠ '\\') :
    ∃ es, cs = c :: es ∧ escaped es = ds := by
  cases cs with
  | nil => cases h
  | cons b bs =>
    by_cases hb : b = '"'
    · subst hb
      rw [escaped_quote] at h
      injection h with h
      exact absurd h.symm hc
    · rw [escaped_cons hb] at h
      injection h with h h'
      exact ⟨bs, by rw [h], h'⟩

theorem of_escaped_eq_mark {cs ds : List Char} (h : escaped cs = quoteMark ++ ds) :
    (∃ es, cs = '"' :: es) ∨ quoteMark <+: cs := by
  cases cs with
  | nil => cases h
  | cons b bs =>
    by_cases hb : b = '"'
    · exact .inl ⟨bs, by rw [hb]⟩
    · rw [escaped_cons hb] at h
      injection h with h h'
      obtain ⟨es, rfl, hes⟩ := of_escaped_eq_cons h' (by decide)
      obtain ⟨fs, rfl, -⟩ := of_escaped_eq_cons hes (by decide)
      exact .inr ⟨fs, by rw [h]; rfl⟩

def Confused (xs ys : List Char) : Prop := '"' ∈ xs ∧ quoteMark <:+: ys

theorem Confused.cons {xs ys : List Char} (h : Confused xs ys) (c : Char) : Confused (c :: xs) (c :: ys) :=
  ⟨List.mem_cons_of_mem c h.1, h.2.trans (List.suffix_cons c ys).isInfix⟩

theorem confused_of_escaped_eq {xs ys : List Char} (h : escaped xs = escaped ys) (hne : xs ≠ ys) :
    Confused xs ys ∨ Confused ys xs := by
  induction xs generalizing ys with
  | nil =>
    cases ys with
    | nil => exact absurd rfl hne
    | cons d ys =>
      by_cases hd : d = '"'
      · subst hd
        cases h
      · rw [escaped_cons hd] at h
        cases h
  | cons c xs ih =>
    by_cases hc : c = '"'
    · subst hc
      rw [escaped_quote] at h
      rcases of_escaped_eq_mark h.symm with ⟨zs, rfl⟩ | hmark
      · rw [escaped_quote, List.append_cancel_left_eq] at h
        exact (ih h fun e ↦ hne (by rw [e])).imp (.cons · _) (.cons · _)
      · exact .inl ⟨List.mem_cons_self, hmark.isInfix⟩
    · rw [escaped_cons hc] at h
      cases ys with
      | nil => cases h
      | cons d ys =>
        by_cases hd : d = '"'
        · subst hd
          rw [escaped_quote, ← escaped_cons hc] at h
          rcases of_escaped_eq_mark h with ⟨zs, hzs⟩ | hmark
          · injection hzs with hzs
            exact absurd hzs hc
          · exact .inr ⟨List.mem_cons_self, hmark.isInfix⟩
        · rw [escaped_cons hd] at h
          injection h with h h'
          subst h
          exact (ih h' fun e ↦ hne (by rw [e])).imp (.cons · _) (.cons · _)

theorem not_plain_quote : isPlain '"' = false := by decide

theorem not_plain_backslash : isPlain '\\' = false := by decide

theorem escaped_of_plain {cs : List Char} (h : cs.all isPlain = true) : escaped cs = cs := by
  refine escaped_of_forall fun c hc e ↦ ?_
  have hplain := List.all_eq_true.mp h c hc
  rw [e, not_plain_quote] at hplain
  cases hplain

theorem plain_of_escaped {cs : List Char} (h : (escaped cs).all isPlain = true) : cs.all isPlain = true := by
  refine List.all_eq_true.mpr fun c hc ↦ ?_
  by_cases hquote : c = '"'
  · have hmem : '\\' ∈ escaped cs :=
      List.mem_flatMap.mpr ⟨c, hc, by rw [if_pos hquote]; exact List.mem_cons_self⟩
    have hplain := List.all_eq_true.mp h _ hmem
    rw [not_plain_backslash] at hplain
    cases hplain
  · exact List.all_eq_true.mp h c (mem_escaped hc hquote)

theorem quoteName_plain {name : String} (h : name.toList.all isPlain = true) : quoteName name = name := if_pos h

theorem quoteName_quoted {name : String} (h : ¬ name.toList.all isPlain = true) :
    quoteName name = String.ofList ('"' :: escaped name.toList ++ ['"']) := if_neg h

theorem quoteName_ne_of_plain {x y : String} (hx : x.toList.all isPlain = true) (hy : ¬ y.toList.all isPlain = true) :
    quoteName x ≠ quoteName y := by
  rw [quoteName_plain hx, quoteName_quoted hy]
  rintro rfl
  rw [String.toList_ofList, List.cons_append, List.all_cons, not_plain_quote] at hx
  cases hx

theorem quoteName_eq_iff {x y : String} : quoteName x = quoteName y ↔ escaped x.toList = escaped y.toList := by
  by_cases hx : x.toList.all isPlain = true
  · by_cases hy : y.toList.all isPlain = true
    · rw [quoteName_plain hx, quoteName_plain hy, escaped_of_plain hx, escaped_of_plain hy, String.toList_inj]
    · refine iff_of_false (quoteName_ne_of_plain hx hy) fun h ↦ hy (plain_of_escaped ?_)
      rw [← h, escaped_of_plain hx]
      exact hx
  · by_cases hy : y.toList.all isPlain = true
    · refine iff_of_false (quoteName_ne_of_plain hy hx).symm fun h ↦ hx (plain_of_escaped ?_)
      rw [h, escaped_of_plain hy]
      exact hy
    · rw [quoteName_quoted hx, quoteName_quoted hy, String.ofList_inj, List.append_cancel_right_eq, List.cons_inj_right]

theorem confused_of_quoteName_eq {x y : String} (h : quoteName x = quoteName y) (hne : x ≠ y) :
    Confused x.toList y.toList ∨ Confused y.toList x.toList :=
  confused_of_escaped_eq (quoteName_eq_iff.mp h) fun e ↦ hne (String.toList_inj.mp e)

theorem Function.ref_eq_iff {f g : Function} : f.ref = g.ref ↔ quoteName f.name = quoteName g.name := by
  rw [Function.ref, Function.ref, String.append_right_inj]

theorem Ty.text_struct_eq_iff {i j : Nat} {x y : String} :
    (Ty.struct i x).text = (Ty.struct j y).text ↔ quoteName x = quoteName y := by
  rw [Ty.text, Ty.text, String.append_right_inj]

theorem Function.ref_ne_text (f : Function) (i : Nat) (name : String) : f.ref ≠ (Ty.struct i name).text := by
  rw [Function.ref, Ty.text]
  intro h
  have hfirst := congrArg (·.toList.head?) h
  simp [String.toList_append] at hfirst

end CilSsa.Ssa

namespace CilSsa.Lowering

open CilSsa.Metadata
open CilSsa.Ssa (Confused Function StructDef escaped quoteName)

section

variable {world : Universe} {u : CompilationUnit}

theorem eq_of_names {α : Type} (at? : Nat → Option α) (name : α → String) {places : List Nat}
    (hnames : (places.map fun i ↦ (at? i).map name).Nodup) {a b : α} (ha : a ∈ places.filterMap at?)
    (hb : b ∈ places.filterMap at?) (h : name a = name b) : a = b := by
  obtain ⟨i, hi, hai⟩ := List.mem_filterMap.mp ha
  obtain ⟨j, hj, hbj⟩ := List.mem_filterMap.mp hb
  have hij : i = j := List.inj_on_of_nodup_map hnames hi hj (by rw [hai, hbj, Option.map_some, Option.map_some, h])
  exact Option.some.inj (hai.symm.trans (hij ▸ hbj))

theorem Coherent.eq_of_name (h : Coherent u) {f g : Function} (hf : f ∈ u.module.functionList)
    (hg : g ∈ u.module.functionList) (hname : f.name = g.name) : f = g :=
  eq_of_names (u.module.functions[·]?) Function.name h.names hf hg hname

theorem Coherent.eq_of_structName (h : Coherent u) {d e : StructDef} (hd : d ∈ u.module.structList)
    (he : e ∈ u.module.structList) (hname : d.name = e.name) : d = e :=
  eq_of_names (u.module.structs[·]?) StructDef.name h.structNames hd he hname

/-- Two names print alike exactly if replacing each quote by its mark makes them one, and if they still differ then one
has a quote and the other the mark of one. So within a module two functions that differ, or two structs, are printed as
one symbol only if their names do this; a function is never printed as a struct is. -/
theorem symbols_alike (hworld : Consistent world) (h : u.Reachable world) :
    (∀ x y, quoteName x = quoteName y ↔ escaped x.toList = escaped y.toList) ∧
      (∀ x y, quoteName x = quoteName y → x ≠ y → Confused x.toList y.toList ∨ Confused y.toList x.toList) ∧
      (∀ f ∈ u.module.functionList, ∀ g ∈ u.module.functionList, f.ref = g.ref → f ≠ g →
        Confused f.name.toList g.name.toList ∨ Confused g.name.toList f.name.toList) ∧
      (∀ d ∈ u.module.structList, ∀ e ∈ u.module.structList, ∀ i j,
        (Ssa.Ty.struct i d.name).text = (Ssa.Ty.struct j e.name).text → d ≠ e →
          Confused d.name.toList e.name.toList ∨ Confused e.name.toList d.name.toList) ∧
      ∀ f ∈ u.module.functionList, ∀ d ∈ u.module.structList, ∀ i, f.ref ≠ (Ssa.Ty.struct i d.name).text := by
  have hcoherent := (h.orderly hworld).coherent
  refine ⟨fun _ _ ↦ Ssa.quoteName_eq_iff, fun _ _ ↦ Ssa.confused_of_quoteName_eq, ?_, ?_,
    fun f _ d _ i ↦ f.ref_ne_text i d.name⟩
  · intro f hf g hg href hne
    exact Ssa.confused_of_quoteName_eq (Function.ref_eq_iff.mp href) fun e ↦ hne (hcoherent.eq_of_name hf hg e)
  · intro d hd e he i j htext hne
    exact Ssa.confused_of_quoteName_eq (Ssa.Ty.text_struct_eq_iff.mp htext) fun n ↦
    hne (hcoherent.eq_of_structName hd he n)

end

/-- In a unit that compiled a method its function and the one that fills memory have symbols of their own. -/
theorem symbols_alike_small :
    Consistent smallWorld ∧ (getMethod smallWorld returnMethod freshUnit).2.Reachable smallWorld ∧
      (getMethod smallWorld returnMethod freshUnit).2.module.functionList.length = 2 ∧
      ∀ f ∈ (getMethod smallWorld returnMethod freshUnit).2.module.functionList,
        ∀ g ∈ (getMethod smallWorld returnMethod freshUnit).2.module.functionList, f.ref = g.ref → f ≠ g →
          Confused f.name.toList g.name.toList ∨ Confused g.name.toList f.name.toList := by
  have hreach : (getMethod smallWorld returnMethod freshUnit).2.Reachable smallWorld := .method rfl freshUnit_reachable
  exact ⟨smallWorld_consistent, hreach, by decide +kernel, (symbols_alike smallWorld_consistent hreach).2.2.1⟩

/-- A quote and its mark within quotes cannot be told apart. -/
theorem quoteName_not_injective : ¬ ∀ x y : String, quoteName x = quoteName y → x = y := by
  intro h
  exact absurd (h "a\"b" "a\\22b" (by decide)) (by decide)

end CilSsa.Lowering

