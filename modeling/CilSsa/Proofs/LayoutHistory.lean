import CilSsa.Proofs.LayoutAnswers
import CilSsa.Proofs.Underway
import CilSsa.Proofs.StructMembers

namespace CilSsa.Ssa

open Relation

/-- Values of the type take up bytes, or would if their struct had a body. -/
def Ty.isStored : Ty → Bool
  | .untyped | .void | .func .. => false
  | .int _ | .float | .double | .pointer _ | .struct .. => true

namespace Layouts

/-- Bodies are set, structs are named and layouts are asked for, in any order. -/
inductive Asked (target : Target) : Module → Layouts → Prop
  | fresh (m : Module) : Asked target m { target }
  | named {m : Module} {s : Layouts} (name : String) : Asked target m s → Asked target (m.namedStruct name).1 s
  | bodySet {m m' : Module} {s : Layouts} {t : Ty} {fields : List Ty} : Asked target m s → m.setBody t fields = .ok m' →
      Asked target m' s
  | asked {m : Module} {s : Layouts} (t : Ty) : Asked target m s → Asked target m (s.of m t).2

/-- The members of `t` in front of its member `r` have layouts, so that the walk over them comes to `r`. -/
def Reaches (m : Module) (target : Target) (t r : Ty) : Prop :=
  ∃ front back, m.fields? t = some (front ++ r :: back) ∧ ∀ q ∈ front, ∃ l, LaidOut m target q l

def Explains (m : Module) (target : Target) (t : Ty) : LayoutError → Prop
  | .noBody q => ReflTransGen (Reaches m target) t q ∧ m.lacksBody q = true
  | .unsized q => ReflTransGen (Reaches m target) t q ∧ q.isStored = false
  | .recursive cycle => ∃ q steps, cycle = q :: steps ++ [q] ∧ cycle.IsChain (Reaches m target) ∧
      ReflTransGen (Reaches m target) t q

/-- An answer is the layout of the type, or an error that explains why it has none. -/
def Told (m : Module) (target : Target) (t : Ty) : Except LayoutError Layout → Prop
  | .ok l => LaidOut m target t l
  | .error e => Explains m target t e

/-- What is remembered may be told again, also when further bodies have been set. -/
structure Truthful (m : Module) (target : Target) (s : Layouts) : Prop where
  machine : s.target = target
  memo : ∀ t a, s.memo.lookup t = some a → Told m target t a
  lasting : ∀ t q, s.memo.lookup t ≠ some (.error (.noBody q))

section

variable {m m' : Module} {target : Target} {s : Layouts} {t r q : Ty} {l : Layout} {e e' : LayoutError}
  {fields path : List Ty} {fuel : Nat}

/-! ### The first member without a layout -/

theorem Reaches.embeds (h : Reaches m target t r) : m.Embeds t r := by
  obtain ⟨front, back, hfields, -⟩ := h
  exact ⟨_, hfields, List.mem_append_right _ List.mem_cons_self⟩

theorem not_laidOut_of_embeds (h : ReflTransGen m.Embeds t q) (hq : ∀ l, ¬ LaidOut m target q l) (l : Layout) :
    ¬ LaidOut m target t l := by
  induction h using ReflTransGen.head_induction_on generalizing l with
  | refl => exact hq l
  | head hstep _ ih =>
    obtain ⟨fields, hfields, hr⟩ := hstep
    intro hl
    obtain ⟨l', hl'⟩ := hl.member hfields hr
    exact ih l' hl'

theorem Reaches.below (h : ReflTransGen (Reaches m target) t q) : ReflTransGen m.Embeds t q :=
  ReflTransGen.mono (fun _ _ ↦ Reaches.embeds) _ _ h

theorem Reaches.unique {r' : Ty} (h : Reaches m target t r) (h' : Reaches m target t r')
    (hr : ∀ l, ¬ LaidOut m target r l) (hr' : ∀ l, ¬ LaidOut m target r' l) : r = r' := by
  obtain ⟨front, back, hfields, hfront⟩ := h
  obtain ⟨front', back', hfields', hfront'⟩ := h'
  have hsame : front ++ r :: back = front' ++ r' :: back' := Option.some.inj (hfields.symm.trans hfields')
  rcases List.append_eq_append_iff.mp hsame with ⟨mid, rfl, hmid⟩ | ⟨mid, rfl, hmid⟩
  · cases mid with
    | nil => exact (List.cons.inj hmid).1
    | cons q mid =>
      obtain ⟨rfl, -⟩ := List.cons.inj hmid
      obtain ⟨l, hl⟩ := hfront' r (List.mem_append_right _ List.mem_cons_self)
      exact absurd hl (hr l)
  · cases mid with
    | nil => exact (List.cons.inj hmid).1.symm
    | cons q mid =>
      obtain ⟨rfl, -⟩ := List.cons.inj hmid
      obtain ⟨l, hl⟩ := hfront r' (List.mem_append_right _ List.mem_cons_self)
      exact absurd hl (hr' l)

theorem not_laidOut_of_lacksBody (h : m.lacksBody t = true) (l : Layout) : ¬ LaidOut m target t l := by
  rintro ⟨fuel, hl⟩
  cases fuel with
  | zero => cases hl
  | succ fuel =>
    cases t with
    | struct id name =>
      obtain ⟨fields, hfields, -⟩ := Option.bind_eq_some_iff.mp hl
      rw [Module.lacksBody, hfields] at h
      cases h
    | _ => cases h

theorem not_laidOut_of_not_isStored (h : t.isStored = false) (l : Layout) : ¬ LaidOut m target t l := by
  rintro ⟨fuel, hl⟩
  cases t with
  | untyped | void | func => cases fuel <;> cases hl
  | _ => cases h

theorem not_embeds_of_lacksBody (h : m.lacksBody t = true) : ¬ m.Embeds t r := by
  rintro ⟨fields, hfields, -⟩
  rw [Module.lacksBody, hfields, Option.isNone_some, Bool.and_false] at h
  cases h

theorem not_embeds_of_not_isStored (h : t.isStored = false) : ¬ m.Embeds t r := by
  rintro ⟨fields, hfields, -⟩
  cases t <;> first | cases hfields | cases h

theorem transGen_of_cycle {steps : List Ty} (h : (q :: steps ++ [q]).IsChain (Reaches m target)) :
    TransGen (Reaches m target) q q := by
  have hgoes : ∀ (steps : List Ty) (p : Ty), (p :: steps ++ [q]).IsChain (Reaches m target) →
      TransGen (Reaches m target) p q := by
    intro steps
    induction steps with
    | nil => exact fun p hp ↦ .single (List.isChain_pair.mp hp)
    | cons p' steps ih =>
      intro p hp
      obtain ⟨hstep, hrest⟩ := List.isChain_cons_cons.mp hp
      exact .head hstep (ih p' hrest)
  exact hgoes steps q h

theorem Explains.not_laidOut (h : Explains m target t e) (l : Layout) : ¬ LaidOut m target t l := by
  cases e with
  | noBody q => exact not_laidOut_of_embeds (Reaches.below h.1) (not_laidOut_of_lacksBody h.2) l
  | unsized q => exact not_laidOut_of_embeds (Reaches.below h.1) (not_laidOut_of_not_isStored h.2) l
  | recursive cycle =>
    obtain ⟨q, steps, rfl, hcycle, hreach⟩ := h
    have hcircle := TransGen.mono (fun _ _ ↦ Reaches.embeds) _ _ (transGen_of_cycle hcycle)
    exact not_laidOut_of_embeds (Reaches.below hreach) (fun _ ↦ not_laidOut_of_cycle hcircle) l

theorem Explains.of_reaches (htr : Reaches m target t r) (h : Explains m target r e) : Explains m target t e := by
  cases e with
  | noBody q => exact ⟨.head htr h.1, h.2⟩
  | unsized q => exact ⟨.head htr h.1, h.2⟩
  | recursive cycle =>
    obtain ⟨q, steps, hcycle, hchain, hreach⟩ := h
    exact ⟨q, steps, hcycle, hchain, .head htr hreach⟩

/-! ### The first member without a layout decides -/

theorem reaches_linear (hq : ReflTransGen (Reaches m target) t q) (hr : ReflTransGen (Reaches m target) t r)
    (hnq : ∀ l, ¬ LaidOut m target q l) (hnr : ∀ l, ¬ LaidOut m target r l) :
    ReflTransGen (Reaches m target) q r ∨ ReflTransGen (Reaches m target) r q := by
  induction hq using ReflTransGen.head_induction_on with
  | refl => exact .inl hr
  | @head t p hstep hrest ih =>
    rcases ReflTransGen.cases_head hr with rfl | ⟨p', hstep', hrest'⟩
    · exact .inr (.head hstep hrest)
    · obtain rfl := hstep.unique hstep' (not_laidOut_of_embeds (Reaches.below hrest) hnq)
        (not_laidOut_of_embeds (Reaches.below hrest') hnr)
      exact ih hrest'

theorem circle_of_reaches (hcircle : TransGen (Reaches m target) t t) (h : ReflTransGen (Reaches m target) t q)
    (hq : ∀ l, ¬ LaidOut m target q l) : TransGen (Reaches m target) q q := by
  induction h using ReflTransGen.head_induction_on with
  | refl => exact hcircle
  | @head t p hstep hrest ih =>
    obtain ⟨p', hstep', hback⟩ := TransGen.head'_iff.mp hcircle
    have ht := not_laidOut_of_embeds (Reaches.below (.head hstep hrest)) hq
    obtain rfl := hstep.unique hstep' (not_laidOut_of_embeds (Reaches.below hrest) hq)
      (not_laidOut_of_embeds (Reaches.below hback) ht)
    exact ih (TransGen.tail' hback hstep)

theorem not_circle_of_end (hend : ∀ r, ¬ m.Embeds q r) (hnq : ∀ l, ¬ LaidOut m target q l)
    (hq : ReflTransGen (Reaches m target) t q) (hr : ReflTransGen (Reaches m target) t r)
    (hcircle : TransGen (Reaches m target) r r) : False := by
  have hnr : ∀ l, ¬ LaidOut m target r l := fun _ ↦
    not_laidOut_of_cycle (TransGen.mono (fun _ _ ↦ Reaches.embeds) _ _ hcircle)
  have hback : TransGen (Reaches m target) q q := by
    rcases reaches_linear hq hr hnq hnr with hqr | hrq
    · rcases ReflTransGen.cases_head hqr with rfl | ⟨p, hstep, -⟩
      · exact hcircle
      · exact absurd hstep.embeds (hend p)
    · exact circle_of_reaches hcircle hrq hnq
  obtain ⟨p, hstep, -⟩ := TransGen.head'_iff.mp hback
  exact hend p hstep.embeds

theorem end_unique (hend : ∀ p, ¬ m.Embeds q p) (hend' : ∀ p, ¬ m.Embeds r p) (hnq : ∀ l, ¬ LaidOut m target q l)
    (hnr : ∀ l, ¬ LaidOut m target r l) (hq : ReflTransGen (Reaches m target) t q)
    (hr : ReflTransGen (Reaches m target) t r) : q = r := by
  rcases reaches_linear hq hr hnq hnr with h | h
  · rcases ReflTransGen.cases_head h with rfl | ⟨p, hstep, -⟩
    · rfl
    · exact absurd hstep.embeds (hend p)
  · rcases ReflTransGen.cases_head h with rfl | ⟨p, hstep, -⟩
    · rfl
    · exact absurd hstep.embeds (hend' p)

theorem isStored_of_lacksBody (h : m.lacksBody t = true) : t.isStored = true := by
  cases t <;> first | rfl | cases h

theorem Explains.reason_eq (h : Explains m target t e) (h' : Explains m target t e') : e.reason = e'.reason := by
  have hbody : ∀ {q r}, Explains m target t (.noBody q) → Explains m target t (.unsized r) → False := by
    intro q r hq hr
    obtain rfl := end_unique (fun _ ↦ not_embeds_of_lacksBody hq.2) (fun _ ↦ not_embeds_of_not_isStored hr.2)
      (not_laidOut_of_lacksBody hq.2) (not_laidOut_of_not_isStored hr.2) hq.1 hr.1
    exact Bool.false_ne_true (hr.2.symm.trans (isStored_of_lacksBody hq.2))
  have hbodyCycle : ∀ {q c}, Explains m target t (.noBody q) → Explains m target t (.recursive c) → False := by
    rintro q c hq ⟨r, steps, rfl, hcycle, hr⟩
    exact not_circle_of_end (fun _ ↦ not_embeds_of_lacksBody hq.2) (not_laidOut_of_lacksBody hq.2) hq.1 hr
      (transGen_of_cycle hcycle)
  have hsizeCycle : ∀ {q c}, Explains m target t (.unsized q) → Explains m target t (.recursive c) → False := by
    rintro q c hq ⟨r, steps, rfl, hcycle, hr⟩
    exact not_circle_of_end (fun _ ↦ not_embeds_of_not_isStored hq.2) (not_laidOut_of_not_isStored hq.2) hq.1 hr
      (transGen_of_cycle hcycle)
  cases e with
  | noBody q =>
    cases e' with
    | noBody => rfl
    | unsized => exact (hbody h h').elim
    | recursive => exact (hbodyCycle h h').elim
  | unsized q =>
    cases e' with
    | noBody => exact (hbody h' h).elim
    | unsized => rfl
    | recursive => exact (hsizeCycle h h').elim
  | recursive cycle =>
    cases e' with
    | noBody => exact (hbodyCycle h' h).elim
    | unsized => exact (hsizeCycle h' h).elim
    | recursive => rfl

/-! ### Further bodies -/

theorem layout?_of_precedes (hm : m.Precedes m') (h : layout? m target fuel t = some l) : layout? m' target fuel
    t = some l := by
  induction fuel generalizing t l with
  | zero => cases h
  | succ fuel ih =>
    cases t with
    | struct id name =>
      obtain ⟨fields, hfields, hmembers⟩ := Option.bind_eq_some_iff.mp h
      obtain ⟨ls, hls, rfl⟩ := Option.map_eq_some_iff.mp hmembers
      exact Option.bind_eq_some_iff.mpr ⟨fields, Module.fields?_mono hfields hm,
        Option.map_eq_some_iff.mpr ⟨ls, mapM_some_mono (fun _ _ ↦ ih) hls, rfl⟩⟩
    | _ => exact h

theorem Reaches.mono (hm : m.Precedes m') (h : Reaches m target t r) : Reaches m' target t r := by
  obtain ⟨front, back, hfields, hfront⟩ := h
  refine ⟨front, back, Module.fields?_mono hfields hm, fun q hq ↦ ?_⟩
  obtain ⟨l, fuel, hl⟩ := hfront q hq
  exact ⟨l, fuel, layout?_of_precedes hm hl⟩

theorem Told.mono {a : Except LayoutError Layout} (hm : m.Precedes m') (h : Told m target t a)
    (hbody : ∀ q, a ≠ .error (.noBody q)) : Told m' target t a := by
  have hgoes : ∀ {q}, ReflTransGen (Reaches m target) t q → ReflTransGen (Reaches m' target) t q :=
    fun h ↦ ReflTransGen.mono (fun _ _ ↦ Reaches.mono hm) _ _ h
  cases a with
  | ok l =>
    obtain ⟨fuel, hl⟩ := h
    exact ⟨fuel, layout?_of_precedes hm hl⟩
  | error e =>
    cases e with
    | noBody q => exact absurd rfl (hbody q)
    | unsized q => exact ⟨hgoes h.1, h.2⟩
    | recursive cycle =>
      obtain ⟨q, steps, hcycle, hchain, hreach⟩ := h
      exact ⟨q, steps, hcycle, hchain.imp fun _ _ ↦ Reaches.mono hm, hgoes hreach⟩

theorem Truthful.mono (hm : m.Precedes m') (h : Truthful m target s) : Truthful m' target s :=
  ⟨h.machine, fun t a ha ↦ (h.memo t a ha).mono hm fun q hq ↦ h.lasting t q (hq ▸ ha), h.lasting⟩

/-! ### Answers -/

theorem Truthful.remember (h : Truthful m target s) {a : Except LayoutError Layout} (ha : Told m target t a) :
    Truthful m target (s.remember t a) := by
  refine ⟨remember_target.trans h.machine, fun r b hb ↦ ?_, fun r q hb ↦ ?_⟩
  · rcases lookup_remember hb with ⟨rfl, rfl, -⟩ | hb
    · exact ha
    · exact h.memo r b hb
  · rcases lookup_remember hb with ⟨rfl, rfl, hbody⟩ | hb
    · exact hbody q rfl
    · exact h.lasting r q hb

theorem Comes.reaches (h : Comes (Told m target) fields r) (hfields : m.fields? t = some fields) :
    Reaches m target t r := by
  obtain ⟨front, back, rfl, hfront⟩ := h
  exact ⟨front, back, hfields, hfront⟩

theorem cycle_of_path (hpath : (path ++ [t]).IsChain (Reaches m target)) (ht : t ∈ path) :
    Explains m target t (.recursive (path.dropWhile (· ≠ t) ++ [t])) := by
  obtain ⟨front, steps, rfl, hfresh⟩ := List.eq_append_cons_of_mem ht
  have hdrop : (front ++ t :: steps).dropWhile (· ≠ t) = t :: steps := by
    rw [List.dropWhile_append_of_pos fun p hp ↦ decide_eq_true (ne_of_mem_of_not_mem hp hfresh),
      List.dropWhile_cons_of_neg (by simp)]
  rw [List.append_assoc] at hpath
  rw [hdrop]
  exact ⟨t, steps, rfl, hpath.right_of_append, .refl⟩

theorem walk_told : Walk m (Truthful m target) (Told m target) fun fuel path t ↦
    Nested m q path t ∧ (path ++ [t]).IsChain (Reaches m target) ∧ nesting m + 1 ≤ fuel + path.length where
  exhausted h := by
    have := h.1.length_le
    have := length_members_lt m
    omega
  known hs hl := hs.memo _ _ hl
  cyclic h hon := cycle_of_path h.2.1 hon
  plain {_ _ t _} _ hs ht := by
    cases t with
    | int | float | double => exact ⟨1, rfl⟩
    | pointer => exact ⟨1, by rw [hs.machine]; rfl⟩
    | struct => cases ht
    | untyped | void | func => exact ⟨.refl, rfl⟩
  bodyless _ hstruct hbody := ⟨.refl, by rw [Module.lacksBody, hstruct, hbody]; rfl⟩
  deeper h hfresh hfields hr := ⟨h.1.push hfresh hfields (hr.elim fun _ ⟨_, heq, _⟩ ↦ by simp [heq]),
    List.isChain_append.mpr ⟨h.2.1, List.isChain_singleton _, by simpa using hr.reaches hfields⟩, by
      rw [List.length_append, List.length_singleton]
      omega⟩
  struct {t _ _} hfields hall := by
    cases t with
    | struct => exact .struct hfields hall
    | _ => cases hfields
  failed hfields hr he := Explains.of_reaches (hr.reaches hfields) he
  remember _ _ hs ha := hs.remember ha

theorem each_congr {ask ask' : Ty → Layouts → Answer Layout} {ts : List Ty}
    (h : ∀ t ∈ ts, ask t = ask' t) (s : Layouts) : each ask ts s = each ask' ts s := by
  induction ts generalizing s with
  | nil => rfl
  | cons t ts ih =>
    rw [each, each, h t List.mem_cons_self]
    simp only [ih fun t ht ↦ h t (List.mem_cons_of_mem _ ht)]

theorem compute_succ (fuel : Nat) (hnested : Nested m q path t) (hfuel : nesting m + 1 ≤ fuel + path.length)
    (s : Layouts) : compute m (fuel + 1) path t s = compute m fuel path t s := by
  induction fuel generalizing path t s with
  | zero =>
    have := hnested.length_le
    have := length_members_lt m
    omega
  | succ fuel ih =>
    unfold compute
    split
    · rfl
    split
    · rfl
    rename_i hfresh
    have hfresh : t ∉ path := fun hmem ↦ hfresh (List.contains_iff_mem.mpr hmem)
    cases t with
    | struct id name =>
      cases hfields : m.fields? (.struct id name) with
      | none => simp only [hfields]
      | some fields =>
        have hsame := each_congr (fun r hr ↦ funext fun s ↦ ih (hnested.push hfresh hfields hr)
          (by rw [List.length_append, List.length_singleton]; omega) s) s
        simp only [hfields, hsame]
    | _ => rfl

theorem compute_eq_of {fuel : Nat} (hfuel : nesting m < fuel) (s : Layouts) : compute m fuel [] t s = s.of m t := by
  obtain ⟨k, rfl⟩ := Nat.exists_eq_add_of_lt hfuel
  induction k with
  | zero => rfl
  | succ k ih =>
    have hstep := @compute_succ m t t [] (nesting m + k + 1) ⟨List.nodup_nil, List.forall_mem_nil _, .inl rfl,
      List.forall_mem_nil _⟩ (by omega) s
    exact hstep.trans (ih (by omega))

theorem of_told (h : Truthful m target s) : Truthful m target (s.of m t).2 ∧ Told m target t (s.of m t).1 :=
  walk_told.compute ⟨⟨List.nodup_nil, List.forall_mem_nil _, .inl rfl, List.forall_mem_nil _⟩,
  List.isChain_singleton t, le_rfl⟩ h

theorem precedes_of_setBody (h : m.setBody t fields = .ok m') : m.Precedes m' := by
  unfold Module.setBody at h
  split at h
  · split at h
    · cases h
    · rename_i hbody
      cases h
      exact Lowering.precedes_setBody fields (Option.not_isSome_iff_eq_none.mp hbody)
  · cases h

theorem precedes_namedStruct (m : Module) (name : String) : m.Precedes (m.namedStruct name).1 := by
  unfold Module.namedStruct
  split
  · exact .refl m
  · exact Lowering.precedes_withStruct m (Text.composed name)

theorem Asked.truthful (h : Asked target m s) : Truthful m target s := by
  induction h with
  | fresh m => exact ⟨rfl, nofun, nofun⟩
  | @named m s name _ ih => exact ih.mono (precedes_namedStruct m name)
  | bodySet _ hset ih => exact ih.mono (precedes_of_setBody hset)
  | asked t _ ih => exact (of_told ih).1

theorem exists_laidOut_iff : (∃ l, LaidOut m target t l) ↔
    ∀ r, ReflTransGen m.Embeds t r → r.isStored = true ∧ m.lacksBody r = false ∧ ¬ TransGen m.Embeds r r := by
  constructor
  · rintro ⟨l, hl⟩ r hr
    have hsome : ∃ l', LaidOut m target r l' := by
      by_contra hnone
      exact not_laidOut_of_embeds hr (not_exists.mp hnone) l hl
    obtain ⟨l', hl'⟩ := hsome
    refine ⟨?_, ?_, fun hcycle ↦ not_laidOut_of_cycle hcycle hl'⟩
    · by_contra hno
      exact not_laidOut_of_not_isStored (Bool.eq_false_iff.mpr hno) l' hl'
    · by_contra hno
      exact not_laidOut_of_lacksBody (Bool.eq_true_of_not_eq_false hno) l' hl'
  · intro hall
    have htold := (of_told (t := t) (@Asked.fresh target m).truthful).2
    cases hanswer : (Layouts.of { target } m t).1 with
    | ok l => exact ⟨l, by rwa [hanswer] at htold⟩
    | error e =>
      rw [hanswer] at htold
      cases e with
      | noBody q => exact absurd htold.2 (by rw [(hall q (Reaches.below htold.1)).2.1]; exact Bool.false_ne_true)
      | unsized q => exact absurd htold.2 (by rw [(hall q (Reaches.below htold.1)).1]; exact Bool.false_ne_true.symm)
      | recursive cycle =>
        obtain ⟨q, steps, rfl, hchain, hreach⟩ := htold
        exact absurd (TransGen.mono (fun _ _ ↦ Reaches.embeds) _ _ (transGen_of_cycle hchain))
          (hall q (Reaches.below hreach)).2.2

/-- Answers do not depend on history. Whatever bodies have been set and layouts asked for, the walk over members ends
before its bound, and gives the layout that a first question would give or an error of the same kind. A layout is found
if and only if nothing that is held by value lacks its body, has no values at all or is in itself; and a cycle that is
reported begins and ends with one struct, each of its types being a member of the one before. -/
theorem answers_timeless (h : Asked target m s) :
    (∀ fuel, nesting m < fuel → compute m fuel [] t s = s.of m t) ∧
    (s.of m t).1.mapError LayoutError.reason = (Layouts.of { target } m t).1.mapError LayoutError.reason ∧
    ((∃ l, (s.of m t).1 = .ok l) ↔
      ∀ r, ReflTransGen m.Embeds t r → r.isStored = true ∧ m.lacksBody r = false ∧ ¬ TransGen m.Embeds r r) ∧
    ∀ cycle, (s.of m t).1 = .error (.recursive cycle) → ∃ q steps, cycle = q :: steps ++ [q] ∧ q.isStruct = true ∧
      cycle.IsChain m.Embeds := by
  have htold := (of_told (t := t) h.truthful).2
  have hfirst := (of_told (t := t) (@Asked.fresh target m).truthful).2
  refine ⟨fun fuel hfuel ↦ compute_eq_of hfuel s, ?_, ?_, fun cycle hcycle ↦ ?_⟩
  · generalize (s.of m t).1 = a at htold
    generalize (Layouts.of { target } m t).1 = b at hfirst
    cases a with
    | ok l =>
      cases b with
      | ok l' => exact congrArg Except.ok (htold.unique hfirst)
      | error e => exact absurd htold (Explains.not_laidOut hfirst l)
    | error e =>
      cases b with
      | ok l => exact absurd hfirst (Explains.not_laidOut htold l)
      | error e' => exact congrArg Except.error (Explains.reason_eq htold hfirst)
  · rw [← @exists_laidOut_iff m target t]
    generalize (s.of m t).1 = a at htold
    cases a with
    | ok l => exact iff_of_true ⟨l, rfl⟩ ⟨l, htold⟩
    | error e => exact iff_of_false (by rintro ⟨l, hl⟩; cases hl) (not_exists.mpr (Explains.not_laidOut htold))
  · rw [hcycle] at htold
    obtain ⟨q, steps, rfl, hchain, -⟩ := htold
    obtain ⟨r, ⟨fields, hfields, -⟩, -⟩ :=
      TransGen.head'_iff.mp (TransGen.mono (fun _ _ ↦ Reaches.embeds) _ _ (transGen_of_cycle hchain))
    exact ⟨q, steps, rfl, Module.isStruct_of_fields? hfields, hchain.imp fun _ _ ↦ Reaches.embeds⟩

end

def ringModule (later : Option (List Ty)) : Module where
  name := "ring"
  structs := #[⟨"A", some [.i32, .struct 1 "B"]⟩, ⟨"B", some [.struct 0 "A"]⟩, ⟨"Later", later⟩]
  liveStructs := [0, 1, 2]

/-- What is remembered after the third struct and the first have been asked for. -/
def ringAsked : Layouts :=
  ((Layouts.of {} (ringModule none) (.struct 2 "Later")).2.of (ringModule none) (.struct 0 "A")).2

/-- The cycle that was met first is remembered, and is of the kind of the one that a first question meets. The body that
came later counts. -/
theorem answers_timeless_ring : Asked .host (ringModule (some [.i64])) ringAsked ∧
    (ringAsked.of (ringModule (some [.i64])) (.struct 1 "B")).1 =
      .error (.recursive [.struct 0 "A", .struct 1 "B", .struct 0 "A"]) ∧
    (Layouts.of {} (ringModule (some [.i64])) (.struct 1 "B")).1.mapError LayoutError.reason =
      .error (LayoutError.recursive []).reason ∧
    ∀ r, ReflTransGen (ringModule (some [.i64])).Embeds (.struct 2 "Later") r → r.isStored = true := by
  have hasked : Asked .host (ringModule (some [.i64])) ringAsked :=
    .bodySet (t := .struct 2 "Later") (.asked _ (.asked _ (.fresh (ringModule none)))) rfl
  have hring : (ringAsked.of (ringModule (some [.i64])) (.struct 1 "B")).1 =
      .error (.recursive [.struct 0 "A", .struct 1 "B", .struct 0 "A"]) := by decide +kernel
  obtain ⟨-, hsame, -, -⟩ := answers_timeless (t := .struct 1 "B") hasked
  obtain ⟨-, -, hfound, -⟩ := answers_timeless (t := .struct 2 "Later") hasked
  have hlater : (ringAsked.of (ringModule (some [.i64])) (.struct 2 "Later")).1 = .ok ⟨8, 8, [0], [8]⟩ :=
    by decide +kernel
  exact ⟨hasked, hring, by rw [← hsame, hring]; rfl, fun r hr ↦ (hfound.mp ⟨_, hlater⟩ r hr).1⟩

end Layouts

end CilSsa.Ssa

