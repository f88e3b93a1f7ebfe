import Mathlib.Algebra.BigOperators.Group.Finset.Basic
import Mathlib.Algebra.Order.BigOperators.Group.Finset
import CilSsa.Ssa.Dominance

/-! The sweeps that find immediate dominators settle: every place only ever moves up the tree, and never past one
that is on all ways to it. -/

namespace CilSsa.Ssa.DomTree

/-- The parent of a place, if it has got one. The first place is its own parent. -/
def parent (A : Array (Option Nat)) (b : Nat) : Option Nat := A.getD b none

/-- Place `a` is `b` or on the way from `b` up to the first place. -/
inductive Up (A : Array (Option Nat)) (a : Nat) : Nat → Prop
  | refl : Up A a a
  | step {b c : Nat} : parent A b = some c → c ≠ b → Up A a c → Up A a b

/-- Parents lie before their children, and have parents themselves. -/
structure Tree (A : Array (Option Nat)) : Prop where
  root : parent A 0 = some 0
  before : ∀ {b c : Nat}, parent A b = some c → b ≠ 0 → c < b
  closed : ∀ {b c : Nat}, parent A b = some c → (parent A c).isSome

section tree

variable {A : Array (Option Nat)} {a b c d e p : Nat}

theorem Up.trans (h : Up A a b) (h' : Up A b c) : Up A a c := by
  induction h' with
  | refl => exact h
  | step hp hne _ ih => exact .step hp hne ih

theorem Up.of_parent (h : Up A a b) (hne : a ≠ b) (hp : parent A b = some c) : Up A a c := by
  cases h with
  | refl => exact absurd rfl hne
  | step hp' _ hup => rwa [Option.some.inj (hp.symm.trans hp')]

theorem up_parent (hp : parent A b = some c) : Up A c b := by
  by_cases hne : c = b
  · exact hne ▸ .refl
  · exact .step hp hne .refl

variable (hA : Tree A)

include hA

theorem Tree.le (h : parent A b = some c) : c ≤ b := by
  by_cases hb : b = 0
  · rw [hb, hA.root] at h
    have := Option.some.inj h
    omega
  · exact (hA.before h hb).le

theorem Up.le (h : Up A a b) : a ≤ b := by
  induction h with
  | refl => exact le_rfl
  | step hp _ _ ih => exact ih.trans (hA.le hp)

theorem Up.antisymm (h : Up A a b) (h' : Up A b a) : a = b := le_antisymm (h.le hA) (h'.le hA)

theorem Up.isSome (h : Up A a b) (hb : (parent A b).isSome) : (parent A a).isSome := by
  induction h with
  | refl => exact hb
  | step hp _ _ ih => exact ih (hA.closed hp)

/-- The meeting point of two places lies above both, and below all that does. -/
theorem meet_spec (fuel : Nat) (ha : (parent A a).isSome) (hb : (parent A b).isSome) (hfuel : a + b < fuel) :
    Up A (meet A fuel a b) a ∧ Up A (meet A fuel a b) b ∧ ∀ e, Up A e a → Up A e b → Up A e (meet A fuel a b) := by
  induction fuel generalizing a b with
  | zero => omega
  | succ fuel ih =>
    rw [meet]
    split
    · rename_i heq
      subst heq
      exact ⟨.refl, .refl, fun e he _ ↦ he⟩
    · rename_i hne
      split
      · rename_i hlt
        obtain ⟨c, hc⟩ := Option.isSome_iff_exists.mp ha
        have hca : c < a := hA.before hc (by omega)
        have hget : (A.getD a none).getD 0 = c := by rw [← parent, hc, Option.getD_some]
        rw [hget]
        obtain ⟨h1, h2, h3⟩ := ih (hA.closed hc) hb (by omega)
        refine ⟨h1.trans (up_parent hc), h2, fun e he he' ↦ h3 e (he.of_parent ?_ hc) he'⟩
        have := he'.le hA
        omega
      · obtain ⟨c, hc⟩ := Option.isSome_iff_exists.mp hb
        have hcb : c < b := hA.before hc (by omega)
        have hget : (A.getD b none).getD 0 = c := by rw [← parent, hc, Option.getD_some]
        rw [hget]
        obtain ⟨h1, h2, h3⟩ := ih ha (hA.closed hc) (by omega)
        refine ⟨h1, h2.trans (up_parent hc), fun e he he' ↦ h3 e he (he'.of_parent ?_ hc)⟩
        have := he.le hA
        omega

end tree

/-- `d` lies above all places of a list that have parents, and below all that does. -/
structure Common (A : Array (Option Nat)) (ps : List Nat) (d : Nat) : Prop where
  isSome : (parent A d).isSome
  above : ∀ p ∈ ps, (parent A p).isSome → Up A d p
  greatest : ∀ e, (∀ p ∈ ps, (parent A p).isSome → Up A e p) → Up A e d

section suggest

variable {A : Array (Option Nat)} {ps : List Nat} {d p : Nat}

theorem suggest_append (A : Array (Option Nat)) (ps : List Nat) (p : Nat) :
    suggest A (ps ++ [p]) = if (parent A p).isNone then suggest A ps else match suggest A ps with
      | none => some p
      | some d => some (meet A (p + d + 1) p d) := by
  rw [suggest, List.foldl_append]
  rfl

theorem suggest_none (h : suggest A ps = none) : ∀ p ∈ ps, parent A p = none := by
  induction ps using List.reverseRecOn with
  | nil => exact nofun
  | append_singleton ps q ih =>
    rw [suggest_append] at h
    split at h
    · rename_i hq
      intro p hp
      rcases List.mem_append.mp hp with hp | hp
      · exact ih h p hp
      · rw [List.mem_singleton.mp hp]
        exact Option.isNone_iff_eq_none.mp hq
    · split at h <;> cases h

theorem suggest_some (hA : Tree A) (h : suggest A ps = some d) : Common A ps d := by
  induction ps using List.reverseRecOn generalizing d with
  | nil => cases h
  | append_singleton ps q ih =>
    rw [suggest_append] at h
    split at h
    · rename_i hq
      have hd := ih h
      refine ⟨hd.isSome, fun p hp hs ↦ ?_, fun e he ↦ hd.greatest e fun p hp ↦ he p (List.mem_append_left _ hp)⟩
      rcases List.mem_append.mp hp with hp | hp
      · exact hd.above p hp hs
      · rw [List.mem_singleton.mp hp, Option.isNone_iff_eq_none.mp hq] at hs
        cases hs
    · rename_i hq
      have hq : (parent A q).isSome := Option.isSome_iff_ne_none.mpr (by simpa using hq)
      split at h <;> cases h
      · rename_i hnone
        refine ⟨hq, fun p hp hs ↦ ?_, fun e he ↦ he q (by simp) hq⟩
        rcases List.mem_append.mp hp with hp | hp
        · rw [suggest_none hnone p hp] at hs
          cases hs
        · exact List.mem_singleton.mp hp ▸ .refl
      · rename_i c hc
        have hcommon := ih hc
        obtain ⟨h1, h2, h3⟩ := meet_spec hA (q + c + 1) hq hcommon.isSome (by omega)
        refine ⟨h1.isSome hA hq, fun p hp hs ↦ ?_, fun e he ↦ h3 e (he q (by simp) hq) ?_⟩
        · rcases List.mem_append.mp hp with hp | hp
          · exact h2.trans (hcommon.above p hp hs)
          · exact List.mem_singleton.mp hp ▸ h1
        · exact hcommon.greatest e fun p hp ↦ he p (List.mem_append_left _ hp)

end suggest

def update (A : Array (Option Nat)) (ps : List Nat) (b : Nat) : Array (Option Nat) :=
  match suggest A ps with
  | none => A
  | some d => A.set! b (some d)

section set

variable {A B : Array (Option Nat)} {a b c d e n p y : Nat}

theorem parent_set (hb : b < A.size) (y : Nat) :
    parent (A.set! b (some e)) y = if y = b then some e else parent A y := by
  unfold parent
  rw [Array.set!_eq_setIfInBounds, Array.getD_eq_getD_getElem?, Array.getD_eq_getD_getElem?,
    Array.getElem?_setIfInBounds]
  by_cases h : b = y
  · rw [if_pos h, if_pos h.symm, if_pos (h ▸ hb)]
    rfl
  · rw [if_neg h, if_neg (Ne.symm h)]

theorem Tree.set (hA : Tree A) (hb : b < A.size) (hb0 : b ≠ 0) (he : e < b) (hs : (parent A e).isSome) :
    Tree (A.set! b (some e)) := by
  refine ⟨?_, ?_, ?_⟩
  · rw [parent_set hb, if_neg (Ne.symm hb0), hA.root]
  · intro x c hc hx
    rw [parent_set hb] at hc
    split at hc
    · cases hc
      omega
    · exact hA.before hc hx
  · intro x c hc
    have hkeep : ∀ y, (parent A y).isSome → (parent (A.set! b (some e)) y).isSome := by
      intro y hy
      rw [parent_set hb]
      split
      · rfl
      · exact hy
    rw [parent_set hb] at hc
    split at hc
    · cases hc
      exact hkeep _ hs
    · exact hkeep _ (hA.closed hc)

theorem Up.congr (hA : Tree A) (hp : ∀ y ≤ p, parent B y = parent A y) (h : Up A a p) : Up B a p := by
  induction h with
  | refl => exact .refl
  | step hpar hne _ ih =>
    refine .step ((hp _ le_rfl).trans hpar) hne (ih fun y hy ↦ hp y (hy.trans (hA.le hpar)))

theorem Up.of_set (hA : Tree A) (hb : b < A.size) (he : (parent A e).isSome)
    (hmove : ∀ d, parent A b = some d → Up A e d) (hp : (parent A p).isSome) (h : Up (A.set! b (some e)) a p) :
    Up A a p := by
  induction h with
  | refl => exact .refl
  | @step x c hpar hne _ ih =>
    rw [parent_set hb] at hpar
    split at hpar
    · rename_i hx
      cases hpar
      subst hx
      obtain ⟨d, hd⟩ := Option.isSome_iff_exists.mp hp
      exact ((ih he).trans (hmove d hd)).trans (up_parent hd)
    · exact .step hpar hne (ih (hA.closed hpar))

end set

/-- `B` is what the parents were when place `b` got its present one, in sweeps that are now before place `pos`. -/
structure Since (ps : List Nat) (A : Array (Option Nat)) (pos b : Nat) (B : Array (Option Nat)) : Prop where
  tree : Tree B
  value : suggest B ps = parent A b
  kept : ∀ p, (parent B p).isSome → (parent A p).isSome
  fewer : ∀ p a, (parent B p).isSome → Up A a p → Up B a p
  before : ∀ y < b, (parent B y).isSome
  same : ∀ y < b, pos ≤ y ∨ b < pos → parent A y = parent B y
  moved : ∀ y < b, ∀ d, parent B y = some d → ∃ c, parent A y = some c ∧ Up A c d

/-- What holds within a sweep before place `pos`. -/
structure Sweeping (preds : List (List Nat)) (A : Array (Option Nat)) (pos : Nat) : Prop where
  tree : Tree A
  size : A.size = preds.length
  before : ∀ y < pos, y < preds.length → (parent A y).isSome
  since : ∀ b ps, preds[b]? = some ps → b ≠ 0 → (parent A b).isSome → ∃ B, Since ps A pos b B

def Ordered (preds : List (List Nat)) : Prop := ∀ b ps, preds[b]? = some ps → b ≠ 0 → ∃ p ∈ ps, p < b

section sweep

variable {preds : List (List Nat)} {ps : List Nat} {A B : Array (Option Nat)} {b d e p pos : Nat}

theorem Since.above (hs : Since ps A pos b B) (hp : p < b) (hd : Up B d p) (he : Up A e p) (hle : e ≤ d) :
    Up A e d := by
  induction hd with
  | refl => exact he
  | @step q c hpar hne hup ih =>
    obtain ⟨c', hc', hup'⟩ := hs.moved q hp c hpar
    have hq : q ≠ 0 := by
      rintro rfl
      rw [hs.tree.root] at hpar
      exact hne (Option.some.inj hpar).symm
    have hcq := hs.tree.before hpar hq
    have hdc := hup.le hs.tree
    exact ih (by omega) ((he.of_parent (by omega) hc').trans hup')

theorem Sweeping.rises (h : Sweeping preds A pos) (hord : Ordered preds) (hps : preds[pos]? = some ps) (h0 : pos ≠ 0)
    (he : suggest A ps = some e) (hd : parent A pos = some d) : Up A e d := by
  obtain ⟨B, hB⟩ := h.since pos ps hps h0 (by rw [hd]; rfl)
  have hnow := suggest_some h.tree he
  have hthen := suggest_some hB.tree (hB.value.trans hd)
  have hle : e ≤ d := by
    refine (hthen.greatest e fun p hp hset ↦ ?_).le hB.tree
    exact hB.fewer p e hset (hnow.above p hp (hB.kept p hset))
  obtain ⟨p, hp, hlt⟩ := hord pos ps hps h0
  have hset := hB.before p hlt
  exact hB.above hlt (hthen.above p hp hset) (hnow.above p hp (hB.kept p hset)) hle

theorem Sweeping.suggests (h : Sweeping preds A pos) (hord : Ordered preds) (hps : preds[pos]? = some ps)
    (h0 : pos ≠ 0) : ∃ e, suggest A ps = some e ∧ e < pos := by
  obtain ⟨p, hp, hlt⟩ := hord pos ps hps h0
  have hlen := (List.getElem?_eq_some_iff.mp hps).1
  have hset := h.before p hlt (by omega)
  cases he : suggest A ps with
  | none =>
    rw [suggest_none he p hp] at hset
    cases hset
  | some e =>
    have := ((suggest_some h.tree he).above p hp hset).le h.tree
    exact ⟨e, rfl, by omega⟩

theorem Sweeping.update (h : Sweeping preds A pos) (hord : Ordered preds) (hps : preds[pos]? = some ps) (h0 : pos ≠ 0) :
    Sweeping preds (update A ps pos) (pos + 1) := by
  obtain ⟨e, he, hlt⟩ := h.suggests hord hps h0
  have hb : pos < A.size := h.size ▸ (List.getElem?_eq_some_iff.mp hps).1
  have hset := (suggest_some h.tree he).isSome
  have hmove : ∀ d, parent A pos = some d → Up A e d := fun d hd ↦ h.rises hord hps h0 he hd
  have hA := h.tree
  have hpar := parent_set (e := e) hb
  have hupdate : DomTree.update A ps pos = A.set! pos (some e) := by simp only [DomTree.update, he]
  rw [hupdate]
  have hkept : ∀ y, (parent A y).isSome → (parent (A.set! pos (some e)) y).isSome := by
    intro y hy
    rw [hpar]
    split
    · rfl
    · exact hy
  have hbelow : ∀ y < pos, ∀ a, Up A a y → Up (A.set! pos (some e)) a y := by
    intro y hy a hup
    refine hup.congr hA fun x hx ↦ ?_
    rw [hpar, if_neg (by omega)]
  refine ⟨hA.set hb h0 hlt hset, by simpa using h.size, ?_, ?_⟩
  · intro y hy hlen
    rw [hpar]
    split
    · rfl
    · exact h.before y (by omega) hlen
  · intro b qs hqs hb0 hbset
    by_cases hbp : b = pos
    · -- this place got its parent just now
      subst hbp
      obtain rfl : ps = qs := Option.some.inj (hps.symm.trans hqs)
      refine ⟨A, hA, ?_, hkept, fun p a hp hup ↦ hup.of_set hA hb hset hmove hp, ?_, ?_, ?_⟩
      · rw [hpar, if_pos rfl, he]
      · intro y hy
        exact h.before y hy (by have := h.size; omega)
      · intro y hy _
        rw [hpar, if_neg (by omega)]
      · intro y hy d hd
        refine ⟨d, ?_, .refl⟩
        rw [hpar, if_neg (by omega), hd]
    · rw [hpar, if_neg hbp] at hbset
      obtain ⟨B, hB⟩ := h.since b qs hqs hb0 hbset
      refine ⟨B, hB.tree, ?_, fun p hp ↦ hkept p (hB.kept p hp), fun p a hp hup ↦ ?_, hB.before, ?_, ?_⟩
      · rw [hpar, if_neg hbp, hB.value]
      · exact hB.fewer p a hp (hup.of_set hA hb hset hmove (hB.kept p hp))
      · intro y hy hor
        rw [hpar, if_neg (by omega)]
        exact hB.same y hy (by omega)
      · intro y hy d hd
        have hd0 : d ≤ y := hB.tree.le hd
        by_cases hyp : y = pos
        · -- `pos` still had the parent that it had in `B`
          subst hyp
          have hAd : parent A y = some d := (hB.same y hy (.inl le_rfl)).trans hd
          have hdy := hA.before hAd h0
          exact ⟨e, by rw [hpar, if_pos rfl], hbelow d hdy e (hmove d hAd)⟩
        · by_cases hlow : y < pos
          · obtain ⟨c, hc, hup⟩ := hB.moved y hy d hd
            exact ⟨c, by rw [hpar, if_neg hyp, hc], hbelow d (by omega) c hup⟩
          · refine ⟨d, ?_, .refl⟩
            rw [hpar, if_neg hyp, hB.same y hy (.inl (by omega)), hd]

theorem Sweeping.again (h : Sweeping preds A preds.length) : Sweeping preds A 1 := by
  refine ⟨h.tree, h.size, fun y hy hlen ↦ h.before y hlen hlen, fun b ps hps hb0 hset ↦ ?_⟩
  obtain ⟨B, hB⟩ := h.since b ps hps hb0 hset
  have hlen := (List.getElem?_eq_some_iff.mp hps).1
  exact ⟨B, hB.tree, hB.value, hB.kept, hB.fewer, hB.before, fun y hy _ ↦ hB.same y hy (.inr hlen), hB.moved⟩

/-- How far all places are from the first; those without a parent are farthest. -/
def distance (n : Nat) (A : Array (Option Nat)) : Nat := ∑ b ∈ Finset.range n, (parent A b).getD n

theorem distance_set_lt {n : Nat} (hb : b < A.size) (hn : A.size = n) (h : e < (parent A b).getD n) :
    distance n (A.set! b (some e)) < distance n A := by
  refine Finset.sum_lt_sum (fun y _ ↦ ?_) ⟨b, Finset.mem_range.mpr (by omega), ?_⟩
  · rw [parent_set hb]
    split
    · rename_i hy
      rw [hy]
      exact h.le
    · exact le_rfl
  · rw [parent_set hb, if_pos rfl]
    exact h

theorem Sweeping.distance_update (h : Sweeping preds A pos) (hord : Ordered preds) (hps : preds[pos]? = some ps)
    (h0 : pos ≠ 0) : DomTree.update A ps pos = A ∧ parent A pos = suggest A ps ∨
      distance preds.length (DomTree.update A ps pos) < distance preds.length A := by
  obtain ⟨e, he, hlt⟩ := h.suggests hord hps h0
  have hlen := (List.getElem?_eq_some_iff.mp hps).1
  have hb : pos < A.size := h.size ▸ hlen
  have hupdate : DomTree.update A ps pos = A.set! pos (some e) := by simp only [DomTree.update, he]
  rw [hupdate, he]
  by_cases hsame : parent A pos = some e
  · refine .inl ⟨?_, hsame⟩
    have hget : A[pos]? = some (some e) := by
      simp only [parent, Array.getD_eq_getD_getElem?, Array.getElem?_eq_getElem hb, Option.getD_some] at hsame
      rw [Array.getElem?_eq_getElem hb, hsame]
    apply Array.ext_getElem?
    intro i
    rw [Array.set!_eq_setIfInBounds, Array.getElem?_setIfInBounds]
    split
    · rename_i hi
      subst hi
      exact hget.symm
    · rfl
  · refine .inr (distance_set_lt hb h.size ?_)
    cases hd : parent A pos with
    | none => exact hlt.trans (by simpa using hlen)
    | some d =>
      have hle := (h.rises hord hps h0 he hd).le h.tree
      have hne : e ≠ d := by
        rintro rfl
        exact hsame hd
      rw [Option.getD_some]
      omega

def sweepFrom (pos : Nat) (rest : List (List Nat)) (A : Array (Option Nat)) : Array (Option Nat) :=
  (rest.zipIdx pos).foldl (fun A (ps, b) ↦ DomTree.update A ps b) A

theorem sweepFrom_cons (pos : Nat) (ps : List Nat) (rest : List (List Nat)) (A : Array (Option Nat)) :
    sweepFrom pos (ps :: rest) A = sweepFrom (pos + 1) rest (DomTree.update A ps pos) := by
  simp only [sweepFrom, List.zipIdx_cons, List.foldl_cons]

theorem drop_eq_cons {preds rest : List (List Nat)} {pos : Nat} {ps : List Nat} (h : preds.drop pos = ps :: rest) :
    preds[pos]? = some ps ∧ preds.drop (pos + 1) = rest := by
  constructor
  · rw [← List.head?_drop, h, List.head?_cons]
  · rw [← List.drop_drop, h, List.drop_one, List.tail_cons]

theorem sweep_eq (preds : List (List Nat)) (A : Array (Option Nat)) : sweep preds A = sweepFrom 1 (preds.drop 1) A := by
  unfold sweep sweepFrom
  cases preds with
  | nil => rfl
  | cons ps preds => rfl

/-- A sweep keeps its invariant; it changes nothing only if every place has the parent that is suggested. -/
theorem Sweeping.sweepFrom {rest : List (List Nat)} (h : Sweeping preds A pos) (hord : Ordered preds) (h0 : pos ≠ 0)
    (hrest : preds.drop pos = rest) :
    Sweeping preds (DomTree.sweepFrom pos rest A) (pos + rest.length) ∧
      ((DomTree.sweepFrom pos rest A = A ∧ ∀ b ps, pos ≤ b → preds[b]? = some ps → parent A b = suggest A ps) ∨
        distance preds.length (DomTree.sweepFrom pos rest A) < distance preds.length A) := by
  induction rest generalizing A pos with
  | nil =>
    refine ⟨h, .inl ⟨rfl, fun b ps hb hps ↦ ?_⟩⟩
    have hlen := List.drop_eq_nil_iff.mp hrest
    rw [List.getElem?_eq_none (by omega)] at hps
    cases hps
  | cons ps rest ih =>
    obtain ⟨hps, hrest'⟩ := drop_eq_cons hrest
    obtain ⟨hsweep, hor⟩ := ih (h.update hord hps h0) (by omega) hrest'
    rw [sweepFrom_cons]
    refine ⟨by rwa [List.length_cons, Nat.add_comm rest.length, ← Nat.add_assoc], ?_⟩
    rcases h.distance_update hord hps h0 with ⟨heq, hval⟩ | hlt
    · rw [heq] at hor ⊢
      rcases hor with ⟨hsame, hall⟩ | hlt
      · refine .inl ⟨hsame, fun b qs hb hqs ↦ ?_⟩
        by_cases hbp : b = pos
        · subst hbp
          rw [hval, Option.some.inj (hqs.symm.trans hps)]
        · exact hall b qs (by omega) hqs
      · exact .inr hlt
    · refine .inr ?_
      rcases hor with ⟨hsame, -⟩ | hlt'
      · rwa [hsame]
      · exact hlt'.trans hlt

/-- Parents that a sweep would not change. -/
structure Settled (preds : List (List Nat)) (A : Array (Option Nat)) : Prop where
  tree : Tree A
  size : A.size = preds.length
  fixed : ∀ b ps, b ≠ 0 → preds[b]? = some ps → parent A b = suggest A ps

theorem Sweeping.settle {fuel : Nat} (h : Sweeping preds A 1) (hord : Ordered preds) (hne : preds ≠ [])
    (hfuel : distance preds.length A < fuel) : Settled preds (settle preds fuel A) := by
  induction fuel generalizing A with
  | zero => omega
  | succ fuel ih =>
    obtain ⟨hsweep, hor⟩ := h.sweepFrom hord (by omega) rfl
    have hlen : 1 + (preds.drop 1).length = preds.length := by
      have := List.length_pos_iff.mpr hne
      rw [List.length_drop]
      omega
    rw [hlen, ← sweep_eq] at hsweep
    rw [← sweep_eq] at hor
    rw [DomTree.settle]
    split
    · rename_i heq
      rcases hor with ⟨-, hall⟩ | hlt
      · exact ⟨h.tree, h.size, fun b ps hb hps ↦ hall b ps (by omega) hps⟩
      · rw [heq] at hlt
        omega
    · rename_i hdiff
      rcases hor with ⟨hsame, -⟩ | hlt
      · exact absurd hsame hdiff
      · exact ih hsweep.again (by omega)

theorem Sweeping.start (hne : preds ≠ []) :
    Sweeping preds ((Array.replicate preds.length (none : Option Nat)).setIfInBounds 0 (some 0)) 1 := by
  have hpos := List.length_pos_iff.mpr hne
  have hpar : ∀ y, parent ((Array.replicate preds.length (none : Option Nat)).setIfInBounds 0 (some 0)) y =
      if y = 0 then some 0 else none := by
    intro y
    unfold parent
    rw [Array.getD_eq_getD_getElem?, Array.getElem?_setIfInBounds, Array.getElem?_replicate]
    by_cases hy : y = 0
    · simp [hy, hpos]
    · rw [if_neg (Ne.symm hy), if_neg hy]
      split <;> rfl
  refine ⟨⟨by simp [hpar], ?_, ?_⟩, by simp, ?_, ?_⟩
  · intro b c hc hb
    rw [hpar, if_neg hb] at hc
    cases hc
  · intro b c hc
    rw [hpar] at hc
    split at hc <;> cases hc
    simp [hpar]
  · intro y hy _
    rw [hpar, if_pos (by omega)]
    rfl
  · intro b ps _ hb hset
    rw [hpar, if_neg hb] at hset
    cases hset

theorem distance_le (n : Nat) (hA : ∀ b < n, (parent A b).getD n ≤ n) : distance n A ≤ n * n := by
  refine (Finset.sum_le_card_nsmul _ _ n fun b hb ↦ hA b (Finset.mem_range.mp hb)).trans ?_
  simp

theorem Sweeping.distance_start (hne : preds ≠ []) : distance preds.length
    ((Array.replicate preds.length (none : Option Nat)).setIfInBounds 0 (some 0)) < preds.length *
    preds.length + 1 := by
  have h := Sweeping.start hne
  refine Nat.lt_succ_of_le (distance_le _ fun b hb ↦ ?_)
  cases hp : parent ((Array.replicate preds.length (none : Option Nat)).setIfInBounds 0 (some 0)) b with
  | none => exact le_rfl
  | some c => exact (h.tree.le hp).trans hb.le

theorem settled (hord : Ordered preds) (hne : preds ≠ []) :
    Settled preds (DomTree.settle preds (preds.length * preds.length + 1)
      ((Array.replicate preds.length (none : Option Nat)).setIfInBounds 0 (some 0))) := by
  exact (Sweeping.start hne).settle hord hne (Sweeping.distance_start hne)

theorem Settled.isSome (h : Settled preds A) (hord : Ordered preds) {b : Nat} (hb : b < preds.length) :
    (parent A b).isSome := by
  induction b using Nat.strong_induction_on with
  | _ b ih =>
    by_cases h0 : b = 0
    · rw [h0, h.tree.root]
      rfl
    · have hps := List.getElem?_eq_getElem hb
      obtain ⟨p, hp, hlt⟩ := hord b _ hps h0
      rw [h.fixed b _ h0 hps]
      cases he : suggest A preds[b] with
      | some e => rfl
      | none =>
        have := ih p hlt (by omega)
        rw [suggest_none he p hp] at this
        cases this

theorem Settled.edge (h : Settled preds A) (hps : preds[b]? = some ps) (hb : b ≠ 0) (hp : p ∈ ps)
    (hset : (parent A p).isSome) (hd : parent A b = some d) : Up A d p :=
  (suggest_some h.tree ((h.fixed b ps hb hps).symm.trans hd)).above p hp hset

end sweep

/-- What all ways to a place go through, with `P a b` for `a` on all ways to `b`: to the first place there is a way that
goes nowhere else, and what is on all ways to another place is on all ways to its predecessors. -/
structure Through (preds : List (List Nat)) (P : Nat → Nat → Prop) : Prop where
  first : ∀ {a : Nat}, P a 0 → a = 0
  pred : ∀ {a b p : Nat} {ps : List Nat}, preds[b]? = some ps → b ≠ 0 → p ∈ ps → P a b → a ≠ b → P a p

def Keeps (P : Nat → Nat → Prop) (A : Array (Option Nat)) : Prop :=
  ∀ b d, b ≠ 0 → parent A b = some d → ∀ a, P a b → a ≠ b → P a d

section keeps

variable {preds : List (List Nat)} {ps : List Nat} {P : Nat → Nat → Prop} {A : Array (Option Nat)} {a b e p pos : Nat}

theorem Keeps.up (hK : Keeps P A) (hP : Through preds P) (hA : Tree A) (hb : (parent A b).isSome) (h : P a b) :
    Up A a b := by
  induction b using Nat.strong_induction_on with
  | _ b ih =>
    by_cases h0 : b = 0
    · subst h0
      rw [hP.first h]
      exact .refl
    · by_cases hab : a = b
      · exact hab ▸ .refl
      · obtain ⟨d, hd⟩ := Option.isSome_iff_exists.mp hb
        exact (ih d (hA.before hd h0) (hA.closed hd) (hK b d h0 hd a h hab)).trans (up_parent hd)

theorem Keeps.above (hK : Keeps P A) (hA : Tree A) (he : Up A e p) (h : P a p) :
    P a e ∨ Up A a p ∧ Up A e a ∧ a ≠ e := by
  induction he with
  | refl => exact .inl h
  | @step b c hpar hne hup ih =>
    have hb : b ≠ 0 := by
      rintro rfl
      rw [hA.root] at hpar
      exact hne (Option.some.inj hpar).symm
    by_cases hab : a = b
    · subst hab
      have hlt := hA.before hpar hb
      have hle := hup.le hA
      exact .inr ⟨.refl, .step hpar hne hup, by omega⟩
    · rcases ih (hK b c hb hpar a h hab) with h | ⟨hac, hea, hne⟩
      · exact .inl h
      · exact .inr ⟨hac.trans (up_parent hpar), hea, hne⟩

theorem Keeps.update (hK : Keeps P A) (hP : Through preds P) (h : Sweeping preds A pos) (hord : Ordered preds)
    (hps : preds[pos]? = some ps) (h0 : pos ≠ 0) : Keeps P (update A ps pos) := by
  obtain ⟨e, he, -⟩ := h.suggests hord hps h0
  have hlen := (List.getElem?_eq_some_iff.mp hps).1
  have hcommon := suggest_some h.tree he
  intro b d hb hd a hab hne
  rw [DomTree.update, he] at hd
  dsimp only at hd
  rw [parent_set (h.size ▸ hlen)] at hd
  split at hd
  · rename_i hbp
    subst hbp
    cases hd
    by_contra hnot
    -- else it lies strictly between `e` and every predecessor, and `e` is not the nearest
    have hbelow : ∀ p ∈ ps, (parent A p).isSome → Up A a p ∧ Up A e a ∧ a ≠ e := fun p hp hset ↦
      (hK.above h.tree (hcommon.above p hp hset) (hP.pred hps h0 hp hab hne)).resolve_left hnot
    have hup := hcommon.greatest a fun p hp hset ↦ (hbelow p hp hset).1
    obtain ⟨p, hp, hlt⟩ := hord b ps hps h0
    obtain ⟨-, hea, hae⟩ := hbelow p hp (h.before p hlt (by omega))
    exact hae (hup.antisymm h.tree hea)
  · exact hK b d hb hd a hab hne

theorem Keeps.sweepFrom {rest : List (List Nat)} (hK : Keeps P A) (hP : Through preds P) (h : Sweeping preds A pos)
    (hord : Ordered preds) (h0 : pos ≠ 0) (hrest : preds.drop pos = rest) : Keeps P (DomTree.sweepFrom pos rest A) := by
  induction rest generalizing A pos with
  | nil => exact hK
  | cons ps rest ih =>
    obtain ⟨hps, hrest'⟩ := drop_eq_cons hrest
    exact ih (hK.update hP h hord hps h0) (h.update hord hps h0) (by omega) hrest'

theorem Sweeping.sweep (h : Sweeping preds A 1) (hord : Ordered preds) (hne : preds ≠ []) :
    Sweeping preds (DomTree.sweep preds A) 1 := by
  have hsweep := (h.sweepFrom hord (by omega) rfl).1
  have hlen : 1 + (preds.drop 1).length = preds.length := by
    have := List.length_pos_iff.mpr hne
    rw [List.length_drop]
    omega
  rw [hlen, ← sweep_eq] at hsweep
  exact hsweep.again

theorem Keeps.settle {fuel : Nat} (hK : Keeps P A) (hP : Through preds P) (h : Sweeping preds A 1)
    (hord : Ordered preds) (hne : preds ≠ []) : Keeps P (DomTree.settle preds fuel A) := by
  induction fuel generalizing A with
  | zero => exact hK
  | succ fuel ih =>
    have hsweep : Keeps P (DomTree.sweep preds A) := by
      rw [sweep_eq]
      exact hK.sweepFrom hP h hord (by omega) rfl
    rw [DomTree.settle]
    split
    · exact hK
    · exact ih hsweep (h.sweep hord hne)

theorem keeps_start (P : Nat → Nat → Prop) (n : Nat) :
    Keeps P ((Array.replicate n (none : Option Nat)).setIfInBounds 0 (some 0)) := by
  intro b d hb hd
  rw [parent, Array.getD_eq_getD_getElem?, Array.getElem?_setIfInBounds_ne (Ne.symm hb), Array.getElem?_replicate] at hd
  split at hd <;> cases hd

end keeps

/-- The later of two places goes up until both are one. -/
inductive Meets (A : Array (Option Nat)) : Nat → Nat → Nat → Prop
  | one {a : Nat} : Meets A a a a
  | left {a b c d : Nat} : b < a → parent A a = some c → Meets A c b d → Meets A a b d
  | right {a b c d : Nat} : a < b → parent A b = some c → Meets A a c d → Meets A a b d

/-- The predecessors of a place that have parents meet one after the other. -/
inductive Suggests (A : Array (Option Nat)) : List Nat → Option Nat → Prop
  | nil : Suggests A [] none
  | skip {ps : List Nat} {s : Option Nat} {p : Nat} : Suggests A ps s → parent A p = none → Suggests A (ps ++ [p]) s
  | first {ps : List Nat} {p : Nat} : Suggests A ps none → (parent A p).isSome → Suggests A (ps ++ [p]) (some p)
  | meet {ps : List Nat} {p d c : Nat} : Suggests A ps (some d) → (parent A p).isSome → Meets A p d c →
      Suggests A (ps ++ [p]) (some c)

def assign (A : Array (Option Nat)) (b : Nat) : Option Nat → Array (Option Nat)
  | none => A
  | some d => A.set! b (some d)

/-- A sweep over the places from `pos` on, and whether it changed a parent. -/
inductive Sweeps : Nat → List (List Nat) → Array (Option Nat) → Array (Option Nat) → Bool → Prop
  | nil {pos : Nat} {A : Array (Option Nat)} : Sweeps pos [] A A false
  | cons {pos : Nat} {ps : List Nat} {rest : List (List Nat)} {A B : Array (Option Nat)} {s : Option Nat}
      {changed : Bool} : Suggests A ps s → Sweeps (pos + 1) rest (assign A pos s) B changed →
        Sweeps pos (ps :: rest) A B (decide (assign A pos s ≠ A) || changed)

/-- Sweeps until one changes nothing. -/
inductive Settles (preds : List (List Nat)) : Array (Option Nat) → Array (Option Nat) → Prop
  | done {A B : Array (Option Nat)} : Sweeps 1 (preds.drop 1) A B false → Settles preds A B
  | again {A B C : Array (Option Nat)} : Sweeps 1 (preds.drop 1) A B true → Settles preds B C → Settles preds A C

section ends

variable {preds : List (List Nat)} {ps : List Nat} {A : Array (Option Nat)} {a b pos fuel : Nat}

theorem meets_meet (hA : Tree A) (ha : (parent A a).isSome) (hb : (parent A b).isSome) (hfuel : a + b < fuel) :
    Meets A a b (meet A fuel a b) := by
  induction fuel generalizing a b with
  | zero => omega
  | succ fuel ih =>
    rw [meet]
    split
    · rename_i heq
      exact heq ▸ .one
    · rename_i hne
      split
      · rename_i hlt
        obtain ⟨c, hc⟩ := Option.isSome_iff_exists.mp ha
        have hca : c < a := hA.before hc (by omega)
        have hget : (A.getD a none).getD 0 = c := by rw [← parent, hc, Option.getD_some]
        rw [hget]
        exact .left hlt hc (ih (hA.closed hc) hb (by omega))
      · obtain ⟨c, hc⟩ := Option.isSome_iff_exists.mp hb
        have hcb : c < b := hA.before hc (by omega)
        have hget : (A.getD b none).getD 0 = c := by rw [← parent, hc, Option.getD_some]
        rw [hget]
        exact .right (by omega) hc (ih ha (hA.closed hc) (by omega))

theorem suggests_suggest (hA : Tree A) (ps : List Nat) : Suggests A ps (suggest A ps) := by
  induction ps using List.reverseRecOn with
  | nil => exact .nil
  | append_singleton ps p ih =>
    rw [suggest_append]
    split
    · rename_i hp
      exact .skip ih (Option.isNone_iff_eq_none.mp hp)
    · rename_i hp
      have hp : (parent A p).isSome := Option.isSome_iff_ne_none.mpr (by simpa using hp)
      cases hs : suggest A ps with
      | none => exact .first (hs ▸ ih) hp
      | some d =>
        have hd := (suggest_some hA hs).isSome
        exact .meet (hs ▸ ih) hp (meets_meet hA hp hd (by omega))

theorem assign_suggest (A : Array (Option Nat)) (ps : List Nat) (b : Nat) : assign A b (suggest A ps) =
    update A ps b := by
  unfold update
  cases suggest A ps <;> rfl

theorem Sweeping.sweeps {rest : List (List Nat)} (h : Sweeping preds A pos) (hord : Ordered preds) (h0 : pos ≠ 0)
    (hrest : preds.drop pos = rest) : ∃ changed, Sweeps pos rest A (DomTree.sweepFrom pos rest A) changed ∧
      (changed = false → DomTree.sweepFrom pos rest A = A) ∧
      (changed = true → distance preds.length (DomTree.sweepFrom pos rest A) < distance preds.length A) := by
  induction rest generalizing A pos with
  | nil => exact ⟨false, .nil, fun _ ↦ rfl, nofun⟩
  | cons ps rest ih =>
    obtain ⟨hps, hrest'⟩ := drop_eq_cons hrest
    obtain ⟨changed, hrun, hsame, hless⟩ := ih (h.update hord hps h0) (by omega) hrest'
    rw [← assign_suggest] at hrun
    rw [sweepFrom_cons]
    refine ⟨_, .cons (suggests_suggest h.tree ps) hrun, ?_⟩
    rw [assign_suggest]
    rcases h.distance_update hord hps h0 with ⟨heq, -⟩ | hlt
    · rw [heq] at hsame hless ⊢
      simpa using ⟨hsame, hless⟩
    · have hne : DomTree.update A ps pos ≠ A := by
        intro heq
        rw [heq] at hlt
        exact lt_irrefl _ hlt
      have hend : distance preds.length (DomTree.sweepFrom (pos + 1) rest (DomTree.update A ps pos)) <
          distance preds.length A := by
        cases changed with
        | false => rwa [hsame rfl]
        | true => exact (hless rfl).trans hlt
      simpa [hne] using hend

theorem Sweeping.settles {fuel : Nat} (h : Sweeping preds A 1) (hord : Ordered preds) (hne : preds ≠ [])
    (hfuel : distance preds.length A < fuel) : Settles preds A (DomTree.settle preds fuel A) := by
  induction fuel generalizing A with
  | zero => omega
  | succ fuel ih =>
    obtain ⟨changed, hrun, hsame, hless⟩ := h.sweeps hord (by omega) rfl
    rw [← sweep_eq] at hrun hsame hless
    rw [DomTree.settle]
    cases changed with
    | false =>
      rw [if_pos (hsame rfl)]
      exact .done (by rwa [hsame rfl] at hrun)
    | true =>
      have hlt := hless rfl
      rw [if_neg (fun heq ↦ by rw [heq] at hlt; exact lt_irrefl _ hlt)]
      exact .again hrun (ih (h.sweep hord hne) (by omega))

end ends

end CilSsa.Ssa.DomTree

