import Mathlib.Algebra.BigOperators.Group.Finset.Basic
import Mathlib.Algebra.Order.BigOperators.Group.Finset
import Mathlib.Data.List.Nodup
import CilSsa.Proofs.DominatorTree

namespace CilSsa.Ssa

section lists

variable {α : Type} [DecidableEq α] {l : List α} {a b c : α}

theorem pair_sublist_iff (hl : l.Nodup) : [a, b].Sublist l ↔ b ∈ l ∧ l.idxOf a < l.idxOf b := by
  induction l with
  | nil => simp
  | cons x l ih =>
    obtain ⟨hx, hl⟩ := List.nodup_cons.mp hl
    rw [List.sublist_cons_iff, ih hl]
    constructor
    · rintro (⟨hb, hlt⟩ | ⟨r, heq, hr⟩)
      · have hbx : x ≠ b := fun h ↦ hx (h ▸ hb)
        have hax : x ≠ a := by
          rintro rfl
          exact hx (List.idxOf_lt_length_iff.mp (hlt.trans (List.idxOf_lt_length_iff.mpr hb)))
        rw [List.idxOf_cons_ne _ hax, List.idxOf_cons_ne _ hbx]
        exact ⟨List.mem_cons_of_mem _ hb, Nat.succ_lt_succ hlt⟩
      · cases heq
        have hb := List.singleton_sublist.mp hr
        have hbx : a ≠ b := fun h ↦ hx (h ▸ hb)
        rw [List.idxOf_cons_self, List.idxOf_cons_ne _ hbx]
        exact ⟨List.mem_cons_of_mem _ hb, Nat.succ_pos _⟩
    · rintro ⟨hb, hlt⟩
      have hbx : x ≠ b := by
        rintro rfl
        rw [List.idxOf_cons_self] at hlt
        omega
      have hb := (List.mem_cons.mp hb).resolve_left (Ne.symm hbx)
      rw [List.idxOf_cons_ne _ hbx] at hlt
      by_cases hax : x = a
      · exact .inr ⟨[b], by rw [hax], List.singleton_sublist.mpr hb⟩
      · rw [List.idxOf_cons_ne _ hax] at hlt
        exact .inl ⟨hb, Nat.lt_of_succ_lt_succ hlt⟩

theorem pair_sublist_trans (hl : l.Nodup) (h : [a, b].Sublist l) (h' : [b, c].Sublist l) : [a, c].Sublist l := by
  rw [pair_sublist_iff hl] at h h' ⊢
  exact ⟨h'.1, h.2.trans h'.2⟩

theorem idxOf?_eq_some_iff {i : Nat} (hl : l.Nodup) : l.idxOf? a = some i ↔ l[i]? = some a := by
  constructor
  · intro h
    obtain ⟨hlt, hi, -⟩ := List.findIdx?_eq_some_iff_getElem.mp h
    rw [List.getElem?_eq_getElem hlt, eq_of_beq hi]
  · intro h
    obtain ⟨hlt, rfl⟩ := List.getElem?_eq_some_iff.mp h
    refine List.findIdx?_eq_some_iff_getElem.mpr ⟨hlt, by simp, fun j hj ↦ ?_⟩
    have hne : l[j] ≠ l[i] := fun heq ↦ by
      have := (hl.getElem_inj_iff).mp heq
      omega
    simpa using hne

omit [DecidableEq α] in
theorem place_unique (hl : l.Nodup) {i j : Nat} (hi : l[i]? = some a) (hj : l[j]? = some a) : i = j := by
  obtain ⟨hlt, hi⟩ := List.getElem?_eq_some_iff.mp hi
  obtain ⟨hlt', hj⟩ := List.getElem?_eq_some_iff.mp hj
  exact hl.getElem_inj_iff.mp (hi.trans hj.symm)

end lists

namespace Module

variable {m : Module} {f : Function} {b c : BlockId}

/-- Control can get from block `a` to another. -/
inductive Reaches (m : Module) (a : BlockId) : BlockId → Prop
  | refl : Reaches m a a
  | step {b c : BlockId} : Reaches m a b → some c ∈ m.successors b → Reaches m a c

/-- The blocks on a way from block `a` to another, last one first. -/
inductive Path (m : Module) (a : BlockId) : BlockId → List BlockId → Prop
  | refl : Path m a a [a]
  | step {b c : BlockId} {p : List BlockId} : Path m a b p → some c ∈ m.successors b → Path m a c (c :: p)

/-- Control can get to a block from the entry of a function that has one. -/
def FromEntry (m : Module) (f : Function) (b : BlockId) : Prop := f.isDeclaration = false ∧ m.Reaches (f.blockId 0) b

def OnEveryPath (m : Module) (f : Function) (a b : BlockId) : Prop := ∀ p, m.Path (f.blockId 0) b p → a ∈ p

/-- A function of the module with a body, in which all branches stay. -/
structure Confines (m : Module) (f : Function) : Prop where
  found : m.function? f.id = some f
  body : f.isDeclaration = false
  stays : ∀ b c, b.fn = f.id → some c ∈ m.successors b → c.fn = f.id

/-- What a walk adds to the blocks that are finished. -/
structure Walked (m : Module) (todo : List (Option BlockId)) (seen done : List BlockId)
    (r : List BlockId × List BlockId) (new : List BlockId) : Prop where
  finished : r.2 = new ++ done
  visited : ∀ b, b ∈ r.1 ↔ b ∈ seen ∨ b ∈ new
  nodup : new.Nodup
  fresh : ∀ b ∈ new, b ∉ seen
  origin : ∀ b ∈ new, some b ∈ todo ∨ ∃ p, [p, b].Sublist new ∧ some b ∈ m.successors p

theorem Walked.nil (todo : List (Option BlockId)) (acc : List BlockId × List BlockId) :
    Walked m todo acc.1 acc.2 acc [] :=
  ⟨rfl, by simp, List.nodup_nil, nofun, nofun⟩

theorem Walked.skip {todo : List (Option BlockId)} {seen done new : List BlockId} {r : List BlockId × List BlockId}
    (x : Option BlockId) (h : Walked m todo seen done r new) : Walked m (x :: todo) seen done r new :=
  ⟨h.finished, h.visited, h.nodup, h.fresh, fun b hb ↦ (h.origin b hb).imp_left (List.mem_cons_of_mem x)⟩

theorem walk_walked (fuel : Nat) (todo : List (Option BlockId)) (seen done : List BlockId) :
    ∃ new, Walked m todo seen done (m.walk fuel todo (seen, done)) new := by
  induction fuel generalizing todo seen done with
  | zero =>
    cases todo with
    | nil => exact ⟨[], .nil [] (seen, done)⟩
    | cons x todo => exact ⟨[], .nil (x :: todo) (seen, done)⟩
  | succ fuel ih =>
    cases todo with
    | nil => exact ⟨[], .nil [] (seen, done)⟩
    | cons x rest =>
      cases x with
      | none =>
        obtain ⟨new, h⟩ := ih rest seen done
        exact ⟨new, h.skip none⟩
      | some b =>
        rw [walk]
        split
        · obtain ⟨new, h⟩ := ih rest seen done
          exact ⟨new, h.skip (some b)⟩
        · rename_i hb
          have hb : b ∉ seen := by simpa using hb
          obtain ⟨inner, hin⟩ := ih (m.successors b) (b :: seen) done
          obtain ⟨outer, hout⟩ := ih rest (m.walk fuel (m.successors b) (b :: seen, done)).1
            (b :: (m.walk fuel (m.successors b) (b :: seen, done)).2)
          have hfresh : ∀ x ∈ outer, x ∉ seen ∧ x ≠ b ∧ x ∉ inner := by
            intro x hx
            have h := hout.fresh x hx
            rw [hin.visited] at h
            simp only [List.mem_cons] at h
            tauto
          refine ⟨outer ++ b :: inner, ?_, ?_, ?_, ?_, ?_⟩
          · rw [hout.finished, hin.finished, List.append_assoc, List.cons_append]
          · intro x
            rw [hout.visited, hin.visited]
            simp only [List.mem_append, List.mem_cons]
            tauto
          · refine List.nodup_append'.mpr ⟨hout.nodup, List.nodup_cons.mpr ⟨fun h ↦ ?_, hin.nodup⟩, ?_⟩
            · exact hin.fresh b h List.mem_cons_self
            · intro x hx hx'
              obtain ⟨-, hne, hni⟩ := hfresh x hx
              exact (List.mem_cons.mp hx').elim hne hni
          · intro x hx
            rcases List.mem_append.mp hx with hx | hx
            · exact (hfresh x hx).1
            · rcases List.mem_cons.mp hx with rfl | hx
              · exact hb
              · exact fun h ↦ hin.fresh x hx (List.mem_cons_of_mem b h)
          · intro x hx
            rcases List.mem_append.mp hx with hx | hx
            · rcases hout.origin x hx with h | ⟨p, hp, hedge⟩
              · exact .inl (List.mem_cons_of_mem _ h)
              · exact .inr ⟨p, hp.trans (List.sublist_append_left ..), hedge⟩
            · rcases List.mem_cons.mp hx with rfl | hx
              · exact .inl List.mem_cons_self
              · refine .inr ?_
                rcases hin.origin x hx with h | ⟨p, hp, hedge⟩
                · -- `x` is a successor of `b`, which stands before all that was found from it
                  refine ⟨b, List.Sublist.trans ?_ (List.sublist_append_right ..), h⟩
                  exact List.cons_sublist_cons.mpr (List.singleton_sublist.mpr hx)
                · exact ⟨p, (hp.trans (List.sublist_cons_self ..)).trans (List.sublist_append_right ..), hedge⟩

def unseen (m : Module) (blocks : Finset BlockId) (seen : List BlockId) : Nat :=
  ∑ b ∈ blocks \ seen.toFinset, (1 + (m.successors b).length)

theorem unseen_mono (m : Module) (blocks : Finset BlockId) {seen seen' : List BlockId} (h : ∀ b ∈ seen, b ∈ seen') :
    unseen m blocks seen' ≤ unseen m blocks seen := by
  refine Finset.sum_le_sum_of_subset (Finset.sdiff_subset_sdiff (Finset.Subset.refl _) fun b hb ↦ ?_)
  exact List.mem_toFinset.mpr (h b (List.mem_toFinset.mp hb))

theorem unseen_cons {blocks : Finset BlockId} {seen : List BlockId} (hb : b ∈ blocks) (hs : b ∉ seen) :
    unseen m blocks (b :: seen) + (1 + (m.successors b).length) = unseen m blocks seen := by
  unfold unseen
  have hmem : b ∈ blocks \ seen.toFinset := by simp [hb, hs]
  rw [List.toFinset_cons, Finset.sdiff_insert, Finset.sum_erase_add _ _ hmem]

theorem walk_complete {blocks : Finset BlockId} {P : BlockId → Prop}
    (hstay : ∀ b c, P b → some c ∈ m.successors b → P c) (hout : ∀ b, P b → b ∉ blocks → m.successors b = [])
    {fuel : Nat} (todo : List (Option BlockId)) (seen done : List BlockId) (htodo : ∀ b, some b ∈ todo → P b)
    (hfuel : unseen m blocks seen + todo.length < fuel) :
    (∀ b, some b ∈ todo → b ∈ (m.walk fuel todo (seen, done)).1) ∧
      ∀ b ∈ (m.walk fuel todo (seen, done)).1, b ∈ seen ∨
        ∀ c, some c ∈ m.successors b → c ∈ (m.walk fuel todo (seen, done)).1 := by
  induction fuel generalizing todo seen done with
  | zero => omega
  | succ fuel ih =>
    cases todo with
    | nil => exact ⟨nofun, fun b hb ↦ .inl hb⟩
    | cons x rest =>
      rw [List.length_cons] at hfuel
      have hrest : ∀ b, some b ∈ rest → P b := fun b hb ↦ htodo b (List.mem_cons_of_mem x hb)
      cases x with
      | none =>
        obtain ⟨h1, h2⟩ := ih rest seen done hrest (by omega)
        exact ⟨fun b hb ↦ h1 b ((List.mem_cons.mp hb).resolve_left nofun), h2⟩
      | some b =>
        have hPb := htodo b List.mem_cons_self
        rw [walk]
        split
        · rename_i hb
          obtain ⟨new, hnew⟩ := walk_walked (m := m) fuel rest seen done
          obtain ⟨h1, h2⟩ := ih rest seen done hrest (by omega)
          refine ⟨fun c hc ↦ ?_, h2⟩
          rcases List.mem_cons.mp hc with heq | hc
          · cases heq
            exact (hnew.visited b).mpr (.inl (by simpa using hb))
          · exact h1 c hc
        · rename_i hb
          have hb : b ∉ seen := by simpa using hb
          obtain ⟨inner, hin⟩ := walk_walked (m := m) fuel (m.successors b) (b :: seen) done
          have hinner : (∀ c, some c ∈ m.successors b → c ∈ (m.walk fuel (m.successors b) (b :: seen, done)).1) ∧
              ∀ c ∈ (m.walk fuel (m.successors b) (b :: seen, done)).1, c ∈ b :: seen ∨
                ∀ d, some d ∈ m.successors c → d ∈ (m.walk fuel (m.successors b) (b :: seen, done)).1 := by
            by_cases hmem : b ∈ blocks
            · have hcons := unseen_cons (m := m) hmem hb
              exact ih (m.successors b) (b :: seen) done (fun c hc ↦ hstay b c hPb hc) (by omega)
            · have hnil := hout b hPb hmem
              rw [hnil]
              exact ⟨nofun, fun c hc ↦ .inl (by cases fuel <;> simpa [walk] using hc)⟩
          generalize hr : m.walk fuel (m.successors b) (b :: seen, done) = r at hinner hin
          obtain ⟨outer, hout'⟩ := walk_walked (m := m) fuel rest r.1 (b :: r.2)
          have hsub : ∀ c, c ∈ r.1 → c ∈ (m.walk fuel rest (r.1, b :: r.2)).1 := fun c hc ↦
            (hout'.visited c).mpr (.inl hc)
          have hmono := unseen_mono m blocks fun c (hc : c ∈ seen) ↦
            (hin.visited c).mpr (.inl (List.mem_cons_of_mem b hc))
          obtain ⟨h1, h2⟩ := ih rest r.1 (b :: r.2) hrest (lt_of_le_of_lt (Nat.add_le_add_right hmono _) (by omega))
          constructor
          · intro c hc
            rcases List.mem_cons.mp hc with heq | hc
            · cases heq
              exact hsub b ((hin.visited b).mpr (.inl List.mem_cons_self))
            · exact h1 c hc
          · intro c hc
            rcases h2 c hc with hc | hc
            · rcases hinner.2 c hc with hc | hc
              · rcases List.mem_cons.mp hc with rfl | hc
                · exact .inr fun d hd ↦ hsub d (hinner.1 d hd)
                · exact .inl hc
              · exact .inr fun d hd ↦ hsub d (hc d hd)
            · exact .inr hc

theorem nodup_blockIds (f : Function) : f.blockIds.Nodup := by
  refine List.Nodup.map ?_ List.nodup_range
  intro a b hab
  simpa [Function.blockId] using hab

theorem unseen_lt_walkBound (hf : m.function? f.id = some f) : unseen m f.blockIds.toFinset [] + 1 < m.walkBound := by
  have hmem : f ∈ m.functions.toList := by
    rw [Array.mem_toList_iff]
    exact Array.mem_of_getElem? hf
  have hlist : ∀ (w : Function → Nat) (l : List Function), f ∈ l → w f + 2 ≤ l.foldr (fun g n ↦ w g + n) 2 := by
    intro w l hl
    have hbase : ∀ l : List Function, 2 ≤ l.foldr (fun g n ↦ w g + n) 2 := by
      intro l
      induction l with
      | nil => exact le_rfl
      | cons g l ih => exact ih.trans (Nat.le_add_left _ _)
    induction l with
    | nil => cases hl
    | cons g l ih =>
      rw [List.foldr_cons]
      rcases List.mem_cons.mp hl with rfl | hl
      · have := hbase l
        omega
      · have := ih hl
        omega
  have hbound := hlist (fun g ↦ g.blockIds.foldr (fun b k ↦ 1 + (m.successors b).length + k) 0) _ hmem
  have hsum : unseen m f.blockIds.toFinset [] = f.blockIds.foldr (fun b k ↦ 1 + (m.successors b).length + k) 0 := by
    rw [unseen, List.toFinset_nil, Finset.sdiff_empty, List.sum_toFinset _ (nodup_blockIds f), List.sum_eq_foldr,
      List.foldr_map]
  rw [hsum]
  exact hbound

variable (h : m.Confines f)

include h

theorem Confines.entry : ∃ rest, m.reversePostorder f = f.blockId 0 :: rest := by
  have hpos := unseen_lt_walkBound h.found
  obtain ⟨fuel, hfuel⟩ : ∃ fuel, m.walkBound = fuel + 1 := ⟨m.walkBound - 1, by omega⟩
  have horder : m.reversePostorder f = (m.walk (fuel + 1) [some (f.blockId 0)] ([], [])).2 := by
    rw [reversePostorder, h.body, hfuel]
    rfl
  rw [horder, walk, if_neg (by simp)]
  exact ⟨(m.walk fuel (m.successors (f.blockId 0)) ([f.blockId 0], [])).2, by cases fuel <;> rfl⟩

theorem Confines.order_walked : Walked m [some (f.blockId 0)] [] [] (m.walk m.walkBound [some (f.blockId 0)] ([], []))
    (m.reversePostorder f) := by
  obtain ⟨new, hnew⟩ := walk_walked (m := m) m.walkBound [some (f.blockId 0)] [] []
  have horder : m.reversePostorder f = (m.walk m.walkBound [some (f.blockId 0)] ([], [])).2 := by
    rw [reversePostorder, h.body]
    rfl
  rwa [horder, hnew.finished, List.append_nil]

theorem Confines.order_nodup : (m.reversePostorder f).Nodup := h.order_walked.nodup

theorem Confines.mem_order_iff : b ∈ m.reversePostorder f ↔ m.Reaches (f.blockId 0) b := by
  have hw := h.order_walked
  constructor
  · intro hb
    -- along the order, each block is branched to by one before it
    obtain ⟨i, hi⟩ := List.mem_iff_getElem?.mp hb
    induction i using Nat.strong_induction_on generalizing b with
    | _ i ih =>
      rcases hw.origin b hb with horigin | ⟨p, hp, hedge⟩
      · cases List.mem_singleton.mp horigin
        exact .refl
      · have hpair := (pair_sublist_iff hw.nodup).mp hp
        have hbi := List.getElem?_eq_some_iff.mp hi
        have hidx : (m.reversePostorder f).idxOf b = i := by
          rw [← hbi.2]
          exact hw.nodup.idxOf_getElem i hbi.1
        have hpmem : p ∈ m.reversePostorder f := hp.subset List.mem_cons_self
        have hpi := List.idxOf_lt_length_of_mem hpmem
        refine .step (ih _ (hidx ▸ hpair.2) hpmem ?_) hedge
        rw [List.getElem?_eq_getElem hpi, List.getElem_idxOf hpi]
  · have hout : ∀ b : BlockId, b.fn = f.id → b ∉ f.blockIds.toFinset → m.successors b = [] := by
      intro b hb hout
      have hidx : f.blocks[b.index]? = none := by
        rw [Array.getElem?_eq_none]
        by_contra hlt
        refine hout (List.mem_toFinset.mpr (List.mem_map.mpr ⟨b.index, List.mem_range.mpr (by omega), ?_⟩))
        rw [Function.blockId, ← hb]
      unfold successors
      rw [hb, h.found]
      simp [hidx]
    have hclosed := walk_complete (P := fun b ↦ b.fn = f.id) (fun b c hb hc ↦ h.stays b c hb hc) hout
      [some (f.blockId 0)] [] [] (fun b hb ↦ by cases List.mem_singleton.mp hb; rfl) (unseen_lt_walkBound h.found)
    have hmem : ∀ c, c ∈ (m.walk m.walkBound [some (f.blockId 0)] ([], [])).1 ↔ c ∈ m.reversePostorder f := by
      intro c
      rw [hw.visited]
      simp
    intro hr
    induction hr with
    | refl => exact (hmem _).mp (hclosed.1 _ (List.mem_singleton.mpr rfl))
    | @step b c _ hc ih =>
      rcases hclosed.2 b ((hmem b).mpr ih) with hnil | hall
      · cases hnil
      · exact (hmem c).mp (hall c hc)

theorem Confines.fn_of_reaches (hr : m.Reaches (f.blockId 0) b) : b.fn = f.id := by
  induction hr with
  | refl => rfl
  | step _ hc ih => exact h.stays _ _ ih hc

omit h in
theorem mem_blockIds (hf : m.function? f.id = some f) (hb : b.fn = f.id) (hc : some c ∈ m.successors b) :
    b ∈ f.blockIds := by
  have hlt : b.index < f.blocks.size := by
    by_contra hge
    have hnone : f.blocks[b.index]? = none := Array.getElem?_eq_none (by omega)
    unfold successors at hc
    rw [hb, hf] at hc
    simp [hnone] at hc
  refine List.mem_map.mpr ⟨b.index, List.mem_range.mpr hlt, ?_⟩
  rw [Function.blockId, ← hb]

theorem Confines.mem_predecessors (hb : b.fn = f.id) (hc : some c ∈ m.successors b) : b ∈ m.predecessors f c := by
  refine List.mem_flatMap.mpr ⟨b, mem_blockIds h.found hb hc, ?_⟩
  exact List.mem_map.mpr ⟨some c, List.mem_filter.mpr ⟨hc, by simp⟩, rfl⟩

end Module

namespace DomTree

def predPlaces (m : Module) (f : Function) : List (List Nat) :=
  (m.reversePostorder f).map fun b ↦ (m.predecessors f b).filterMap fun p ↦ (m.reversePostorder f).idxOf? p

variable {m : Module} {f : Function} {a b c : BlockId}

theorem length_predPlaces (m : Module) (f : Function) : (predPlaces m f).length = (m.reversePostorder f).length :=
  List.length_map _

theorem mem_predPlaces {i j : Nat} {ps : List Nat} (h : m.Confines f) (hb : (m.reversePostorder f)[j]? = some b)
    (hps : (predPlaces m f)[j]? = some ps) (ha : (m.reversePostorder f)[i]? = some a)
    (hedge : some b ∈ m.successors a) : i ∈ ps := by
  rw [predPlaces, List.getElem?_map, hb, Option.map_some, Option.some.injEq] at hps
  subst hps
  have hfn := h.fn_of_reaches (h.mem_order_iff.mp (List.mem_of_getElem? ha))
  exact List.mem_filterMap.mpr ⟨a, h.mem_predecessors hfn hedge, (idxOf?_eq_some_iff h.order_nodup).mpr ha⟩

theorem ordered_predPlaces (h : m.Confines f) : Ordered (predPlaces m f) := by
  intro j ps hps hj
  have hlt := (List.getElem?_eq_some_iff.mp hps).1
  rw [length_predPlaces] at hlt
  have hb := List.getElem?_eq_getElem hlt
  have hw := h.order_walked
  rcases hw.origin _ (List.getElem_mem hlt) with horigin | ⟨p, hp, hedge⟩
  · obtain ⟨rest, hentry⟩ := h.entry
    have hzero : (m.reversePostorder f)[0]? = some (f.blockId 0) := by rw [hentry, List.getElem?_cons_zero]
    exact absurd (place_unique h.order_nodup (hb.trans (List.mem_singleton.mp horigin)) hzero) hj
  · have hpair := (pair_sublist_iff hw.nodup).mp hp
    rw [hw.nodup.idxOf_getElem j hlt] at hpair
    have hpmem : p ∈ m.reversePostorder f := hp.subset List.mem_cons_self
    have hpi := List.idxOf_lt_length_of_mem hpmem
    refine ⟨(m.reversePostorder f).idxOf p, mem_predPlaces h hb hps ?_ hedge, hpair.2⟩
    rw [List.getElem?_eq_getElem hpi, List.getElem_idxOf hpi]

theorem of_settled (h : m.Confines f) : Settled (predPlaces m f) (DomTree.of m f).idom := by
  obtain ⟨rest, hentry⟩ := h.entry
  have hne : predPlaces m f ≠ [] := by
    rw [predPlaces, hentry]
    exact List.cons_ne_nil _ _
  have hsettled := settled (ordered_predPlaces h) hne
  rw [length_predPlaces] at hsettled
  exact hsettled

theorem above_iff {d : DomTree} (hd : Tree d.idom) {i j fuel : Nat} (hfuel : j < fuel) :
    d.above i fuel j = true ↔ Up d.idom i j := by
  induction fuel generalizing j with
  | zero => omega
  | succ fuel ih =>
    rw [above]
    by_cases hij : i = j
    · rw [if_pos hij]
      exact ⟨fun _ ↦ hij ▸ .refl, fun _ ↦ rfl⟩
    · rw [if_neg hij]
      cases hp : d.idom.getD j none with
      | none =>
        refine ⟨nofun, fun hup ↦ ?_⟩
        cases hup with
        | refl => exact absurd rfl hij
        | step hpar => cases hp.symm.trans hpar
      | some c =>
        dsimp only
        split
        · rename_i hc
          refine ⟨nofun, fun hup ↦ ?_⟩
          cases hup with
          | refl => exact absurd rfl hij
          | step hpar hne =>
            cases hp.symm.trans hpar
            exact absurd hc hne
        · rename_i hc
          have hle := hd.le hp
          rw [ih (by omega)]
          exact ⟨fun hup ↦ .step hp hc hup, fun hup ↦ hup.of_parent hij hp⟩

/-- What dominance is used for. -/
structure Sound (m : Module) (f : Function) (d : DomTree) : Prop where
  entry : d.reachable (f.blockId 0) = true
  next : ∀ {b c : BlockId}, d.reachable b = true → some c ∈ m.successors b → d.reachable c = true
  reaches : ∀ {b : BlockId}, d.reachable b = true ↔ m.Reaches (f.blockId 0) b
  reachable : ∀ {a b : BlockId}, d.reachable b = true → d.dominates a b = true → d.reachable a = true
  trans : ∀ {a b c : BlockId}, d.dominates a b = true → d.dominates b c = true → d.dominates a c = true
  antisymm : ∀ {a b : BlockId}, d.reachable b = true → d.dominates a b = true → d.dominates b a = true → a = b
  /-- What dominates a block dominates all blocks that branch to it, unless it is the block itself. -/
  pred : ∀ {a b c : BlockId}, d.reachable b = true → some c ∈ m.successors b → d.dominates a c = true → a ≠ c →
    d.dominates a b = true

theorem dominates_iff (h : m.Confines f) (hb : b ∈ m.reversePostorder f) : (DomTree.of m f).dominates a b = true ↔
    ∃ i j : Nat, (m.reversePostorder f)[i]? = some a ∧ (m.reversePostorder f)[j]? = some b ∧
      Up (DomTree.of m f).idom i j := by
  have hnodup := h.order_nodup
  obtain ⟨j, hj⟩ := List.mem_iff_getElem?.mp hb
  have hjlt := (List.getElem?_eq_some_iff.mp hj).1
  have hbj := (idxOf?_eq_some_iff hnodup).mpr hj
  have horder : (DomTree.of m f).order = m.reversePostorder f := rfl
  unfold dominates
  rw [horder, hbj]
  cases ha : (m.reversePostorder f).idxOf? a with
  | none =>
    refine ⟨nofun, ?_⟩
    rintro ⟨i, -, hi, -⟩
    rw [(idxOf?_eq_some_iff hnodup).mpr hi] at ha
    cases ha
  | some i =>
    dsimp only
    rw [above_iff (of_settled h).tree (by omega)]
    constructor
    · intro hup
      exact ⟨i, j, (idxOf?_eq_some_iff hnodup).mp ha, hj, hup⟩
    · rintro ⟨i', j', hi', hj', hup⟩
      rw [(idxOf?_eq_some_iff hnodup).mpr hi'] at ha
      rw [(idxOf?_eq_some_iff hnodup).mpr hj'] at hbj
      cases ha
      cases hbj
      exact hup

theorem dominates_of_not_mem (hb : b ∉ m.reversePostorder f) (a : BlockId) :
    (DomTree.of m f).dominates a b = true := by
  have hnone : (DomTree.of m f).order.idxOf? b = none := List.idxOf?_eq_none_iff.mpr hb
  rw [dominates, hnone]

theorem reachable_iff_mem : (DomTree.of m f).reachable b = true ↔ b ∈ m.reversePostorder f :=
  List.contains_iff_mem

section sound

variable (h : m.Confines f)

include h

theorem dominates_reachable (hb : (DomTree.of m f).reachable b = true) (hab : (DomTree.of m f).dominates a b = true) :
    (DomTree.of m f).reachable a = true := by
  rw [reachable_iff_mem] at hb ⊢
  obtain ⟨i, -, hi, -⟩ := (dominates_iff h hb).mp hab
  exact List.mem_of_getElem? hi

theorem reachable_next (hb : (DomTree.of m f).reachable b = true) (hc : some c ∈ m.successors b) :
    (DomTree.of m f).reachable c = true := by
  rw [reachable_iff_mem, h.mem_order_iff] at hb ⊢
  exact .step hb hc

theorem dominates_trans (hab : (DomTree.of m f).dominates a b = true) (hbc : (DomTree.of m f).dominates b c = true) :
    (DomTree.of m f).dominates a c = true := by
  by_cases hc : c ∈ m.reversePostorder f
  · have hb := reachable_iff_mem.mp (dominates_reachable h (reachable_iff_mem.mpr hc) hbc)
    obtain ⟨i, j, hi, hj, hij⟩ := (dominates_iff h hb).mp hab
    obtain ⟨j', k, hj', hk, hjk⟩ := (dominates_iff h hc).mp hbc
    obtain rfl := place_unique h.order_nodup hj hj'
    exact (dominates_iff h hc).mpr ⟨i, k, hi, hk, hij.trans hjk⟩
  · exact dominates_of_not_mem hc a

theorem dominates_antisymm (hb : (DomTree.of m f).reachable b = true) (hab : (DomTree.of m f).dominates a b = true)
    (hba : (DomTree.of m f).dominates b a = true) : a = b := by
  have ha := reachable_iff_mem.mp (dominates_reachable h hb hab)
  obtain ⟨i, j, hi, hj, hij⟩ := (dominates_iff h (reachable_iff_mem.mp hb)).mp hab
  obtain ⟨j', i', hj', hi', hji⟩ := (dominates_iff h ha).mp hba
  obtain rfl := place_unique h.order_nodup hj hj'
  obtain rfl := place_unique h.order_nodup hi hi'
  obtain rfl := hij.antisymm (of_settled h).tree hji
  exact Option.some.inj (hi.symm.trans hj)

theorem dominates_pred (hb : (DomTree.of m f).reachable b = true) (hc : some c ∈ m.successors b)
    (hac : (DomTree.of m f).dominates a c = true) (hne : a ≠ c) : (DomTree.of m f).dominates a b = true := by
  have hsettled := of_settled h
  have hcmem := reachable_iff_mem.mp (reachable_next h hb hc)
  have hbmem := reachable_iff_mem.mp hb
  obtain ⟨i, k, hi, hk, hik⟩ := (dominates_iff h hcmem).mp hac
  obtain ⟨j, hj⟩ := List.mem_iff_getElem?.mp hbmem
  have hklt := (List.getElem?_eq_some_iff.mp hk).1
  have hjlt := (List.getElem?_eq_some_iff.mp hj).1
  have hneik : i ≠ k := by
    rintro rfl
    exact hne (Option.some.inj (hi.symm.trans hk))
  -- the entry has nothing above it
  have hk0 : k ≠ 0 := by
    rintro rfl
    exact hneik (Nat.le_zero.mp (hik.le hsettled.tree))
  rw [← length_predPlaces] at hklt hjlt
  have hps := List.getElem?_eq_getElem hklt
  obtain ⟨d, hd⟩ := Option.isSome_iff_exists.mp (hsettled.isSome (ordered_predPlaces h) hklt)
  have hup := hsettled.edge hps hk0 (mem_predPlaces h hk hps hj hc) (hsettled.isSome (ordered_predPlaces h) hjlt) hd
  exact (dominates_iff h hbmem).mpr ⟨i, j, hi, hj, (hik.of_parent hneik hd).trans hup⟩

theorem of_sound : Sound m f (DomTree.of m f) where
  entry := by
    rw [reachable_iff_mem, h.mem_order_iff]
    exact .refl
  next := reachable_next h
  reaches := by
    intro b
    rw [reachable_iff_mem, h.mem_order_iff]
  reachable := dominates_reachable h
  trans := dominates_trans h
  antisymm := dominates_antisymm h
  pred := dominates_pred h

def Between (m : Module) (f : Function) (i j : Nat) : Prop :=
  ∃ a b, (m.reversePostorder f)[i]? = some a ∧ (m.reversePostorder f)[j]? = some b ∧ m.OnEveryPath f a b

theorem between_through : Through (predPlaces m f) (Between m f) where
  first := by
    rintro i ⟨a, b, hi, hb, hall⟩
    obtain ⟨rest, hentry⟩ := h.entry
    have hzero : (m.reversePostorder f)[0]? = some (f.blockId 0) := by rw [hentry, List.getElem?_cons_zero]
    obtain rfl := Option.some.inj (hb.symm.trans hzero)
    have ha := List.mem_singleton.mp (hall _ .refl)
    exact place_unique h.order_nodup hi (ha ▸ hzero)
  pred := by
    rintro i j k ps hps hj hk ⟨a, b, hi, hb, hall⟩ hne
    rw [predPlaces, List.getElem?_map, hb, Option.map_some, Option.some.injEq] at hps
    subst hps
    obtain ⟨p, hp, hpk⟩ := List.mem_filterMap.mp hk
    obtain ⟨q, -, hq⟩ := List.mem_flatMap.mp hp
    obtain ⟨t, ht, rfl⟩ := List.mem_map.mp hq
    obtain ⟨hedge, heq⟩ := List.mem_filter.mp ht
    obtain rfl := eq_of_beq heq
    refine ⟨a, q, hi, (idxOf?_eq_some_iff h.order_nodup).mp hpk, fun w hw ↦ ?_⟩
    refine (List.mem_cons.mp (hall _ (.step hw hedge))).resolve_left ?_
    rintro rfl
    exact hne (place_unique h.order_nodup hi hb)

theorem predPlaces_ne_nil : predPlaces m f ≠ [] := by
  obtain ⟨rest, hentry⟩ := h.entry
  rw [predPlaces, hentry]
  exact List.cons_ne_nil _ _

theorem dominates_of_onEveryPath (ha : a ∈ m.reversePostorder f) (hb : b ∈ m.reversePostorder f)
    (hall : m.OnEveryPath f a b) : (DomTree.of m f).dominates a b = true := by
  have hkeeps : Keeps (Between m f) (DomTree.of m f).idom := by
    have hne := predPlaces_ne_nil h
    have hsweeping := Sweeping.start hne
    rw [length_predPlaces] at hsweeping
    have hstart := keeps_start (Between m f) (m.reversePostorder f).length
    exact hstart.settle (between_through h) hsweeping (ordered_predPlaces h) hne
  obtain ⟨i, hi⟩ := List.mem_iff_getElem?.mp ha
  obtain ⟨j, hj⟩ := List.mem_iff_getElem?.mp hb
  have hjlt := (List.getElem?_eq_some_iff.mp hj).1
  rw [← length_predPlaces] at hjlt
  have hset := (of_settled h).isSome (ordered_predPlaces h) hjlt
  exact (dominates_iff h hb).mpr ⟨i, j, hi, hj, hkeeps.up (between_through h) (of_settled h).tree hset ⟨a,
    b, hi, hj, hall⟩⟩

theorem dominates_entry (b : BlockId) : (DomTree.of m f).dominates (f.blockId 0) b = true := by
  by_cases hb : b ∈ m.reversePostorder f
  · refine dominates_of_onEveryPath h (h.mem_order_iff.mpr .refl) hb fun p hp ↦ ?_
    clear hb
    induction hp with
    | refl => exact List.mem_cons_self
    | step _ _ ih => exact List.mem_cons_of_mem _ ih
  · exact dominates_of_not_mem hb _

theorem onEveryPath_of_dominates (hb : b ∈ m.reversePostorder f) (hab : (DomTree.of m f).dominates a b = true) :
    m.OnEveryPath f a b := by
  intro p hp
  induction hp with
  | refl =>
    obtain ⟨rest, hentry⟩ := h.entry
    have hzero : (m.reversePostorder f)[0]? = some (f.blockId 0) := by rw [hentry, List.getElem?_cons_zero]
    obtain ⟨i, j, hi, hj, hup⟩ := (dominates_iff h hb).mp hab
    obtain rfl := place_unique h.order_nodup hj hzero
    obtain rfl := Nat.le_zero.mp (hup.le (of_settled h).tree)
    exact List.mem_singleton.mpr (Option.some.inj (hi.symm.trans hzero))
  | @step b c p hp hedge ih =>
    by_cases hac : a = c
    · exact hac ▸ List.mem_cons_self
    · have hreach : ∀ {b p}, m.Path (f.blockId 0) b p → m.Reaches (f.blockId 0) b := by
        intro b p hp
        induction hp with
        | refl => exact .refl
        | step _ hc ih => exact .step ih hc
      have hbmem := h.mem_order_iff.mpr (hreach hp)
      exact List.mem_cons_of_mem _ (ih hbmem (dominates_pred h (reachable_iff_mem.mpr hbmem) hedge hab hac))

end sound

def startOf (m : Module) (f : Function) : Array (Option Nat) :=
  (Array.replicate (m.reversePostorder f).length none).setIfInBounds 0 (some 0)

/-- The dominator tree of a function in which all branches stay: the sweeps end, its order are the blocks that control
reaches, each once and the entry first, and it tells which blocks are on every way to a block. -/
theorem dominators_exact (m : Module) (f : Function) (hf : m.function? f.id = some f)
    (hstay : ∀ b ∈ f.blockIds, ∀ c, some c ∈ m.successors b → c ∈ f.blockIds) :
    Settles (predPlaces m f) (startOf m f) (DomTree.of m f).idom ∧
      (∀ a b, (DomTree.of m f).dominates a b = true ↔
        ¬m.FromEntry f b ∨ m.FromEntry f a ∧ m.OnEveryPath f a b) ∧
      (∀ b, (DomTree.of m f).reachable b = true ↔ m.FromEntry f b) ∧
      (∀ b, b ∈ m.reversePostorder f ↔ m.FromEntry f b) ∧
      (m.reversePostorder f).Nodup ∧
      (f.isDeclaration = false → (m.reversePostorder f).head? = some (f.blockId 0)) := by
  cases hbody : f.isDeclaration with
  | true =>
    have horder : m.reversePostorder f = [] := by
      rw [Module.reversePostorder, if_pos hbody]
    have hno : ∀ b, ¬m.FromEntry f b := by
      rintro b ⟨hb, -⟩
      rw [hbody] at hb
      cases hb
    have hmem : ∀ b, b ∈ m.reversePostorder f ↔ m.FromEntry f b := by
      intro b
      rw [horder]
      exact ⟨nofun, fun hb ↦ absurd hb (hno b)⟩
    refine ⟨?_, fun a b ↦ ⟨fun _ ↦ .inl (hno b), fun _ ↦ dominates_of_not_mem (by rw [horder]; exact nofun) a⟩, ?_,
      hmem,
      by rw [horder]; exact List.nodup_nil, nofun⟩
    · rw [DomTree.of, startOf, predPlaces, horder]
      exact .done .nil
    · intro b
      rw [reachable_iff_mem, hmem]
  | false =>
    have h : m.Confines f := by
      refine ⟨hf, hbody, fun b c hb hc ↦ ?_⟩
      obtain ⟨k, -, rfl⟩ := List.mem_map.mp (hstay b (Module.mem_blockIds hf hb hc) c hc)
      rfl
    have hmem : ∀ b, b ∈ m.reversePostorder f ↔ m.FromEntry f b := fun b ↦
      h.mem_order_iff.trans (and_iff_right hbody).symm
    refine ⟨?_, fun a b ↦ ?_, fun b ↦ reachable_iff_mem.trans (hmem b), hmem, h.order_nodup, fun _ ↦ ?_⟩
    · have hne := predPlaces_ne_nil h
      have hends := (Sweeping.start hne).settles (ordered_predPlaces h) hne (Sweeping.distance_start hne)
      rw [length_predPlaces] at hends
      exact hends
    · rw [← hmem, ← hmem]
      by_cases hb : b ∈ m.reversePostorder f
      · constructor
        · intro hab
          have ha := dominates_reachable h (reachable_iff_mem.mpr hb) hab
          exact .inr ⟨reachable_iff_mem.mp ha, onEveryPath_of_dominates h hb hab⟩
        · rintro (hno | ⟨ha, hall⟩)
          · exact absurd hb hno
          · exact dominates_of_onEveryPath h ha hb hall
      · exact ⟨fun _ ↦ .inl hb, fun _ ↦ dominates_of_not_mem hb a⟩
    · obtain ⟨rest, hentry⟩ := h.entry
      rw [hentry, List.head?_cons]

def looping : Function :=
  { id := ⟨0⟩, name := "looping", signature := .func .void [.int 1], params := [⟨"more", .int 1⟩]
    blocks := #[⟨"entry", [0]⟩, ⟨"head", [1]⟩, ⟨"body", [2]⟩, ⟨"exit", [3]⟩]
    instrs := #[{ op := .br, type := .void, targets := [some ⟨⟨0⟩, 1⟩] },
      { op := .condbr, type := .void, operands := [some (.param ⟨0⟩ 0 (.int 1))],
        targets := [some ⟨⟨0⟩, 2⟩, some ⟨⟨0⟩, 3⟩] },
      { op := .br, type := .void, targets := [some ⟨⟨0⟩, 1⟩] },
      { op := .ret, type := .void }] }

/-- Every way to the body of a loop goes through its head. -/
theorem dominators_exact_looping : let m : Module := { name := "m", functions := #[looping] }
    m.function? looping.id = some looping ∧
      (∀ b ∈ looping.blockIds, ∀ c, some c ∈ m.successors b → c ∈ looping.blockIds) ∧
      m.OnEveryPath looping (looping.blockId 1) (looping.blockId 2) := by
  intro m
  have hstay : ∀ b ∈ looping.blockIds, ∀ t ∈ m.successors b, t.all (looping.blockIds.contains ·) = true := by decide
  have hstay' : ∀ b ∈ looping.blockIds, ∀ c, some c ∈ m.successors b → c ∈ looping.blockIds := fun b hb c hc ↦
    List.contains_iff_mem.mp (hstay b hb (some c) hc)
  obtain ⟨-, hdominates, hreachable, -⟩ := dominators_exact m looping rfl hstay'
  have hbody : m.FromEntry looping (looping.blockId 2) := (hreachable _).mp (by decide)
  refine ⟨rfl, hstay', ?_⟩
  exact (((hdominates (looping.blockId 1) (looping.blockId 2)).mp (by decide)).resolve_left (not_not_intro hbody)).2

end DomTree

end CilSsa.Ssa

