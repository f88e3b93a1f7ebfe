import CilSsa.Pipeline.Imports
import CilSsa.Proofs.Dominance
import CilSsa.Proofs.Traversals
import Mathlib.Data.List.Chain
import Mathlib.Data.List.Perm.Subperm
import Mathlib.Data.List.Range
import Mathlib.Data.List.Sort
import Mathlib.Logic.Relation
import Mathlib.Order.Bounds.Basic

namespace CilSsa.Pipeline

open CilSsa.Image Relation

def chainLengths (r : Nat → Nat → Prop) (i : Nat) : Set Nat := {n | ∃ c : List Nat, c.length = n ∧ (i :: c).IsChain r}

def LeadsToCycle (r : Nat → Nat → Prop) (i : Nat) : Prop := ∃ j, ReflTransGen r i j ∧ TransGen r j j

section

variable {r : Nat → Nat → Prop} {i j n k : Nat}

theorem zero_mem_chainLengths : 0 ∈ chainLengths r i := ⟨[], rfl, List.isChain_singleton i⟩

theorem succ_mem_chainLengths : n + 1 ∈ chainLengths r i ↔ ∃ j, r i j ∧ n ∈ chainLengths r j := by
  constructor
  · rintro ⟨_ | ⟨j, c⟩, hlength, hchain⟩
    · cases hlength
    · obtain ⟨hij, hrest⟩ := List.isChain_cons_cons.mp hchain
      exact ⟨j, hij, c, Nat.succ.inj hlength, hrest⟩
  · rintro ⟨j, hij, c, rfl, hchain⟩
    exact ⟨j :: c, rfl, List.isChain_cons_cons.mpr ⟨hij, hchain⟩⟩

theorem chainLengths_down (h : k ≤ n) (hn : n ∈ chainLengths r i) : k ∈ chainLengths r i := by
  obtain ⟨c, rfl, hchain⟩ := hn
  refine ⟨c.take k, List.length_take_of_le h, ?_⟩
  have := hchain.take (k + 1)
  rwa [List.take_succ_cons] at this

theorem isGreatest_chainLengths : IsGreatest (chainLengths r i) k ↔ k ∈ chainLengths r i ∧
    k + 1 ∉ chainLengths r i := by
  refine and_congr_right fun hk ↦ ⟨fun hupper hsucc ↦ absurd (hupper hsucc) (by omega), fun hnot n hn ↦ ?_⟩
  by_contra hlt
  exact hnot (chainLengths_down (by omega) hn)

theorem reaches_of_chain {c : List Nat} (h : (i :: c).IsChain r) (hj : j ∈ i :: c) : ReflTransGen r i j := by
  induction c generalizing i with
  | nil => exact List.mem_singleton.mp hj ▸ .refl
  | cons p c ih =>
    obtain ⟨hip, hrest⟩ := List.isChain_cons_cons.mp h
    rcases List.mem_cons.mp hj with rfl | hj
    · exact .refl
    · exact .head hip (ih hrest hj)

theorem exists_rel_of_chain {c : List Nat} (h : (i :: c).IsChain r) (hj : j ∈ c) : ∃ p, r p j := by
  induction c generalizing i with
  | nil => cases hj
  | cons p c ih =>
    obtain ⟨hip, hrest⟩ := List.isChain_cons_cons.mp h
    rcases List.mem_cons.mp hj with rfl | hj
    · exact ⟨i, hip⟩
    · exact ih hrest hj

theorem leadsToCycle_of_chain {c : List Nat} (h : (i :: c).IsChain r) (hdup : ¬ (i :: c).Nodup) : LeadsToCycle r i := by
  induction c generalizing i with
  | nil => exact absurd (List.nodup_singleton i) hdup
  | cons p c ih =>
    obtain ⟨hip, hrest⟩ := List.isChain_cons_cons.mp h
    by_cases hi : i ∈ p :: c
    · exact ⟨i, .refl, .head' hip (reaches_of_chain hrest hi)⟩
    · obtain ⟨j, hpj, hjj⟩ := ih hrest fun hnodup ↦ hdup (List.nodup_cons.mpr ⟨hi, hnodup⟩)
      exact ⟨j, .head hip hpj, hjj⟩

/-- Among finitely many things, a cycle is led to wherever chains of every length begin. -/
theorem leadsToCycle_iff {size : Nat} (hbound : ∀ {i j}, r i j → j < size) :
    LeadsToCycle r i ↔ ∀ n, n ∈ chainLengths r i := by
  constructor
  · rintro ⟨j, hij, hjj⟩ n
    induction n generalizing i with
    | zero => exact zero_mem_chainLengths
    | succ n ih =>
      rcases ReflTransGen.cases_head hij with rfl | ⟨p, hip, hpj⟩
      · obtain ⟨p, hip, hpi⟩ := TransGen.head'_iff.mp hjj
        exact succ_mem_chainLengths.mpr ⟨p, hip, ih hpi⟩
      · exact succ_mem_chainLengths.mpr ⟨p, hip, ih hpj⟩
  · intro hall
    obtain ⟨j, hij, c, hlength, hchain⟩ := succ_mem_chainLengths.mp (hall (size + 1))
    obtain ⟨q, hjq, hqq⟩ : LeadsToCycle r j := by
      refine leadsToCycle_of_chain hchain fun hnodup ↦ ?_
      have hsub : j :: c ⊆ List.range size := by
        intro q hq
        rcases List.mem_cons.mp hq with rfl | hq
        · exact List.mem_range.mpr (hbound hij)
        · obtain ⟨p, hpq⟩ := exists_rel_of_chain hchain hq
          exact List.mem_range.mpr (hbound hpq)
      have := (hnodup.subperm hsub).length_le
      rw [List.length_range, List.length_cons] at this
      omega
    exact ⟨q, .head hij hjq, hqq⟩

end

namespace ImportGraph

variable {g : ImportGraph} {rest left : List Nat} {bs : List (List Nat)} {i j k n : Nat}

def isReady (g : ImportGraph) (rest : List Nat) (i : Nat) : Bool := !(g.importsOf i).any rest.contains

def ready (g : ImportGraph) (rest : List Nat) : List Nat := rest.filter (g.isReady rest)

def waiting (g : ImportGraph) (rest : List Nat) : List Nat := rest.filter fun i ↦ !g.isReady rest i

theorem length_waiting_lt (g : ImportGraph) (rest : List Nat) (h : g.ready rest ≠ []) :
    (g.waiting rest).length < rest.length := by
  obtain ⟨i, hi⟩ := List.exists_mem_of_ne_nil _ h
  have := List.mem_filter.1 hi
  exact List.length_filter_lt_length_iff_exists.2 ⟨i, this.1, by simp [this.2]⟩

/-- The layers that the given images fall into, and the images that fall into none. -/
def layers (g : ImportGraph) (rest : List Nat) : List (List Nat) × List Nat :=
  if _h : g.ready rest = [] then ([], rest)
  else
    let (batches, left) := layers g (g.waiting rest)
    (g.ready rest :: batches, left)
termination_by rest.length
decreasing_by exact g.length_waiting_lt rest _h

def Needs (g : ImportGraph) (i j : Nat) : Prop := j ∈ g.importsOf i

theorem mem_waiting : i ∈ g.waiting rest ↔ i ∈ rest ∧ ∃ j, g.Needs i j ∧ j ∈ rest := by
  simp [waiting, isReady, Needs, List.mem_filter]

theorem mem_ready : i ∈ g.ready rest ↔ i ∈ rest ∧ ∀ j, g.Needs i j → j ∉ rest := by
  simp [ready, isReady, Needs, List.mem_filter]

/-- What is still to come after `k` layers: the images with a chain of length `k` below them. -/
structure Remains (g : ImportGraph) (k : Nat) (rest : List Nat) : Prop where
  ascending : rest.Pairwise (· < ·)
  mem_iff : ∀ i, i ∈ rest ↔ i < g.names.length ∧ k ∈ chainLengths g.Needs i

theorem Remains.all (g : ImportGraph) : g.Remains 0 (List.range g.names.length) :=
  ⟨List.pairwise_lt_range, fun i ↦ by simp [zero_mem_chainLengths]⟩

section

variable (hbound : ∀ {i j}, g.Needs i j → j < g.names.length)
include hbound

theorem Remains.waiting (h : g.Remains k rest) : g.Remains (k + 1) (g.waiting rest) := by
  refine ⟨h.ascending.filter _, fun i ↦ ?_⟩
  rw [mem_waiting, h.mem_iff, succ_mem_chainLengths]
  constructor
  · rintro ⟨⟨hi, -⟩, j, hij, hj⟩
    exact ⟨hi, j, hij, ((h.mem_iff j).mp hj).2⟩
  · rintro ⟨hi, j, hij, hj⟩
    have hlonger : k + 1 ∈ chainLengths g.Needs i := succ_mem_chainLengths.mpr ⟨j, hij, hj⟩
    exact ⟨⟨hi, chainLengths_down (Nat.le_succ k) hlonger⟩, j, hij, (h.mem_iff j).mpr ⟨hbound hij, hj⟩⟩

theorem Remains.ready (h : g.Remains k rest) : (g.ready rest).Pairwise (· < ·) ∧
    ∀ i, i ∈ g.ready rest ↔ i < g.names.length ∧ IsGreatest (chainLengths g.Needs i) k := by
  refine ⟨h.ascending.filter _, fun i ↦ ?_⟩
  rw [mem_ready, h.mem_iff, isGreatest_chainLengths, and_assoc, succ_mem_chainLengths]
  refine and_congr_right fun hi ↦ and_congr_right fun hk ↦ ?_
  constructor
  · rintro hready ⟨j, hij, hj⟩
    exact hready j hij ((h.mem_iff j).mpr ⟨hbound hij, hj⟩)
  · intro hnone j hij hj
    exact hnone ⟨j, hij, ((h.mem_iff j).mp hj).2⟩

theorem Remains.endless (h : g.Remains k rest) (hready : g.ready rest = []) :
    ∀ i, i ∈ rest ↔ i < g.names.length ∧ LeadsToCycle g.Needs i := by
  have hnext : ∀ i ∈ rest, ∃ j ∈ rest, g.Needs i j := by
    intro i hi
    by_contra hnone
    push Not at hnone
    have hmem : i ∈ g.ready rest := mem_ready.mpr ⟨hi, fun j hij hj ↦ hnone j hj hij⟩
    rw [hready] at hmem
    cases hmem
  have hall : ∀ n, ∀ i ∈ rest, n ∈ chainLengths g.Needs i := by
    intro n
    induction n with
    | zero => exact fun i _ ↦ zero_mem_chainLengths
    | succ n ih =>
      intro i hi
      obtain ⟨j, hj, hij⟩ := hnext i hi
      exact succ_mem_chainLengths.mpr ⟨j, hij, ih j hj⟩
  intro i
  rw [leadsToCycle_iff hbound]
  exact ⟨fun hi ↦ ⟨((h.mem_iff i).mp hi).1, fun n ↦ hall n i hi⟩, fun hi ↦ (h.mem_iff i).mpr ⟨hi.1, hi.2 k⟩⟩

theorem Remains.layers (h : g.Remains k rest) :
    (∀ d b, (g.layers rest).1[d]? = some b → b.Pairwise (· < ·) ∧
      ∀ i, i ∈ b ↔ i < g.names.length ∧ IsGreatest (chainLengths g.Needs i) (k + d)) ∧
    (g.layers rest).2.Pairwise (· < ·) ∧
    ∀ i, i ∈ (g.layers rest).2 ↔ i < g.names.length ∧ LeadsToCycle g.Needs i := by
  induction rest using ImportGraph.layers.induct g generalizing k with
  | case1 rest hready =>
    rw [ImportGraph.layers, dif_pos hready]
    exact ⟨nofun, h.ascending, h.endless hbound hready⟩
  | case2 rest hready _ _ _ ih =>
    obtain ⟨hbs, hleft⟩ := ih (h.waiting hbound)
    rw [ImportGraph.layers, dif_neg hready]
    refine ⟨fun d b hb ↦ ?_, hleft⟩
    cases d with
    | zero =>
      cases hb
      exact h.ready hbound
    | succ d =>
      have := hbs d b hb
      rwa [Nat.add_assoc, Nat.add_comm 1 d] at this

omit hbound in
theorem layers_perm (g : ImportGraph) (rest : List Nat) :
    ((g.layers rest).1.flatten ++ (g.layers rest).2).Perm rest := by
  induction rest using ImportGraph.layers.induct g with
  | case1 rest hready =>
    rw [ImportGraph.layers, dif_pos hready]
    exact .refl _
  | case2 rest hready _ _ _ ih =>
    rw [ImportGraph.layers, dif_neg hready]
    have hrest := (ih.append_left (g.ready rest)).trans (List.filter_append_perm (g.isReady rest) rest)
    rwa [← List.append_assoc] at hrest

end

/-! ### The countdown -/

section

/-- Each image with each of its imports, in the order in which they are listed. -/
def occurrences (g : ImportGraph) : List (Nat × Nat) := g.imports.zipIdx.flatMap fun p ↦ p.1.map (p.2, ·)

theorem counters_eq (g : ImportGraph) : g.counters = g.occurrences.foldl (fun c p ↦ c.add p.1 p.2)
    ⟨List.replicate g.names.length [], List.replicate g.names.length 0⟩ := by
  unfold counters occurrences
  rw [List.foldl_flatMap]
  simp only [List.foldl_map]

theorem getD_modify {α : Type} {xs : List α} {f : α → α} {d : α} (h : j < xs.length) :
    (xs.modify i f).getD j d = if i = j then f (xs.getD j d) else xs.getD j d := by
  rw [List.getD_eq_getElem?_getD, List.getD_eq_getElem?_getD, List.getElem?_modify, List.getElem?_eq_getElem h]
  split <;> rfl

theorem getD_replicate {α : Type} {a : α} (h : i < n) : (List.replicate n a).getD i a = a := by
  rw [List.getD_eq_getElem?_getD, List.getElem?_replicate_of_lt h, Option.getD_some]

theorem foldl_add (ps : List (Nat × Nat)) (c : Counters) :
    (∀ j < c.edges.length, (ps.foldl (fun c p ↦ c.add p.1 p.2) c).edges.getD j [] =
      c.edges.getD j [] ++ (ps.filter (·.2 = j)).map (·.1)) ∧
    (ps.foldl (fun c p ↦ c.add p.1 p.2) c).indeg.length = c.indeg.length ∧
    ∀ i < c.indeg.length, (ps.foldl (fun c p ↦ c.add p.1 p.2) c).indeg.getD i 0 = c.indeg.getD i 0 +
    ps.countP (·.1 = i) := by
  induction ps generalizing c with
  | nil => simp
  | cons p ps ih =>
    obtain ⟨hedges, hlength, hindeg⟩ := ih (c.add p.1 p.2)
    simp only [Counters.add, List.length_modify] at hedges hlength hindeg
    refine ⟨fun j hj ↦ (hedges j hj).trans ?_, hlength, fun i hi ↦ (hindeg i hi).trans ?_⟩
    · rw [getD_modify hj, List.filter_cons]
      by_cases h : p.2 = j <;> simp [h]
    · rw [getD_modify hi, List.countP_cons]
      by_cases h : p.1 = i <;> simp [h]
      omega

theorem filter_occurrences (g : ImportGraph) (i : Nat) : g.occurrences.filter (·.1 = i) =
    (g.importsOf i).map (i, ·) := by
  have hrow : ∀ (row : List Nat) (k : Nat), (row.map (k, ·)).filter (·.1 = i) = if k = i then row.map
      (i, ·) else [] := by
    intro row k
    by_cases hk : k = i
    · subst hk
      simp
    · simp [hk]
  have hrows : ∀ (rows : List (List Nat)) (k : Nat), ((rows.zipIdx k).flatMap fun p ↦ p.1.map (p.2, ·)).filter
    (·.1 = i) =
      if k ≤ i then (rows.getD (i - k) []).map (i, ·) else [] := by
    intro rows
    induction rows with
    | nil => simp
    | cons row rows ih =>
      intro k
      rw [List.zipIdx_cons, List.flatMap_cons, List.filter_append, hrow, ih]
      rcases Nat.lt_trichotomy k i with hk | rfl | hk
      · obtain ⟨d, rfl⟩ := Nat.exists_eq_add_of_lt hk
        rw [if_neg (by omega), if_pos (by omega), if_pos (by omega), List.nil_append, show k + d + 1 -
        k = d + 1 by omega,
          show k + d + 1 - (k + 1) = d by omega, List.getD_cons_succ]
      · rw [if_pos rfl, if_neg (by omega), if_pos (Nat.le_refl k), Nat.sub_self, List.getD_cons_zero, List.append_nil]
      · rw [if_neg (by omega), if_neg (by omega), if_neg (by omega), List.append_nil]
  have := hrows g.imports 0
  rwa [if_pos (Nat.zero_le i), Nat.sub_zero] at this

/-- An image is listed among those that import another as often as it imports it. -/
theorem count_edges (hj : j < g.names.length) : (g.counters.edges.getD j []).count i = (g.importsOf i).count j := by
  have hcount : (g.occurrences.filter (·.1 = i)).countP (·.2 = j) = (g.importsOf i).count j := by
    rw [filter_occurrences, List.countP_map]
    rfl
  rw [counters_eq, (foldl_add _ _).1 j (by rwa [List.length_replicate]), getD_replicate hj, List.nil_append, ← hcount,
    List.count_eq_countP, List.countP_map, List.countP_filter, List.countP_filter]
  exact List.countP_congr fun p _ ↦ by simp [and_comm]

theorem length_indeg (g : ImportGraph) : g.counters.indeg.length = g.names.length := by
  rw [counters_eq, (foldl_add _ _).2.1, List.length_replicate]

theorem indeg_eq (hi : i < g.names.length) : g.counters.indeg.getD i 0 = (g.importsOf i).length := by
  rw [counters_eq, (foldl_add _ _).2.2 i (by rwa [List.length_replicate]), getD_replicate hi,
    List.countP_eq_length_filter, filter_occurrences, List.length_map, Int.zero_add]

theorem indeg_lower {s : Countdown} (hi : i < s.indeg.length) :
    (s.lower k).indeg.getD i 0 = s.indeg.getD i 0 - if k = i then 1 else 0 := by
  rw [Countdown.lower, getD_modify hi]
  split <;> simp

theorem next_lower {s : Countdown} (hk : k < s.indeg.length) :
    (s.lower k).next = s.next ++ if s.indeg.getD k 0 = 1 then [k] else [] := by
  have hlowered := indeg_lower (k := k) hk
  rw [if_pos rfl] at hlowered
  unfold Countdown.lower at hlowered ⊢
  dsimp only at hlowered ⊢
  generalize s.indeg.getD k 0 = x at hlowered ⊢
  rw [List.getD_eq_getElem?_getD, List.getElem?_eq_getElem (by rwa [List.length_modify]), Option.getD_some] at hlowered
  rw [List.getElem?_eq_getElem (by rwa [List.length_modify]), hlowered]
  by_cases h : x = 1
  · simp [h]
  · have : x - 1 ≠ 0 := by omega
    simp [h, this]

/-- Counters that have enough to be lowered from come to zero at most once, and those that do come next. -/
theorem foldl_lower (is : List Nat) (s : Countdown) (hlength : ∀ i ∈ is, i < s.indeg.length)
    (henough : ∀ i < s.indeg.length, (is.count i : Int) ≤ s.indeg.getD i 0) :
    (is.foldl Countdown.lower s).indeg.length = s.indeg.length ∧
    (∀ i < s.indeg.length, (is.foldl Countdown.lower s).indeg.getD i 0 = s.indeg.getD i 0 - is.count i) ∧
    ∃ zeros : List Nat, (is.foldl Countdown.lower s).next = s.next ++ zeros ∧ zeros.Nodup ∧
      ∀ i, i ∈ zeros ↔ i ∈ is ∧ s.indeg.getD i 0 = is.count i := by
  induction is generalizing s with
  | nil => exact ⟨rfl, by simp, [], by simp⟩
  | cons k is ih =>
    have hk := hlength k List.mem_cons_self
    have hsize : (s.lower k).indeg.length = s.indeg.length := List.length_modify ..
    have hcount : ∀ i, ((k :: is).count i : Int) = is.count i + if k = i then 1 else 0 := by
      intro i
      rw [List.count_cons, Int.natCast_add]
      by_cases h : k = i <;> simp [h]
    simp only [hcount] at henough ⊢
    obtain ⟨hlen, hindeg, zeros, hnext, hnodup, hzeros⟩ := ih (s.lower k)
      (fun i hi ↦ hsize ▸ hlength i (List.mem_cons_of_mem k hi)) fun i hi ↦ by
        rw [hsize] at hi
        have := henough i hi
        rw [indeg_lower hi]
        omega
    rw [hsize] at hlen hindeg
    -- the counter is at one now, so it cannot be lowered again
    have hlast : s.indeg.getD k 0 = 1 → k ∉ is := fun hone hin ↦ by
      have := henough k hk
      have := List.count_pos_iff.mpr hin
      rw [if_pos rfl] at *
      omega
    refine ⟨hlen, fun i hi ↦ ?_, (if s.indeg.getD k 0 = 1 then [k] else []) ++ zeros, ?_, ?_, fun i ↦ ?_⟩
    · rw [List.foldl_cons, hindeg i hi, indeg_lower hi]
      omega
    · rw [List.foldl_cons, hnext, next_lower hk, List.append_assoc]
    · split
      next hone => exact List.nodup_cons.mpr ⟨fun hmem ↦ hlast hone ((hzeros k).mp hmem).1, hnodup⟩
      next => exact hnodup
    · have hmem : i ∈ (if s.indeg.getD k 0 = 1 then [k] else []) ↔ i = k ∧ s.indeg.getD k 0 = 1 := by
        split
        next hone => rw [List.mem_singleton, and_iff_left hone]
        next hone => exact iff_of_false List.not_mem_nil fun h ↦ hone h.2
      rw [List.mem_append, hmem, hzeros, List.mem_cons]
      by_cases hik : i = k
      · subst hik
        rw [indeg_lower hk, if_pos rfl]
        by_cases hin : i ∈ is
        · have hne : s.indeg.getD i 0 ≠ 1 := fun hone ↦ hlast hone hin
          rw [and_iff_right hin, and_iff_right rfl, or_iff_right hne, and_iff_right (.inl rfl)]
          omega
        · rw [List.count_eq_zero.mpr hin]
          simp [hin]
      · by_cases hin : i ∈ is
        · rw [indeg_lower (hlength i (List.mem_cons_of_mem k hin))]
          simp [hik, hin, Ne.symm hik]
        · simp [hik, hin]

theorem foldl_visit (edges : List (List Nat)) (batch : List Nat) (s : Countdown) :
    batch.foldl (Countdown.visit edges) s =
      { (batch.flatMap (edges.getD · [])).foldl Countdown.lower s with visited := s.visited + batch.length } := by
  have hlower : ∀ (is : List Nat) (s : Countdown) (v : Nat),
      is.foldl Countdown.lower { s with visited := v } = { is.foldl Countdown.lower s with visited := v } := by
    intro is
    induction is with
    | nil => exact fun _ _ ↦ rfl
    | cons i is ih => exact fun s v ↦ ih (s.lower i) v
  induction batch generalizing s with
  | nil => rfl
  | cons i batch ih =>
    have hvisit : s.visit edges i = { (edges.getD i []).foldl Countdown.lower s with visited := s.visited + 1 } :=
      hlower ..
    rw [List.foldl_cons, ih, List.flatMap_cons, List.foldl_append, hvisit, hlower, List.length_cons,
      Nat.add_assoc, Nat.add_comm 1]

/-- Where the counters stand when the given images are still to be built. -/
structure Counted (g : ImportGraph) (rest : List Nat) (s : Countdown) : Prop where
  ascending : rest.Pairwise (· < ·)
  bounded : ∀ i ∈ rest, i < g.names.length
  settled : ∀ i < g.names.length, i ∉ rest → ∀ j, g.Needs i j → j ∉ rest
  length : s.indeg.length = g.names.length
  indeg : ∀ i < g.names.length, s.indeg.getD i 0 = (g.importsOf i).countP (· ∈ rest)
  visited : s.visited + rest.length = g.names.length

theorem Counted.all (g : ImportGraph) (hbound : ∀ {i j}, g.Needs i j → j < g.names.length) :
    g.Counted (List.range g.names.length) { indeg := g.counters.indeg } where
  ascending := List.pairwise_lt_range
  bounded := fun i hi ↦ List.mem_range.mp hi
  settled := fun i hi hnot ↦ absurd (List.mem_range.mpr hi) hnot
  length := g.length_indeg
  indeg := fun i hi ↦ by
    rw [indeg_eq hi, List.countP_eq_length.mpr fun j hj ↦ by simpa using hbound hj]
  visited := by simp

theorem countP_rest (L rest : List Nat) (g : ImportGraph) :
    L.countP (· ∈ rest) = L.countP (· ∈ g.ready rest) + L.countP (· ∈ g.waiting rest) := by
  induction L with
  | nil => rfl
  | cons j L ih =>
    rw [List.countP_cons, List.countP_cons, List.countP_cons, ih]
    have hready : j ∈ g.ready rest ↔ j ∈ rest ∧ g.isReady rest j = true := List.mem_filter
    have hwaiting : j ∈ g.waiting rest ↔ j ∈ rest ∧ g.isReady rest j = false := by simp [waiting, List.mem_filter]
    by_cases hj : j ∈ rest <;> cases h : g.isReady rest j <;> simp [hready, hwaiting, hj, h] <;> omega

theorem count_flatMap_edges {batch : List Nat} (hnodup : batch.Nodup) (hbounded : ∀ j ∈ batch, j < g.names.length) :
    (batch.flatMap (g.counters.edges.getD · [])).count i = (g.importsOf i).countP (· ∈ batch) := by
  induction batch with
  | nil => simp
  | cons j batch ih =>
    obtain ⟨hj, hnodup⟩ := List.nodup_cons.mp hnodup
    rw [List.flatMap_cons, List.count_append, count_edges (hbounded j List.mem_cons_self),
      ih hnodup fun j hj ↦ hbounded j (List.mem_cons_of_mem _ hj)]
    induction g.importsOf i with
    | nil => rfl
    | cons k L ih =>
      rw [List.count_cons, List.countP_cons, List.countP_cons, ← ih]
      by_cases hk : k = j
      · subst hk
        simp [hj]
        omega
      · simp [hk]
        omega

variable {s : Countdown}

theorem length_rest (g : ImportGraph) (rest : List Nat) : rest.length = (g.ready rest).length +
    (g.waiting rest).length := by
  have := (List.filter_append_perm (g.isReady rest) rest).length_eq
  rw [List.length_append] at this
  exact this.symm

theorem nodup_ready (g : ImportGraph) (h : rest.Pairwise (· < ·)) : (g.ready rest).Nodup :=
    (h.filter _).imp Nat.ne_of_lt

/-- An image is freed in a round if all its imports that were to come are built in it, and there were some. -/
theorem Counted.freed_iff (h : g.Counted rest s) {is : List Nat} (hmem : ∀ i ∈ is, i < s.indeg.length)
    (hcount : ∀ i, is.count i = (g.importsOf i).countP (· ∈ g.ready rest)) {i : Nat} :
    i ∈ is ∧ s.indeg.getD i 0 = is.count i ↔ i ∈ g.ready (g.waiting rest) := by
  have hsplit := countP_rest (g.importsOf i) rest g
  have hwait : (g.importsOf i).countP (· ∈ g.waiting rest) = 0 ↔ ∀ j, g.Needs i j → j ∉ g.waiting rest := by
    simp [List.countP_eq_zero, Needs]
  rw [mem_ready, mem_waiting, ← hwait]
  constructor
  · rintro ⟨hi, heq⟩
    have hlt : i < g.names.length := h.length ▸ hmem i hi
    have hpos := List.count_pos_iff.mpr hi
    rw [h.indeg i hlt, hsplit, hcount] at heq
    rw [hcount] at hpos
    obtain ⟨j, hij, hj⟩ := List.countP_pos_iff.mp hpos
    have hj := (mem_ready.mp (of_decide_eq_true hj)).1
    refine ⟨⟨?_, j, hij, hj⟩, by omega⟩
    by_contra hnot
    exact h.settled i hlt hnot j hij hj
  · rintro ⟨⟨hi, j, hij, hj⟩, hnone⟩
    have hlt := h.bounded i hi
    have hpos : 0 < (g.importsOf i).countP (· ∈ rest) := List.countP_pos_iff.mpr ⟨j, hij, by simpa using hj⟩
    refine ⟨List.count_pos_iff.mp (by rw [hcount]; omega), ?_⟩
    rw [h.indeg i hlt, hcount]
    omega

/-- In one round the images that are ready are built, and those come next that are ready among the ones that waited. -/
theorem Counted.round (hrows : g.imports.length = g.names.length) (h : g.Counted rest s) :
    g.Counted (g.waiting rest) (s.round g.counters.edges (g.ready rest)) ∧
    (s.round g.counters.edges (g.ready rest)).next.mergeSort (· ≤ ·) = g.ready (g.waiting rest) := by
  have hready : ∀ i ∈ g.ready rest, i < g.names.length := fun i hi ↦ h.bounded i (mem_ready.mp hi).1
  have hsplit : ∀ i, (g.importsOf i).countP (· ∈ rest) =
      (g.importsOf i).countP (· ∈ g.ready rest) + (g.importsOf i).countP (· ∈ g.waiting rest) := fun i ↦
      countP_rest _ rest g
  generalize his : (g.ready rest).flatMap (g.counters.edges.getD · []) = is
  have hcount : ∀ i, is.count i = (g.importsOf i).countP (· ∈ g.ready rest) := fun i ↦ by
    rw [← his, count_flatMap_edges (g.nodup_ready h.ascending) hready]
  have hmem : ∀ i ∈ is, i < s.indeg.length := by
    intro i hi
    rw [h.length, ← hrows]
    by_contra hge
    have hnone : g.importsOf i = [] := by
      rw [importsOf, List.getD_eq_getElem?_getD, List.getElem?_eq_none (by omega), Option.getD_none]
    have := List.count_pos_iff.mpr hi
    rw [hcount, hnone] at this
    exact absurd this (Nat.lt_irrefl 0)
  obtain ⟨hlength, hindeg, zeros, hnext, hnodup, hzeros⟩ := foldl_lower is { s with next := [] } hmem fun i hi ↦ by
    rw [h.length] at hi
    rw [h.indeg i hi, hcount, hsplit]
    omega
  rw [Countdown.round, foldl_visit, his]
  refine ⟨⟨h.ascending.filter _, fun i hi ↦ h.bounded i (mem_waiting.mp hi).1, fun i hi hnot j hij hj ↦ ?_, ?_,
    fun i hi ↦ ?_, ?_⟩, ?_⟩
  · have hj := (mem_waiting.mp hj).1
    by_cases hin : i ∈ rest
    · exact hnot (mem_waiting.mpr ⟨hin, j, hij, hj⟩)
    · exact h.settled i hi hin j hij hj
  · exact hlength.trans h.length
  · refine (hindeg i (h.length ▸ hi)).trans ?_
    rw [h.indeg i hi, hcount, hsplit]
    omega
  · have := h.visited
    rw [g.length_rest] at this
    dsimp only
    omega
  · have hperm : (zeros.mergeSort (· ≤ ·)).Perm zeros := List.mergeSort_perm ..
    have hsorted : (zeros.mergeSort (· ≤ ·)).Pairwise fun a b ↦ decide (a ≤ b) = true :=
      List.pairwise_mergeSort (by simp; omega) (by simp; omega) zeros
    dsimp only
    rw [hnext, List.nil_append]
    refine List.Pairwise.eq_of_mem_iff ?_ ((h.ascending.filter _).filter _) fun i ↦ ?_
    · exact (hsorted.and (hperm.nodup_iff.mpr hnodup)).imp fun ⟨hle, hne⟩ ↦
        Nat.lt_of_le_of_ne (of_decide_eq_true hle) hne
    · rw [hperm.mem_iff, hzeros]
      exact h.freed_iff hmem hcount

/-- The countdown finds the layers, and stops with the counters of what is left in none. -/
theorem Counted.run (hrows : g.imports.length = g.names.length) (h : g.Counted rest s) :
    (Countdown.run g.counters.edges s (g.ready rest)).1 = (g.layers rest).1 ∧
    g.Counted (g.layers rest).2 (Countdown.run g.counters.edges s (g.ready rest)).2 := by
  induction rest using ImportGraph.layers.induct g generalizing s with
  | case1 rest hready =>
    rw [ImportGraph.layers, dif_pos hready, Countdown.run, dif_pos hready]
    exact ⟨rfl, h⟩
  | case2 rest hready _ _ _ ih =>
    obtain ⟨hnext, hsorted⟩ := h.round hrows
    obtain ⟨hbatches, hlast⟩ := ih hnext
    rw [ImportGraph.layers, dif_neg hready, Countdown.run, dif_neg hready]
    dsimp only
    rw [hsorted]
    exact ⟨congrArg (g.ready rest :: ·) hbatches, hlast⟩

theorem ready_layers (g : ImportGraph) (rest : List Nat) : g.ready (g.layers rest).2 = [] := by
  induction rest using ImportGraph.layers.induct g with
  | case1 rest hready => rwa [ImportGraph.layers, dif_pos hready]
  | case2 rest hready _ _ _ ih => rwa [ImportGraph.layers, dif_neg hready]

theorem Counted.indeg_pos_iff (h : g.Counted rest s) (hi : i < g.names.length) :
    0 < s.indeg.getD i 0 ↔ i ∈ g.waiting rest := by
  have hpos : 0 < (g.importsOf i).countP (· ∈ rest) ↔ ∃ j, g.Needs i j ∧ j ∈ rest := by
    simp [List.countP_pos_iff, Needs]
  rw [h.indeg i hi, Int.natCast_pos, hpos, mem_waiting, iff_and_self]
  rintro ⟨j, hij, hj⟩
  by_contra hnot
  exact h.settled i hi hnot j hij hj

theorem batches_eq (hbound : ∀ {i j}, g.Needs i j → j < g.names.length) (hrows : g.imports.length = g.names.length) :
    g.batches = match g.layers (List.range g.names.length) with
      | (batches, []) => .ok batches
      | (_, left) => .error (.cycle ((left.map g.nameOf).mergeSort fun a b ↦ decide (a ≤ b))) := by
  have hall := Counted.all g hbound
  obtain ⟨hbatches, hlast⟩ := hall.run hrows
  have hzeros : ((List.range g.names.length).filter fun i ↦ g.counters.indeg.getD i 0 = 0) =
      g.ready (List.range g.names.length) := by
    refine List.filter_congr fun i hi ↦ ?_
    have hpos := hall.indeg_pos_iff (List.mem_range.mp hi)
    have hnonneg := hall.indeg i (List.mem_range.mp hi)
    have hwaiting : i ∈ g.waiting (List.range g.names.length) ↔ g.isReady (List.range g.names.length) i = false := by
      simp [waiting, List.mem_filter, List.mem_range.mp hi]
    rw [hwaiting] at hpos
    dsimp only at hpos hnonneg
    cases hready : g.isReady (List.range g.names.length) i with
    | false =>
      have := hpos.mpr hready
      exact decide_eq_false (by omega)
    | true =>
      have : ¬ 0 < g.counters.indeg.getD i 0 := fun h ↦ by simp [hpos.mp h] at hready
      exact decide_eq_true (by omega)
  unfold batches
  dsimp only
  rw [hzeros, hbatches]
  generalize (Countdown.run g.counters.edges { indeg := g.counters.indeg } (g.ready (List.range g.names.length))).2 =
    last at hlast ⊢
  have hnone := g.ready_layers (List.range g.names.length)
  generalize g.layers (List.range g.names.length) = found at hlast hnone ⊢
  obtain ⟨bs, left⟩ := found
  dsimp only at hlast hnone
  have hwait : ∀ i ∈ left, i ∈ g.waiting left := by
    intro i hi
    by_contra hnot
    have : i ∈ g.ready left := List.mem_filter.mpr ⟨hi, by simpa [waiting, hi] using hnot⟩
    rw [hnone] at this
    cases this
  have hleft : ((List.range g.names.length).filter fun i ↦ 0 < last.indeg.getD i 0) = left := by
    refine List.Pairwise.eq_of_mem_iff (List.pairwise_lt_range.filter _) hlast.ascending fun i ↦ ?_
    rw [List.mem_filter, List.mem_range, decide_eq_true_iff]
    constructor
    · rintro ⟨hi, hpos⟩
      exact (mem_waiting.mp ((hlast.indeg_pos_iff hi).mp hpos)).1
    · intro hi
      have := hlast.bounded i hi
      exact ⟨this, (hlast.indeg_pos_iff this).mpr (hwait i hi)⟩
  have := hlast.visited
  rw [hleft]
  cases left with
  | nil => exact if_pos (by simpa using this)
  | cons i left => exact if_neg (by rw [List.length_cons] at this; omega)

end

end ImportGraph

/-! ### Images -/

def Imports (images : List Image) (i j : Nat) : Prop :=
  ∃ a b, images[i]? = some a ∧ images[j]? = some b ∧ b.name ∈ a.imports

section

variable {images : List Image} {names : List String} {image wanted : String} {g : ImportGraph} {i j : Nat}

theorem repeated?_eq_none (hnames : names.Nodup) : repeated? names = none := by
  refine List.findSome?_eq_none_iff.mpr ?_
  rintro ⟨n, j⟩ hj
  have hplace := (Ssa.idxOf?_eq_some_iff hnames).mpr (List.mem_zipIdx_iff_getElem?.mp hj)
  dsimp only at hplace ⊢
  rw [hplace]
  exact if_neg (Nat.lt_irrefl j)

theorem importOf_eq_ok_iff (hnames : names.Nodup) : importOf names image wanted = .ok j ↔ names[j]? = some wanted := by
  rw [← Ssa.idxOf?_eq_some_iff hnames]
  unfold importOf
  cases names.idxOf? wanted with
  | none => exact iff_of_false nofun nofun
  | some i => exact ⟨fun h ↦ congrArg some (Except.ok.inj h), fun h ↦ congrArg Except.ok (Option.some.inj h)⟩

theorem exists_importOf_ok (hnames : names.Nodup) (h : wanted ∈ names) : ∃ j, importOf names image wanted = .ok j := by
  obtain ⟨j, hj⟩ := List.mem_iff_getElem?.mp h
  exact ⟨j, (importOf_eq_ok_iff hnames).mpr hj⟩

theorem exists_row {a : Image} (hnames : names.Nodup) (hgiven : ∀ wanted ∈ a.imports, wanted ∈ names) :
    ∃ row, a.imports.mapM (importOf names a.name) = .ok row :=
  exists_mapM_ok fun wanted hw ↦ exists_importOf_ok hnames (hgiven wanted hw)

theorem mem_row {a : Image} {row : List Nat} (hnames : (images.map (·.name)).Nodup)
    (h : a.imports.mapM (importOf (images.map (·.name)) a.name) = .ok row) :
    j ∈ row ↔ ∃ b, images[j]? = some b ∧ b.name ∈ a.imports := by
  rw [List.mem_iff_getElem?]
  simp only [getElem?_mapM_ok h, importOf_eq_ok_iff hnames, List.getElem?_map, Option.map_eq_some_iff]
  constructor
  · rintro ⟨k, _, hw, b, hb, rfl⟩
    exact ⟨b, hb, List.mem_of_getElem? hw⟩
  · rintro ⟨b, hb, hmem⟩
    obtain ⟨k, hk⟩ := List.mem_iff_getElem?.mp hmem
    exact ⟨k, _, hk, b, hb, rfl⟩

theorem ofImages_ok (hnames : (images.map (·.name)).Nodup)
    (hgiven : ∀ a ∈ images, ∀ wanted ∈ a.imports, wanted ∈ images.map (·.name)) :
    ∃ g, ImportGraph.ofImages images = .ok g ∧ g.names = images.map (·.name) ∧ g.imports.length = g.names.length ∧
      ∀ i j, g.Needs i j ↔ Imports images i j := by
  obtain ⟨rows, hrows⟩ := exists_mapM_ok fun a ha ↦ exists_row hnames (hgiven a ha)
  refine ⟨⟨_, rows⟩, ?_, rfl, ?_, fun i j ↦ ?_⟩
  · rw [ImportGraph.ofImages]
    simp only [repeated?_eq_none hnames, hrows]
    rfl
  · rw [List.length_map]
    exact length_of_mapM_ok hrows
  · unfold ImportGraph.Needs ImportGraph.importsOf Imports
    dsimp only
    rw [List.getD_eq_getElem?_getD]
    cases hi : images[i]? with
    | none =>
      have hnone : rows[i]? = none := by
        refine Option.eq_none_iff_forall_ne_some.mpr fun row hrow ↦ ?_
        obtain ⟨a, ha, -⟩ := (getElem?_mapM_ok hrows i row).mp hrow
        cases hi.symm.trans ha
      simp [hnone]
    | some a =>
      obtain ⟨row, hrow⟩ := exists_row hnames (hgiven a (List.mem_of_getElem? hi))
      rw [(getElem?_mapM_ok hrows i row).mpr ⟨a, hi, hrow⟩, Option.getD_some, mem_row hnames hrow]
      simp

theorem nameOf_eq {a : Image} (hg : g.names = images.map (·.name)) (h : images[i]? = some a) : g.nameOf i = a.name := by
  rw [ImportGraph.nameOf, hg, List.getD_eq_getElem?_getD, List.getElem?_map, h]
  rfl

/-- Imports are built first, layer by layer. For images with different names whose imports are all given, an order is
found if and only if no image imports itself, even through others. Each image is then built exactly once, in the batch
whose number is the length of the longest chain of imports below it, so behind all its imports; and the images of a
batch are in the order in which they were given. Otherwise the error names exactly the images that lead to a cycle. -/
theorem batches_layered (hnames : (images.map (·.name)).Nodup)
    (hgiven : ∀ a ∈ images, ∀ wanted ∈ a.imports, wanted ∈ images.map (·.name)) :
    ∃ g, ImportGraph.ofImages images = .ok g ∧
      ((∃ bs, g.batches = .ok bs) ↔ ∀ i, ¬ TransGen (Imports images) i i) ∧
      (∀ bs, g.batches = .ok bs → bs.flatten.Perm (List.range images.length) ∧
        ∀ d b, bs[d]? = some b → b.Pairwise (· < ·) ∧ ∀ i ∈ b, IsGreatest (chainLengths (Imports images) i) d ∧
          ∀ j, Imports images i j → ∃ d' < d, ∃ b', bs[d']? = some b' ∧ j ∈ b') ∧
      ∀ e, g.batches = .error e → ∃ names, e = .cycle names ∧ names.Nodup ∧
        ∀ name, name ∈ names ↔ ∃ i a, images[i]? = some a ∧ a.name = name ∧ LeadsToCycle (Imports images) i := by
  obtain ⟨g, hg, hnamesOf, hrows, hneeds⟩ := ofImages_ok hnames hgiven
  have hrel : g.Needs = Imports images := funext fun i ↦ funext fun j ↦ propext (hneeds i j)
  have hlength : g.names.length = images.length := by rw [hnamesOf, List.length_map]
  have hbound : ∀ {i j}, Imports images i j → j < images.length := by
    rintro i j ⟨a, b, -, hb, -⟩
    exact (List.getElem?_eq_some_iff.mp hb).1
  have hstart : ∀ {i j}, Imports images i j → i < images.length := by
    rintro i j ⟨a, b, ha, -⟩
    exact (List.getElem?_eq_some_iff.mp ha).1
  obtain ⟨hlayers, hascending, hleft⟩ := (ImportGraph.Remains.all g).layers (by rw [hrel, hlength]; exact hbound)
  have hperm := ImportGraph.layers_perm g (List.range g.names.length)
  simp only [hrel, hlength, Nat.zero_add] at hlayers hascending hleft hperm
  refine ⟨g, hg, ?_⟩
  rw [ImportGraph.batches_eq (by rw [hrel, hlength]; exact hbound) hrows, hlength]
  generalize g.layers (List.range images.length) = found at hlayers hascending hleft hperm
  obtain ⟨bs, left⟩ := found
  cases left with
  | nil =>
    rw [List.append_nil] at hperm
    refine ⟨iff_of_true ⟨bs, rfl⟩ fun i hi ↦ ?_, ?_, nofun⟩
    · obtain ⟨j, hij, -⟩ := TransGen.head'_iff.mp hi
      exact absurd ((hleft i).mpr ⟨hstart hij, i, .refl, hi⟩) List.not_mem_nil
    · rintro _ ⟨⟩
      refine ⟨hperm, fun d b hb ↦ ⟨(hlayers d b hb).1, fun i hi ↦ ?_⟩⟩
      have hgreatest := (((hlayers d b hb).2 i).mp hi).2
      refine ⟨hgreatest, fun j hij ↦ ?_⟩
      obtain ⟨b', hb', hj⟩ := List.mem_flatten.mp (hperm.mem_iff.mpr (List.mem_range.mpr (hbound hij)))
      obtain ⟨d', hd'⟩ := List.mem_iff_getElem?.mp hb'
      have hlonger := succ_mem_chainLengths.mpr ⟨j, hij, (((hlayers d' b' hd').2 j).mp hj).2.1⟩
      exact ⟨d', hgreatest.2 hlonger, b', hd', hj⟩
  | cons k left =>
    obtain ⟨-, j, -, hcycle⟩ := (hleft k).mp List.mem_cons_self
    refine ⟨iff_of_false nofun fun hnone ↦ hnone j hcycle, nofun, ?_⟩
    rintro _ ⟨⟩
    have himage : ∀ i ∈ k :: left, ∃ a, images[i]? = some a := fun i hi ↦
      ⟨_, List.getElem?_eq_getElem ((hleft i).mp hi).1⟩
    refine ⟨_, rfl, (List.mergeSort_perm ..).nodup_iff.mpr ?_, fun name ↦ ?_⟩
    · refine List.Nodup.map_on (fun i hi j hj heq ↦ ?_) (hascending.imp Nat.ne_of_lt)
      obtain ⟨a, ha⟩ := himage i hi
      obtain ⟨b, hb⟩ := himage j hj
      rw [nameOf_eq hnamesOf ha, nameOf_eq hnamesOf hb] at heq
      exact Ssa.place_unique hnames (a := a.name) (by simp [ha]) (by simp [hb, heq])
    · rw [(List.mergeSort_perm ..).mem_iff, List.mem_map]
      constructor
      · rintro ⟨i, hi, rfl⟩
        obtain ⟨a, ha⟩ := himage i hi
        exact ⟨i, a, ha, (nameOf_eq hnamesOf ha).symm, ((hleft i).mp hi).2⟩
      · rintro ⟨i, a, ha, rfl, hlead⟩
        exact ⟨i, (hleft i).mpr ⟨(List.getElem?_eq_some_iff.mp ha).1, hlead⟩, nameOf_eq hnamesOf ha⟩

end

/-- Two images that import each other, one that imports the first of them, and one that stands alone. -/
def hangingImages : List Image :=
  [{ name := "A", imports := ["B"] }, { name := "B", imports := ["A", "A"] }, { name := "C", imports := ["A", "D"] },
    { name := "D" }]

/-- The image that hangs below the cycle is named with it, the one that it imports besides is not. -/
theorem batches_layered_hanging : (hangingImages.map (·.name)).Nodup ∧
    (∀ a ∈ hangingImages, ∀ wanted ∈ a.imports, wanted ∈ hangingImages.map (·.name)) ∧
    ∃ g names, ImportGraph.ofImages hangingImages = .ok g ∧ g.batches = .error (.cycle names) ∧
    "A" ∈ names ∧ "C" ∈ names ∧
      "D" ∉ names := by
  have hnames : (hangingImages.map (·.name)).Nodup := by decide
  have hgiven : ∀ a ∈ hangingImages, ∀ wanted ∈ a.imports, wanted ∈ hangingImages.map (·.name) := by decide
  obtain ⟨g, hg, hok, -, herror⟩ := batches_layered hnames hgiven
  have hthere : Imports hangingImages 0 1 := ⟨_, _, rfl, rfl, by decide⟩
  have hback : Imports hangingImages 1 0 := ⟨_, _, rfl, rfl, by decide⟩
  have hhangs : Imports hangingImages 2 0 := ⟨_, _, rfl, rfl, by decide⟩
  have hcycle : TransGen (Imports hangingImages) 0 0 := .head hthere (.single hback)
  have halone : ¬ LeadsToCycle (Imports hangingImages) 3 := by
    rintro ⟨j, hj, hjj⟩
    have hnone : ∀ p, ¬ Imports hangingImages 3 p := by
      rintro p ⟨a, b, ⟨⟩, -, hmem⟩
      cases hmem
    rcases ReflTransGen.cases_head hj with rfl | ⟨p, hp, -⟩
    · obtain ⟨p, hp, -⟩ := TransGen.head'_iff.mp hjj
      exact hnone p hp
    · exact hnone p hp
  cases hbatches : g.batches with
  | ok bs => exact absurd hcycle (hok.mp ⟨bs, hbatches⟩ 0)
  | error e =>
    obtain ⟨names, rfl, -, hmem⟩ := herror e hbatches
    refine ⟨hnames, hgiven, g, names, hg, hbatches, (hmem "A").mpr ⟨0, _, rfl, rfl, 0, .refl, hcycle⟩,
      (hmem "C").mpr ⟨2, _, rfl, rfl, 0, .single hhangs, hcycle⟩, fun hd ↦ ?_⟩
    obtain ⟨i, a, ha, hname, hlead⟩ := (hmem "D").mp hd
    obtain rfl : i = 3 := Ssa.place_unique hnames (a := "D") (by simp [ha, hname]) rfl
    exact halone hlead

end CilSsa.Pipeline

