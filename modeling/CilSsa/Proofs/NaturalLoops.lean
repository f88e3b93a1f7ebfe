import Mathlib.Algebra.BigOperators.Group.Finset.Piecewise
import CilSsa.Passes.Loops
import CilSsa.Proofs.Dominance

/-! The blocks of a loop are gathered backwards from its latch up to its header, which ends on every graph with
finitely many blocks. -/

namespace CilSsa.Ssa.Module

variable {m : Module} {f : Function} {a b c x : BlockId} {p q : List BlockId}

theorem Path.append (hp : m.Path a b p) (hq : m.Path b c q) : ∃ w, m.Path a c w ∧ ∀ y ∈ w, y ∈ p ∨ y ∈ q := by
  induction hq with
  | refl => exact ⟨p, hp, fun y hy ↦ .inl hy⟩
  | step _ hedge ih =>
    obtain ⟨w, hw, hall⟩ := ih
    refine ⟨_, .step hw hedge, fun y hy ↦ ?_⟩
    rcases List.mem_cons.mp hy with rfl | hy
    · exact .inr List.mem_cons_self
    · exact (hall y hy).imp_right (List.mem_cons_of_mem _)

theorem Path.cons (hedge : some b ∈ m.successors a) (hp : m.Path b c p) : m.Path a c (p ++ [a]) := by
  induction hp with
  | refl => exact .step .refl hedge
  | step _ hnext ih => exact .step ih hnext

theorem OnEveryPath.of_path (h : m.OnEveryPath f a b) (hp : m.Path x b p) (ha : a ∉ p) : m.OnEveryPath f a x := by
  intro q hq
  obtain ⟨w, hw, hall⟩ := hq.append hp
  exact (hall a (h w hw)).resolve_right ha

theorem mem_predecessors_iff : a ∈ m.predecessors f b ↔ a ∈ f.blockIds ∧ some b ∈ m.successors a := by
  simp [predecessors]

theorem Confines.of_blockIds (hf : m.function? f.id = some f) (hbody : f.isDeclaration = false)
    (hstay : ∀ b ∈ f.blockIds, ∀ c, some c ∈ m.successors b → c ∈ f.blockIds) : m.Confines f := by
  refine ⟨hf, hbody, fun b c hb hc ↦ ?_⟩
  obtain ⟨k, -, rfl⟩ := List.mem_map.mp (hstay b (mem_blockIds hf hb hc) c hc)
  rfl

def edges (m : Module) (f : Function) : List (BlockId × BlockId) :=
  f.blockIds.flatMap fun b ↦ ((m.successors b).filterMap id).map fun c ↦ (b, c)

open Classical in
/-- The branches that control can take, back to a block that is on every way to them, in block order. -/
noncomputable def backEdges (m : Module) (f : Function) : List (BlockId × BlockId) :=
  (m.edges f).filter fun e ↦ m.FromEntry f e.1 ∧ m.OnEveryPath f e.2 e.1

theorem mem_backEdges_iff : (b, a) ∈ m.backEdges f ↔
    (b ∈ f.blockIds ∧ some a ∈ m.successors b) ∧ m.FromEntry f b ∧ m.OnEveryPath f a b := by
  simp [backEdges, edges]

end CilSsa.Ssa.Module

namespace CilSsa.Passes

open CilSsa.Ssa

/-- The gathering of a loop without fuel: a block that was gathered is passed over, and a new one brings its
predecessors. -/
inductive Gathers (preds : BlockId → List BlockId) : List BlockId → List BlockId → List BlockId → Prop
  | done {body : List BlockId} : Gathers preds [] body body
  | known {b : BlockId} {work body all : List BlockId} : b ∈ body → Gathers preds work body all →
      Gathers preds (b :: work) body all
  | new {b : BlockId} {work body all : List BlockId} : b ∉ body → Gathers preds (preds b ++ work) (b :: body) all →
      Gathers preds (b :: work) body all

section gathers

variable {preds : BlockId → List BlockId} {work body all : List BlockId} {blocks : Finset BlockId} {b : BlockId}

def pending (preds : BlockId → List BlockId) (blocks : Finset BlockId) (body : List BlockId) : Nat :=
  ∑ b ∈ blocks \ body.toFinset, (preds b).length

theorem pending_cons (preds : BlockId → List BlockId) (hb : b ∈ blocks) (hbody : b ∉ body) :
    pending preds blocks (b :: body) + (preds b).length = pending preds blocks body := by
  unfold pending
  have hmem : b ∈ blocks \ body.toFinset := by simp [hb, hbody]
  rw [List.toFinset_cons, Finset.sdiff_insert, Finset.sum_erase_add _ _ hmem]

theorem gathers_loopBody (hpreds : ∀ x, ∀ p ∈ preds x, p ∈ blocks) (fuel : Nat) (hwork : ∀ x ∈ work, x ∈ blocks)
    (hfuel : pending preds blocks body + work.length ≤ fuel) : Gathers preds work body
    (loopBody preds fuel work body) := by
  induction fuel generalizing work body with
  | zero =>
    obtain rfl : work = [] := List.eq_nil_of_length_eq_zero (by omega)
    exact .done
  | succ fuel ih =>
    cases work with
    | nil => exact .done
    | cons b work =>
      have hrest : ∀ x ∈ work, x ∈ blocks := fun x hx ↦ hwork x (List.mem_cons_of_mem b hx)
      rw [List.length_cons] at hfuel
      rw [loopBody]
      split
      · rename_i hb
        exact .known (by simpa using hb) (ih hrest (by omega))
      · rename_i hb
        have hb : b ∉ body := by simpa using hb
        have hcons := pending_cons preds (hwork b List.mem_cons_self) hb
        refine .new hb (ih (fun x hx ↦ ?_) ?_)
        · exact (List.mem_append.mp hx).elim (hpreds b x) (hrest x)
        · rw [List.length_append]
          omega

theorem Gathers.sound (h : Gathers preds work body all) {P : BlockId → Prop} {start : List BlockId}
    (hsub : start ⊆ body) (hbody : ∀ x ∈ body, P x) (hwork : ∀ x ∈ work, P x) (hstep : ∀ x, P x → x ∉ start →
    ∀ p ∈ preds x, P p) : ∀ x ∈ all, P x := by
  induction h with
  | done => exact hbody
  | known _ _ ih => exact ih hsub hbody fun x hx ↦ hwork x (List.mem_cons_of_mem _ hx)
  | @new b work body all hb _ ih =>
    have hPb := hwork b List.mem_cons_self
    refine ih (fun x hx ↦ List.mem_cons_of_mem b (hsub hx)) (fun x hx ↦ ?_) fun x hx ↦ ?_
    · rcases List.mem_cons.mp hx with rfl | hx
      · exact hPb
      · exact hbody x hx
    · rcases List.mem_append.mp hx with hx | hx
      · exact hstep b hPb (fun hmem ↦ hb (hsub hmem)) x hx
      · exact hwork x (List.mem_cons_of_mem b hx)

theorem Gathers.closed (h : Gathers preds work body all) :
    body ⊆ all ∧ work ⊆ all ∧ ∀ x ∈ all, x ∈ body ∨ preds x ⊆ all := by
  induction h with
  | done => exact ⟨fun _ hx ↦ hx, List.nil_subset _, fun _ hx ↦ .inl hx⟩
  | known hb _ ih =>
    obtain ⟨hbody, hwork, hpreds⟩ := ih
    exact ⟨hbody, List.cons_subset.mpr ⟨hbody hb, hwork⟩, hpreds⟩
  | @new b work body all hb _ ih =>
    obtain ⟨hbody, hwork, hpreds⟩ := ih
    obtain ⟨hfirst, hbody⟩ := List.cons_subset.mp hbody
    obtain ⟨hnew, hwork⟩ := List.append_subset.mp hwork
    refine ⟨hbody, List.cons_subset.mpr ⟨hfirst, hwork⟩, fun x hx ↦ ?_⟩
    rcases hpreds x hx with hx | hx
    · rcases List.mem_cons.mp hx with rfl | hx
      · exact .inr hnew
      · exact .inl hx
    · exact .inr hx

end gathers

section loops

variable {m : Module} {f : Function} {h b x : BlockId} {all : List BlockId}

/-- What is gathered are the header and the blocks that control can come from to the latch without going through it. -/
theorem Gathers.mem_iff (hg : Gathers (m.predecessors f) [b] [h] all) (hx : x ∈ f.blockIds)
    (hstay : ∀ b ∈ f.blockIds, ∀ c, some c ∈ m.successors b → c ∈ f.blockIds) :
    x ∈ all ↔ x = h ∨ ∃ p, m.Path x b p ∧ h ∉ p := by
  constructor
  · refine hg.sound (P := fun x ↦ x = h ∨ ∃ p, m.Path x b p ∧ h ∉ p) (List.Subset.refl _) ?_ ?_ ?_ x
    · intro x hx
      exact .inl (List.mem_singleton.mp hx)
    · intro x hx
      obtain rfl := List.mem_singleton.mp hx
      by_cases hxh : x = h
      · exact .inl hxh
      · exact .inr ⟨[x], .refl, fun hmem ↦ hxh (List.mem_singleton.mp hmem).symm⟩
    · rintro y hy hyh p hp
      obtain ⟨w, hw, hout⟩ := hy.resolve_left fun heq ↦ hyh (List.mem_singleton.mpr heq)
      by_cases hph : p = h
      · exact .inl hph
      · refine .inr ⟨w ++ [p], hw.cons (Module.mem_predecessors_iff.mp hp).2, fun hmem ↦ ?_⟩
        exact (List.mem_append.mp hmem).elim hout fun hmem ↦ hph (List.mem_singleton.mp hmem).symm
  · obtain ⟨hbody, hwork, hpreds⟩ := hg.closed
    rintro (rfl | ⟨p, hp, hout⟩)
    · exact hbody List.mem_cons_self
    · -- back along the way, each block is gathered for the one behind it
      have hback : ∀ {y p}, m.Path x y p → h ∉ p → y ∈ f.blockIds ∧ (y ∈ all → x ∈ all) := by
        intro y p hp hout
        induction hp with
        | refl => exact ⟨hx, id⟩
        | @step c d p hp hedge ih =>
          rw [List.mem_cons, not_or] at hout
          obtain ⟨hc, hall⟩ := ih hout.2
          refine ⟨hstay c hc d hedge, fun hd ↦ hall ?_⟩
          refine (hpreds d hd).resolve_left (fun hmem ↦ hout.1 (List.mem_singleton.mp hmem).symm) ?_
          exact Module.mem_predecessors_iff.mpr ⟨hc, hedge⟩
      exact (hback hp hout).2 (hwork List.mem_cons_self)

theorem length_predecessors (m : Module) (f : Function) (x : BlockId) :
    (m.predecessors f x).length = ∑ p ∈ f.blockIds.toFinset, (m.successors p).count (some x) := by
  rw [List.sum_toFinset _ (Module.nodup_blockIds f), Module.predecessors, List.length_flatMap]
  congr 1
  refine List.map_congr_left fun p _ ↦ ?_
  rw [List.length_map, List.count_eq_length_filter]

theorem sum_count_le {α : Type} [DecidableEq α] (s : Finset α) (l : List (Option α)) :
    ∑ x ∈ s, l.count (some x) ≤ l.length := by
  induction l with
  | nil => simp
  | cons o l ih =>
    have hone : ∑ x ∈ s, (if o == some x then 1 else 0) ≤ 1 := by
      rw [← Finset.card_filter, Finset.card_le_one]
      intro x hx y hy
      simp only [Finset.mem_filter, beq_iff_eq] at hx hy
      exact Option.some.inj (hx.2.symm.trans hy.2)
    simp only [List.count_cons, Finset.sum_add_distrib, List.length_cons]
    omega

theorem pending_lt_walkBound (hf : m.function? f.id = some f) (body : List BlockId) :
    pending (m.predecessors f) f.blockIds.toFinset body + 1 < m.walkBound := by
  refine lt_of_le_of_lt (Nat.succ_le_succ ?_) (Module.unseen_lt_walkBound hf)
  calc pending (m.predecessors f) f.blockIds.toFinset body
      ≤ ∑ x ∈ f.blockIds.toFinset, (m.predecessors f x).length := Finset.sum_le_sum_of_subset Finset.sdiff_subset
    _ = ∑ p ∈ f.blockIds.toFinset, ∑ x ∈ f.blockIds.toFinset, (m.successors p).count (some x) := by
      simp only [length_predecessors]
      exact Finset.sum_comm
    _ ≤ ∑ p ∈ f.blockIds.toFinset, (1 + (m.successors p).length) :=
      Finset.sum_le_sum fun p _ ↦ (sum_count_le _ _).trans (Nat.le_add_left _ _)
    _ = m.unseen f.blockIds.toFinset [] := by rw [Module.unseen, List.toFinset_nil, Finset.sdiff_empty]

theorem gathers_loop (hf : m.function? f.id = some f) (h : BlockId) (hb : b ∈ f.blockIds) :
    Gathers (m.predecessors f) [b] [h] (loopBody (m.predecessors f) m.walkBound [b] [h]) := by
  have hpreds : ∀ x, ∀ p ∈ m.predecessors f x, p ∈ f.blockIds.toFinset :=
    fun x p hp ↦ List.mem_toFinset.mpr (Module.mem_predecessors_iff.mp hp).1
  refine gathers_loopBody hpreds _ (fun x hx ↦ ?_) ?_
  · rw [List.mem_singleton.mp hx]
    exact List.mem_toFinset.mpr hb
  · have := pending_lt_walkBound hf [h]
    rw [List.length_singleton]
    omega

theorem dominates_iff_onEveryPath (hc : m.Confines f) (hb : m.FromEntry f b) (hh : some h ∈ m.successors b) :
    (DomTree.of m f).dominates h b = true ↔ m.OnEveryPath f h b := by
  have hbmem := hc.mem_order_iff.mpr hb.2
  have hhmem := hc.mem_order_iff.mpr (.step hb.2 hh)
  exact ⟨DomTree.onEveryPath_of_dominates hc hbmem, DomTree.dominates_of_onEveryPath hc hhmem hbmem⟩

open Classical in
theorem findLoops_eq (hc : m.Confines f) : findLoops m f = (m.backEdges f).map fun e ↦ loopOf m f e.2 e.1 := by
  have hreach : ∀ b, (DomTree.of m f).reachable b = true ↔ m.FromEntry f b := by
    intro b
    rw [DomTree.reachable_iff_mem, hc.mem_order_iff]
    exact (and_iff_right hc.body).symm
  unfold Module.backEdges Module.edges
  rw [List.filter_flatMap, List.map_flatMap]
  simp only [findLoops]
  induction f.blockIds with
  | nil => rfl
  | cons b bs ih =>
    rw [List.filter_cons, List.flatMap_cons, ← ih, List.filter_map, List.map_map, List.filter_filterMap,
      List.map_filterMap]
    by_cases hb : m.FromEntry f b
    · rw [if_pos ((hreach b).mpr hb), List.flatMap_cons]
      congr 1
      refine List.filterMap_congr fun t ht ↦ ?_
      cases t with
      | none => rfl
      | some h =>
        have hdom := dominates_iff_onEveryPath hc hb ht
        by_cases hh : m.OnEveryPath f h b <;> simp [hb, hh, hdom]
    · rw [if_neg fun h ↦ hb ((hreach b).mp h), List.self_eq_append_left, List.filterMap_eq_nil_iff]
      intro t _
      cases t <;> simp [hb]

/-- The loops of a function in which all branches stay are natural. There is one for each branch that control can take
back to a block on every way to it, in block order; its blocks, in the same order, are the header and those that control
can come from to the latch without going through the header; and the header is on every way to those of them that can be
reached. The gathering of a body ends, whatever the header. -/
theorem findLoops_natural (m : Module) (f : Function) (hf : m.function? f.id = some f)
    (hstay : ∀ b ∈ f.blockIds, ∀ c, some c ∈ m.successors b → c ∈ f.blockIds) :
    (findLoops m f).map (fun l ↦ (l.latch, l.header)) = m.backEdges f ∧
      (∀ l ∈ findLoops m f, l.blocks.Sublist f.blockIds ∧
        (∀ x ∈ f.blockIds, x ∈ l.blocks ↔ x = l.header ∨ ∃ p, m.Path x l.latch p ∧ l.header ∉ p) ∧
        ∀ x ∈ l.blocks, m.FromEntry f x → m.OnEveryPath f l.header x) ∧
      ∀ h, ∀ b ∈ f.blockIds, ∃ body, Gathers (m.predecessors f) [b] [h] body ∧
        loopOf m f h b = ⟨h, b, f.blockIds.filter body.contains⟩ := by
  have hends : ∀ h, ∀ b ∈ f.blockIds, ∃ body, Gathers (m.predecessors f) [b] [h] body ∧
      loopOf m f h b = ⟨h, b, f.blockIds.filter body.contains⟩ :=
    fun h b hb ↦ ⟨_, gathers_loop hf h hb, rfl⟩
  cases hbody : f.isDeclaration with
  | true =>
    have hempty : f.blockIds = [] := by
      have : f.blocks = #[] := Array.isEmpty_iff.mp hbody
      rw [Function.blockIds, this]
      rfl
    have hnone : findLoops m f = [] := by simp [findLoops, hempty]
    refine ⟨?_, ?_, hends⟩
    · simp [hnone, Module.backEdges, Module.edges, hempty]
    · rw [hnone]
      exact nofun
  | false =>
    have hc := Module.Confines.of_blockIds hf hbody hstay
    have hloops := findLoops_eq hc
    refine ⟨?_, fun l hl ↦ ?_, hends⟩
    · rw [hloops, List.map_map]
      exact List.map_id _
    · rw [hloops] at hl
      obtain ⟨⟨b, h⟩, he, rfl⟩ := List.mem_map.mp hl
      obtain ⟨⟨hmem, -⟩, -, hall⟩ := Module.mem_backEdges_iff.mp he
      have hiff : ∀ x ∈ f.blockIds, x ∈ (loopOf m f h b).blocks ↔ x = h ∨ ∃ p, m.Path x b p ∧ h ∉ p := by
        intro x hx
        rw [← (gathers_loop hf h hmem).mem_iff hx hstay]
        simp [loopOf, hx]
      refine ⟨List.filter_sublist, hiff, fun x hx hentry ↦ ?_⟩
      rcases (hiff x (List.filter_sublist.subset hx)).mp hx with rfl | ⟨p, hp, hout⟩
      · intro q hq
        cases hq <;> exact List.mem_cons_self
      · exact hall.of_path hp hout

/-- The loop of a function that has one: its header is on every way to its latch. -/
theorem findLoops_natural_looping : let m : Module := { name := "m", functions := #[DomTree.looping] }
    let f := DomTree.looping
    m.function? f.id = some f ∧ (∀ b ∈ f.blockIds, ∀ c, some c ∈ m.successors b → c ∈ f.blockIds) ∧
      (f.blockId 2, f.blockId 1) ∈ m.backEdges f ∧
      ∃ l ∈ findLoops m f, l.blocks = [f.blockId 1, f.blockId 2] ∧ m.OnEveryPath f l.header (f.blockId 2) := by
  intro m f
  have hall : ∀ b ∈ f.blockIds, ∀ t ∈ m.successors b, t.all (f.blockIds.contains ·) = true := by decide
  have hstay : ∀ b ∈ f.blockIds, ∀ c, some c ∈ m.successors b → c ∈ f.blockIds := fun b hb c hc ↦
    List.contains_iff_mem.mp (hall b hb (some c) hc)
  have hfound : (findLoops m f).map (fun l ↦ (l.latch, l.header)) = [(f.blockId 2, f.blockId 1)] := by decide
  have hblocks : (findLoops m f).map (·.blocks) = [[f.blockId 1, f.blockId 2]] := by decide
  obtain ⟨hedges, hnatural, -⟩ := findLoops_natural m f rfl hstay
  have hback : (f.blockId 2, f.blockId 1) ∈ m.backEdges f := by
    rw [← hedges, hfound]
    exact List.mem_cons_self
  have hmem : [f.blockId 1, f.blockId 2] ∈ (findLoops m f).map (·.blocks) := by
    rw [hblocks]
    exact List.mem_cons_self
  obtain ⟨l, hl, hlist⟩ := List.mem_map.mp hmem
  obtain ⟨-, -, hheader⟩ := hnatural l hl
  refine ⟨rfl, hstay, hback, l, hl, hlist, hheader _ ?_ (Module.mem_backEdges_iff.mp hback).2.1⟩
  rw [hlist]
  exact List.mem_cons_of_mem _ List.mem_cons_self

end loops

end CilSsa.Passes

