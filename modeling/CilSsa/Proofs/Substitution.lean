import Mathlib.Data.List.GetD
import CilSsa.Metadata.Universe

namespace CilSsa.Metadata

/-- A type put together from built-in types, definitions, references, pointers and instances of definitions, with
parameters numbered below `n`; those of an open definition count. -/
inductive Ty.Over (n : Nat) : Ty → Prop
  | void : Ty.Over n .void
  | prim (p : Prim) : Ty.Over n (.prim p)
  | param {i : Nat} : i < n → Ty.Over n (.param i)
  | byref {t : Ty} : Ty.Over n t → Ty.Over n (.byref t)
  | pointer {t : Ty} : Ty.Over n t → Ty.Over n (.pointer t)
  | defined {d : TypeDef} : d.arity ≤ n → Ty.Over n (.defined d)
  | inst {d : TypeDef} {as : List Ty} : (∀ a ∈ as, Ty.Over n a) → Ty.Over n (.inst (.defined d) as)

namespace Ty

variable {n m : Nat} {t : Ty} {args : List Ty}

section equations

attribute [local simp] isOpen anyOpen substAll substList

theorem isOpen_inst (d : TypeDef) (as : List Ty) : (Ty.inst (.defined d) as).isOpen = anyOpen as := by
  rw [isOpen, kind]
  cases d.kind <;> rfl

theorem substAll_inst (d : TypeDef) (args as : List Ty) :
    substAll args (.inst (.defined d) as) = .inst (.defined d) (substList args as) := by
  rw [substAll, kind]
  cases d.kind <;> rfl

theorem substList_eq_map (args as : List Ty) : substList args as = as.map (substAll args) := by
  induction as with
  | nil => rfl
  | cons a as ih => rw [substList, ih, List.map_cons]

theorem anyOpen_eq_any (as : List Ty) : anyOpen as = as.any isOpen := by
  induction as with
  | nil => rfl
  | cons a as ih => rw [anyOpen, ih, List.any_cons]

end equations

theorem anyOpen_eq_false {as : List Ty} : anyOpen as = false ↔ ∀ a ∈ as, a.isOpen = false := by
  rw [anyOpen_eq_any, List.any_eq_false]
  simp only [Bool.not_eq_true]

theorem substAll_defined {d : TypeDef} (h : d.arity ≠ 0) (args : List Ty) :
    substAll args (.defined d) = .inst (.defined d) ((List.range d.arity).map fun i ↦ args.getD i (.param i)) := by
  rw [substAll, if_neg h, TypeDef.params, List.map_map]
  rfl

theorem subst_of_ne_nil (h : args ≠ []) (t : Ty) : t.subst args = t.substAll args := by
  rw [subst, List.isEmpty_eq_false_iff.mpr h]
  rfl

namespace Over

theorem mono (h : t.Over n) (hle : n ≤ m) : t.Over m := by
  induction h with
  | void => exact .void
  | prim p => exact .prim p
  | param hi => exact .param (Nat.lt_of_lt_of_le hi hle)
  | byref _ ih => exact .byref ih
  | pointer _ ih => exact .pointer ih
  | defined hd => exact .defined (Nat.le_trans hd hle)
  | inst _ ih => exact .inst ih

theorem exists_forall {as : List Ty} (h : ∀ a ∈ as, ∃ n, a.Over n) : ∃ n, ∀ a ∈ as, a.Over n := by
  induction as with
  | nil => exact ⟨0, List.forall_mem_nil _⟩
  | cons a as ih =>
    obtain ⟨n, hn⟩ := h a List.mem_cons_self
    obtain ⟨m, hm⟩ := ih fun b hb ↦ h b (List.mem_cons_of_mem _ hb)
    refine ⟨max n m, List.forall_mem_cons.mpr ⟨hn.mono (Nat.le_max_left n m), fun b hb ↦ ?_⟩⟩
    exact (hm b hb).mono (Nat.le_max_right n m)

theorem substAll_closed (h : t.Over n) (ht : t.isOpen = false) (args : List Ty) : t.substAll args = t := by
  induction h with
  | void => rw [substAll] <;> simp
  | prim p => rw [substAll] <;> simp
  | param => cases ht
  | byref _ ih => rw [substAll, ih (by rwa [isOpen] at ht)]
  | pointer _ ih => rw [substAll, ih (by rwa [isOpen] at ht)]
  | defined =>
    rw [isOpen, bne_eq_false_iff_eq] at ht
    rw [substAll, if_pos ht]
  | inst _ ih =>
    rw [isOpen_inst, anyOpen_eq_false] at ht
    rw [substAll_inst, substList_eq_map, List.map_congr_left fun a ha ↦ ih a ha (ht a ha), List.map_id']

theorem subst_closed (h : t.Over n) (ht : t.isOpen = false) (args : List Ty) : t.subst args = t := by
  rw [subst]
  split
  · rfl
  · exact h.substAll_closed ht args

theorem isOpen_substAll (h : t.Over args.length) (hargs : ∀ a ∈ args, a.isOpen = false) :
    (t.substAll args).isOpen = false := by
  induction h with
  | void => rw [substAll] <;> simp [isOpen]
  | prim p => rw [substAll] <;> simp [isOpen]
  | param hi =>
    rw [substAll, List.getD_eq_getElem _ _ hi]
    exact hargs _ (List.getElem_mem hi)
  | byref _ ih => rwa [substAll, isOpen]
  | pointer _ ih => rwa [substAll, isOpen]
  | @defined d hd =>
    by_cases h0 : d.arity = 0
    · rw [substAll, if_pos h0, isOpen, h0]
      rfl
    · rw [substAll_defined h0, isOpen_inst, anyOpen_eq_false]
      intro a ha
      obtain ⟨i, hi, rfl⟩ := List.mem_map.mp ha
      have hi' : i < args.length := Nat.lt_of_lt_of_le (List.mem_range.mp hi) hd
      rw [List.getD_eq_getElem _ _ hi']
      exact hargs _ (List.getElem_mem hi')
  | inst _ ih =>
    rw [substAll_inst, substList_eq_map, isOpen_inst, anyOpen_eq_false]
    intro a ha
    obtain ⟨b, hb, rfl⟩ := List.mem_map.mp ha
    exact ih b hb

theorem getD_map {i : Nat} (hi : i < args.length) (bs : List Ty) :
    (args.map (substAll bs)).getD i (.param i) = substAll bs (args.getD i (.param i)) := by
  rw [List.getD_eq_getElem _ _ hi, List.getD_eq_getElem _ _ (by rwa [List.length_map]), List.getElem_map]

theorem substAll_substAll (h : t.Over args.length) (bs : List Ty) :
    (t.substAll args).substAll bs = t.substAll (args.map (substAll bs)) := by
  induction h with
  | void => simp [substAll]
  | prim p => simp [substAll]
  | param hi => rw [substAll, substAll, getD_map hi]
  | byref _ ih => rw [substAll, substAll, substAll, ih]
  | pointer _ ih => rw [substAll, substAll, substAll, ih]
  | @defined d hd =>
    by_cases h0 : d.arity = 0
    · rw [substAll, if_pos h0, substAll, if_pos h0, substAll, if_pos h0]
    · rw [substAll_defined h0, substAll_defined h0, substAll_inst, substList_eq_map, List.map_map]
      congr 1
      refine List.map_congr_left fun i hi ↦ ?_
      exact (getD_map (Nat.lt_of_lt_of_le (List.mem_range.mp hi) hd) bs).symm
  | inst _ ih =>
    rw [substAll_inst, substAll_inst, substAll_inst, substList_eq_map, substList_eq_map, substList_eq_map, List.map_map]
    congr 1
    exact List.map_congr_left ih

end Over

theorem Over.subst_subst {bs : List Ty} (h : t.Over args.length) (hargs : args ≠ []) (hbs : bs ≠ []) :
    (t.subst args).subst bs = t.subst (args.map (·.subst bs)) := by
  have hmap : args.map (·.subst bs) = args.map (substAll bs) := List.map_congr_left fun a _ ↦ subst_of_ne_nil hbs a
  rw [hmap, subst_of_ne_nil hargs, subst_of_ne_nil hbs, subst_of_ne_nil (by simpa using hargs), h.substAll_substAll]

end Ty

end CilSsa.Metadata
