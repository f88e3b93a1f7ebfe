import CilSsa.Proofs.LastingProperties

namespace CilSsa.Lowering

open CilSsa.Bytecode CilSsa.Metadata
open CilSsa.Ssa (FuncId Function)

/-- A type and its counterpart, whichever struct an aggregate has. -/
inductive Counterpart : Ty → Ssa.Ty → Prop
  | void {t : Ty} : t.kind = .void → Counterpart t .void
  | scalar {p : Prim} {c : Ssa.Ty} : scalarType? p = some c → Counterpart (.prim p) c
  | bytes {t : Ty} : t.isAddress = true → t.elem.isVoid = true → Counterpart t .bytePointer
  | address {t : Ty} {c : Ssa.Ty} : t.isAddress = true → t.elem.isVoid = false → Counterpart t.elem c →
      Counterpart t (.pointer c)
  | aggregate {t : Ty} {id : Nat} {name : String} : t.kind = .valueType → Counterpart t (.struct id name)

def Faithful (u : CompilationUnit) : Prop := ∀ e ∈ u.types, Counterpart e.1 e.2.code

section

variable {u u' : CompilationUnit} {world : Universe} {t : Ty}

theorem Counterpart.of_prim {p : Prim} {c : Ssa.Ty} (h : Counterpart (.prim p) c) : scalarType? p = some c := by
  cases h with
  | void h => cases h
  | scalar h => exact h
  | bytes h => cases h
  | address h => cases h
  | aggregate h => cases h

theorem Faithful.same (h : Faithful u) (ht : u'.types = u.types) : Faithful u' := by
  unfold Faithful
  rw [ht]
  exact h

theorem Faithful.lookup (h : Faithful u) {ct : CompiledType} (hl : u.types.lookup t = some ct) :
    Counterpart t ct.code := by
  obtain ⟨l₁, l₂, hlist, -⟩ := List.lookup_eq_some_iff.mp hl
  exact h (t, ct) (hlist ▸ List.mem_append_right _ List.mem_cons_self)

theorem PlainCode.counterpart {c : Ssa.Ty} (h : PlainCode Counterpart t c) : Counterpart t c := by
  cases h with
  | void hk => exact .void hk
  | scalar h => exact .scalar h
  | bytes ha hv => exact .bytes ha hv
  | address ha _ hv hc => exact .address ha hv hc

theorem Faithful.register (h : Faithful u) {ct : CompiledType} (hct : Counterpart t ct.code)
    (ht : u'.types = (t, ct) :: u.types) : Faithful u' := by
  unfold Faithful
  rw [ht]
  exact List.forall_mem_cons.mpr ⟨hct, h⟩

theorem spec_compileType_faithful (fuel : Nat) (t : Ty) : Spec Faithful (compileType world fuel t)
    (fun ct u ↦ Counterpart t ct.code ∧ Faithful u) Faithful := by
  refine spec_compileType_of (J := fun _ : Unit ↦ Faithful) (R := fun t c _ ↦ Counterpart t c) (fun hu ↦ hu)
    (fun hu hl ↦ hu.lookup hl) (fun h ↦ ?_) (fun _ _ hc hu ↦ ?_) (fun hcompile hk _ hv ↦ ?_) fuel () t
  · cases h with
    | void => exact .void rfl
    | bytes h => cases h
    | address h => cases h
    | aggregate h => cases h
  · exact ⟨hc.counterpart, hu.register hc.counterpart rfl⟩
  · refine (spec_compileAggregate_of (K := fun _ ↦ Faithful) (M := fun _ _ ↦ Faithful) (J := fun _ ↦ Faithful) hv
      (fun _ _ _ ↦ hv.register (.aggregate hk) rfl) (fun _ ↦ spec_compileMembers_keeps
        (fun t ↦ (hcompile () t).imp (fun _ hu ↦ hu) fun _ _ hu ↦ hu.2) (fun _ hu ↦ hu) _ _)
        (fun _ _ _ hu ↦ hu.same rfl)
      (fun _ _ _ hu _ ↦ hu.same rfl) (fun _ _ _ hu ↦ hu.same rfl) (fun _ _ hu ↦ hu)
      fun _ hu ↦ hu.same rfl).imp (fun _ hu ↦ hu) fun _ _ ⟨_, hct, hu⟩ ↦ ?_
    exact ⟨hct ▸ .aggregate hk, hu⟩

theorem spec_codeType_faithful (t : Ty) : Spec Faithful (codeType world t) (fun _ ↦ Faithful) Faithful :=
  (spec_compileType_faithful _ t).bind fun _ ↦ .pure fun _ hu ↦ hu.2

theorem lasting_faithful (world : Universe) : Lasting world Faithful Faithful where
  fails h := h
  same h hs := h.same hs.types
  sameFailed h hs := h.same hs.types
  types t := (spec_compileType_faithful _ t).imp (fun _ hu ↦ hu) fun _ _ hu ↦ hu.2
  declares _ := spec_declare_keeps (fun _ h ↦ h) spec_codeType_faithful fun _ ↦
    spec_register_of (fun _ h ↦ h) fun _ _ _ _ _ hu _ _ ↦ hu.same rfl
  rewrites h _ _ _ _ := h.same rfl
  memset h := h.same rfl

/-! ### Between requests -/

theorem Faithful.rollBack (h : Faithful u) : Faithful u.rollBack := by
  refine rollBack_induction h (fun w k hw ↦ ?_) (fun w t hw ↦ ?_) fun w hw ↦ hw.same rfl
  · unfold CompilationUnit.forgetMethod
    split
    · exact hw
    · exact hw.same rfl
  · unfold CompilationUnit.forgetType
    split
    · exact hw
    · exact fun e he ↦ hw e (List.mem_of_mem_filter he)

theorem CompilationUnit.Reachable.faithful (hworld : Consistent world) (h : u.Reachable world) : Faithful u :=
  h.lasting (lasting_faithful world) hworld (fun _ ht _ _ e he ↦ by rw [ht] at he; cases he) fun _ hv _ ↦ hv.rollBack

end

end CilSsa.Lowering

