import CilSsa.Proofs.TypedOperands

namespace CilSsa.Lowering

open CilSsa.Bytecode CilSsa.Metadata
open CilSsa.Ssa (BlockId Const FuncId Function Instr Module Value)

/-- Lowering from the unit `u` that keeps operands apt, adds nothing but instructions that keep the rules of their
operations, and gives a value as `R` has it, unless the function becomes hollow. -/
def Risking (world : Universe) (fn : FuncId) (b : Nat) {α : Type} (u : CompilationUnit) (c : Emit α)
    (R : α → CompilationUnit → Prop) : Prop :=
  ∀ s a s' u' F, Emits c s u a s' u' → Laden fn b u s → Houses fn F u → Sound world u →
    s'.fn = fn ∧ ∃ F', Houses fn F' u' ∧
      (F'.isHollow = true ∨ Laden fn b u' s' ∧ R a u' ∧ Gained (Sound world) fn b u F u' F')

def RiskingAt (site : Site) (fn : FuncId) (b : Nat) {α : Type} (u : CompilationUnit) (c : Lower α)
    (R : α → CompilationUnit → Prop) : Prop :=
  site.Supplied u → Risking site.world fn b u (c.run site) R

section

variable {α β : Type} {world : Universe} {fn : FuncId} {b : Nat} {F : Function} {u u' : CompilationUnit}
  {R : α → CompilationUnit → Prop} {S : β → CompilationUnit → Prop} {T : α → β → CompilationUnit → Prop} {i : Instr}

theorem hollow_of_lengthened (hF : F.isHollow = true) (h : Lengthened fn F u) : ∃ F', Houses fn F' u ∧
    F'.isHollow = true := by
  obtain ⟨F', hF', hgrew⟩ := h
  exact ⟨F', hF', Function.isHollow_mono hgrew.earlier hF⟩

theorem hollow_of_safe {c : Emit α} {s s' : Stage} {a : α} (hF : Houses fn F u) (hhollow : F.isHollow = true)
    (hfn : s.fn = fn) (hc : Safe (Lengthened fn F) (fun _ ↦ True) fn c) (he : Emits c s u a s' u') :
    s'.fn = fn ∧ ∃ F', Houses fn F' u' ∧ F'.isHollow = true := by
  obtain ⟨hfn', hlonger⟩ := (hc s hfn u ⟨F, hF, .refl F⟩).1 _ _ he
  exact ⟨hfn', hollow_of_lengthened hhollow hlonger⟩

theorem Minding.risking {c : Emit α} (h : Minding world fn b u c R) : Risking world fn b u c R := by
  intro s a s' u' F he hs hF hu
  obtain ⟨hs', hR, F', hgain⟩ := h s a s' u' F he hs hF hu
  exact ⟨hs'.own, F', hgain.houses, .inr ⟨hs', hR, hgain⟩⟩

theorem Minding.risk_bind {c : Emit α} {f : α → Emit β} (hc : Minding world fn b u c R)
    (hf : ∀ a u₁, Extended u u₁ → R a u₁ → Risking world fn b u₁ (f a) S) : Risking world fn b u (c >>= f) S := by
  intro s a s' u' F he hs hF hu
  obtain ⟨a₁, s₁, u₁, h₁, h₂⟩ := Emits.bind_iff.mp he
  obtain ⟨hs₁, hR, F₁, hgain⟩ := hc _ _ _ _ F h₁ hs hF hu
  obtain ⟨hfn, F', hF', h⟩ := hf a₁ u₁ hgain.grown hR _ _ _ _ F₁ h₂ hs₁ hgain.houses hgain.kept
  exact ⟨hfn, F', hF', h.imp_right fun h ↦ ⟨h.1, h.2.1, hgain.trans h.2.2⟩⟩

theorem Risking.bind {c : Emit α} {f : α → Emit β} (hc : Risking world fn b u c R)
    (hgrow : ∀ F a, Safe (Lengthened fn F) (fun _ ↦ True) fn (f a))
    (hf : ∀ a u₁, Extended u u₁ → R a u₁ → Risking world fn b u₁ (f a) S) : Risking world fn b u (c >>= f) S := by
  intro s a s' u' F he hs hF hu
  obtain ⟨a₁, s₁, u₁, h₁, h₂⟩ := Emits.bind_iff.mp he
  obtain ⟨hfn₁, F₁, hF₁, hhollow | ⟨hs₁, hR, hgain⟩⟩ := hc _ _ _ _ F h₁ hs hF hu
  · obtain ⟨hfn, F', hF', hhollow'⟩ := hollow_of_safe hF₁ hhollow hfn₁ (hgrow F₁ a₁) h₂
    exact ⟨hfn, F', hF', .inl hhollow'⟩
  · obtain ⟨hfn, F', hF', h⟩ := hf a₁ u₁ hgain.grown hR _ _ _ _ F₁ h₂ hs₁ hgain.houses hgain.kept
    exact ⟨hfn, F', hF', h.imp_right fun h ↦ ⟨h.1, h.2.1, hgain.trans h.2.2⟩⟩

theorem Risking.imp {c : Emit α} {R' : α → CompilationUnit → Prop} (h : Risking world fn b u c R)
    (hR : ∀ a u', Extended u u' → R a u' → R' a u') : Risking world fn b u c R' := by
  intro s a s' u' F he hs hF hu
  obtain ⟨hfn, F', hF', h⟩ := h s a s' u' F he hs hF hu
  exact ⟨hfn, F', hF', h.imp_right fun h ↦ ⟨h.1, hR a u' h.2.2.grown h.2.1, h.2.2⟩⟩

theorem Risking.mapM {f : α → Emit β} {as : List α} (hgrow : ∀ F a, Safe (Lengthened fn F) (fun _ ↦ True) fn (f a))
    (hT : ∀ {u u' a b}, Extended u u' → T a b u → T a b u')
    (hf : ∀ u' a, a ∈ as → Extended u u' → Risking world fn b u' (f a) (T a)) :
    Risking world fn b u (as.mapM f) fun bs u' ↦ List.Forall₂ (fun a b ↦ T a b u') as bs := by
  induction as generalizing u with
  | nil => exact (Minding.pure .nil).risking
  | cons a as ih =>
    rw [List.mapM_cons]
    refine (hf u a List.mem_cons_self (.refl u)).bind (fun F _ ↦ Safe.bind (.mapM fun a _ ↦ hgrow F a) fun _ ↦ .pure _)
      fun x u₁ hg hx ↦ ?_
    refine (ih fun u' a ha hg' ↦ hf u' a (List.mem_cons_of_mem _ ha) (hg.trans hg')).bind (fun _ _ ↦ .pure _)
      fun xs u₂ hg' hxs ↦ ?_
    exact (Minding.pure (.cons (hT hg' hx) hxs)).risking

theorem Risking.assume {c : Emit α} (h : Sound world u → Risking world fn b u c R) : Risking world fn b u c R :=
  fun s a s' u' F he hs hF hu ↦ h hu s a s' u' F he hs hF hu

theorem risking_emitAt {c : Nat} (hc : c = b ∨ c = 0) (hi : i.isHollow = false → u.module.Fitting i) :
    Risking world fn b u (emitAt c i) fun v _ ↦ v.type = i.type ∧ i.isHollow = false := by
  intro s v s' u' F he hs hF hu
  cases hhollow : i.isHollow with
  | false =>
    obtain ⟨hs', hv, F', hgain⟩ := minding_emitAt hc (hi hhollow) s v s' u' F he hs hF hu
    exact ⟨hs'.own, F', hgain.houses, .inr ⟨hs', ⟨hv, rfl⟩, hgain⟩⟩
  | true =>
    have hown := hs.own
    subst hown
    obtain ⟨rfl, -, hF'⟩ := emitAt_inv he hF
    exact ⟨rfl, _, hF', .inl (Function.isHollow_append _ hhollow)⟩

end

section

variable {α β : Type} {site : Site} {fn : FuncId} {b : Nat} {F : Function} {u u' : CompilationUnit}
  {R : α → CompilationUnit → Prop} {S : β → CompilationUnit → Prop} {v p : Value} {w : Operand} {i : Instr}
  {t : Ty} {e : Ssa.Ty}

theorem Site.Supplied.supports (h : site.Supplied u) (fn : FuncId) (F : Function) :
    Supports (Lengthened fn F) (fun _ ↦ True) site := by
  obtain ⟨fuel, hcompile⟩ := h.converts.compiles
  exact supports_lengthened ⟨h.converts.consistent, fun t ↦ leaves_compileType _ _ t,
    fun m _ ↦ hcompile ▸ leaves_compileMethod _ fuel m⟩

theorem MindingAt.risking {c : Lower α} (h : MindingAt site fn b u c R) : RiskingAt site fn b u c R := fun hsite ↦
    (h hsite).risking

theorem MindingAt.risk_bind {c : Lower α} {f : α → Lower β} (hc : MindingAt site fn b u c R)
    (hf : ∀ a u₁, Extended u u₁ → R a u₁ → RiskingAt site fn b u₁ (f a) S) : RiskingAt site fn b u (c >>= f) S :=
  fun hsite ↦ (hc hsite).risk_bind fun a u₁ hg hR ↦ hf a u₁ hg hR (hsite.mono hg)

theorem RiskingAt.bind {c : Lower α} {f : α → Lower β} (hc : RiskingAt site fn b u c R)
    (hgrow : ∀ F [Supports (Lengthened fn F) (fun _ ↦ True) site] a,
    SafeAt (Lengthened fn F) (fun _ ↦ True) fn site (f a))
    (hf : ∀ a u₁, Extended u u₁ → R a u₁ → RiskingAt site fn b u₁ (f a) S) : RiskingAt site fn b u (c >>= f) S := by
  intro hsite
  refine (hc hsite).bind (fun F a ↦ ?_) fun a u₁ hg hR ↦ hf a u₁ hg hR (hsite.mono hg)
  have := hsite.supports fn F
  exact hgrow F a

theorem RiskingAt.imp {c : Lower α} {R' : α → CompilationUnit → Prop} (h : RiskingAt site fn b u c R)
    (hR : ∀ a u', Extended u u' → R a u' → R' a u') : RiskingAt site fn b u c R' := fun hsite ↦ (h hsite).imp hR

theorem RiskingAt.pure {a : α} (h : R a u) : RiskingAt site fn b u (pure a) R := (MindingAt.pure h).risking

theorem RiskingAt.throw {e : CompileError} : RiskingAt site fn b u (throw e : Lower α) R := MindingAt.throw.risking

theorem RiskingAt.read_bind {f : Site → Lower β} (h : site.Supplied u → RiskingAt site fn b u (f site) S) :
    RiskingAt site fn b u (read >>= f) S := fun hsite ↦ h hsite hsite

theorem RiskingAt.assume {c : Lower α} (h : Sound site.world u → RiskingAt site fn b u c R) :
    RiskingAt site fn b u c R := fun hsite s a s' u' F he hs hF hu ↦ h hu hsite s a s' u' F he hs hF hu

theorem RiskingAt.forM {f : α → Lower PUnit} {as : List α}
    (hgrow : ∀ F [Supports (Lengthened fn F) (fun _ ↦ True) site] a,
    SafeAt (Lengthened fn F) (fun _ ↦ True) fn site (f a))
    (hf : ∀ u' a, a ∈ as → RiskingAt site fn b u' (f a) fun _ _ ↦ True) :
    RiskingAt site fn b u (as.forM f) fun _ _ ↦ True := by
  induction as generalizing u with
  | nil => exact .pure trivial
  | cons a as ih =>
    exact (hf u a List.mem_cons_self).bind (fun F _ _ ↦ .forM fun a _ ↦ hgrow F a) fun _ u₁ _ _ ↦
      ih fun u' a ha ↦ hf u' a (List.mem_cons_of_mem _ ha)

theorem risking_lowerWithin {part : Part} {c : Lower α} (h : RiskingAt site fn b u c R) :
    RiskingAt site fn b u (lowerWithin part c) R :=
  fun hsite s a s' u' F h' ↦ h hsite s a s' u' F (Compiles.adapt_iff.mp h')

theorem risking_during {i : Instruction} {c : Lower Unit} {R : Unit → CompilationUnit → Prop}
    (h : RiskingAt site fn b u c R) : RiskingAt site fn b u (during i c) R := fun hsite s a s' u' F h' ↦
    h hsite s a s' u' F (Lowers.during_iff.mp h')

/-! ### Where functions become hollow -/

theorem risking_emit (hi : i.isHollow = false → u.module.Fitting i) :
    RiskingAt site fn b u (emit i : Lower Value) fun v _ ↦ v.type = i.type ∧ i.isHollow = false := by
  intro _ s v s' u' F he hs hF hu
  obtain ⟨_, _, _, hget, he⟩ := Emits.bind_iff.mp (Lowers.emit_iff.mp he)
  obtain ⟨rfl, rfl, rfl⟩ := Emits.get_iff.mp hget
  rw [hs.block] at he
  exact risking_emitAt (.inl rfl) hi s v s' u' F he hs hF hu

theorem hollow_pointer (he : (Ssa.Ty.pointer e).isHollow = false) : e ≠ .void := by
  rintro rfl
  cases he

theorem type_of_not_hollow (hi : i.isHollow = false) : i.type.isHollow = false :=
  Bool.eq_false_iff.mpr fun h ↦ Bool.eq_false_iff.mp hi (Instr.isHollow_of_type h)

theorem operand_of_not_hollow (hi : i.isHollow = false) (hv : some v ∈ i.operands) : v.type ≠ .void :=
  fun h ↦ Bool.eq_false_iff.mp hi (Instr.isHollow_of_operand hv h)

theorem risking_cast {op : Ssa.Op} (h : Ssa.validCast op v.type (.pointer e) = true) :
    RiskingAt site fn b u (castTo op v (.pointer e) : Lower Value) fun p _ ↦ p.type = .pointer e ∧ e ≠ .void :=
  (risking_emit fun _ ↦ Ssa.fitting_cast "" h).imp fun _ _ _ hp ↦ ⟨hp.1, hollow_pointer (type_of_not_hollow hp.2)⟩

theorem risking_pointerTo (hv : v.type.isPointer = true) (hne : v.type.isHollow = false) :
    RiskingAt site fn b u (pointerTo v (.pointer e) : Lower Value) fun p _ ↦ p.type = .pointer e ∧ e ≠ .void := by
  unfold pointerTo Instr.pointerCast?
  split
  · rename_i hsame
    exact .pure ⟨hsame, hollow_pointer (hsame ▸ hne)⟩
  · exact risking_cast (by rw [Ssa.validCast, hv]; rfl)

theorem risking_address (t : Ty) (hw : Apt u w) : RiskingAt site fn b u (address w t) fun p u' ↦
    t.isVoid = false ∧ ∃ e, p.type = .pointer e ∧ Stands u' t e := by
  refine (minding_counterpart t).risk_bind fun c u₁ hg₁ hc ↦ ?_
  have hend : ∀ {u₂} {d : Lower Value}, Extended u₁ u₂ →
      RiskingAt site fn b u₂ d (fun p _ ↦ p.type = .pointer c ∧ c ≠ .void) →
      RiskingAt site fn b u₂ d fun p u' ↦ t.isVoid = false ∧ ∃ e, p.type = .pointer e ∧ Stands u' t e := fun hg h ↦
    h.imp fun p u' hg' hp ↦ ⟨hc.not_void hp.2, c, hp.1, ((hc.stands hp.2).mono hg).mono hg'⟩
  dsimp only
  split
  · rename_i hslot
    simp only [Bool.and_eq_true, beq_iff_eq] at hslot
    obtain ⟨hslot, rfl⟩ := hslot
    have helem := hw.slot hslot
    obtain ⟨e, he, hstands⟩ := hw.stands.address_cases (isAddress_of_elem helem)
    exact .pure ⟨helem, e, he, hstands.mono hg₁⟩
  refine MindingAt.risk_bind (.lift (minding_materialize (hw.mono hg₁))) fun x u₂ hg₂ hx ↦ ?_
  split
  · rename_i e he
    exact hend hg₂ (risking_pointerTo (by rw [he]; rfl) hx.stands.not_hollow.1)
  · rename_i id name he
    refine .assume fun hu ↦ ?_
    refine MindingAt.risk_bind (.lift (minding_slotFor (hx.stands.stores hu.typed))) fun slot u₃ hg₃ hslot ↦ ?_
    refine MindingAt.risk_bind (.lift (minding_store hslot hx.stands.hasValue)) fun _ u₄ hg₄ _ ↦ ?_
    refine hend ((hg₂.trans hg₃).trans hg₄) (risking_pointerTo (by rw [hslot]; rfl) ?_)
    rw [hslot, he]
    rfl
  · rename_i n hn
    exact hend hg₂ (risking_cast (by rw [hn]; rfl))
  · exact .throw

theorem Stands.registered {id : Nat} {name : String} (h : Stands u t (.struct id name)) :
    ∃ ct, u.types.lookup t = some ct ∧ ct.code = .struct id name := by
  cases h with
  | plain _ hm =>
    cases hm with
    | scalar hp => exact absurd hp (by cases ‹Prim› <;> exact fun h ↦ by cases h)
    | aggregate _ hl hc => exact ⟨_, hl, hc⟩

theorem Sound.member (hu : Sound site.world u) {f : Field} {index : Nat}
    (hf : (site.world.instanceFields t)[index]? = some f)
    {id : Nat} {name : String} (h : Stands u t (.struct id name)) {body : List Ssa.Ty}
    (hbody : u.module.fields? (.struct id name) = some body) : ∃ e, body[index]? = some e ∧ Passes u f.type e := by
  obtain ⟨ct, hl, hc⟩ := h.registered
  have hpasses := hu.mirrored.members t ct body hl (hc ▸ hbody)
  obtain ⟨hlt, rfl⟩ := List.getElem?_eq_some_iff.mp hf
  have hlt' : index < body.length := hpasses.length_eq ▸ hlt
  exact ⟨body[index], List.getElem?_eq_getElem hlt', hpasses.get hlt hlt'⟩

/-- The address of a field is the address of what carries operands of its type. -/
theorem risking_fieldPointer {f : Field} {index : Nat} (hf : (site.world.instanceFields f.owner)[index]? = some f) :
    RiskingAt site fn b u (fieldPointer f index) fun p u' ↦ ∃ e, p.type = .pointer e ∧ Passes u' f.type e := by
  refine (minding_popRaw _).risk_bind fun w u₁ _ hw ↦ (risking_address _ hw).bind (fun F _ base ↦ ?_) fun p u₂ _ hp ↦ ?_
  · exact SafeAt.bind .unit fun u ↦ .lift (safe_emit Instr.hinted_gep)
  obtain ⟨-, c, hc, hstands⟩ := hp
  refine MindingAt.risk_bind (R := fun v u' ↦ v = u') (fun _ ↦ .of_casting (.lift leaves_get (.get fun _ hu ↦ hu)
    (.get fun _ hu ↦ ⟨rfl, hu⟩))) fun u₃ u₄ hg ↦ ?_
  rintro rfl
  refine .assume fun hu ↦ ?_
  dsimp only
  rw [hc]
  -- There is a member, or the instruction gives nothing.
  have hmember : ∀ {i : Instr}, i = .gep (u₃.module.fields? c) p index "" → i.isHollow = false →
      ∃ e, i.type = .pointer e ∧ Passes u₃ f.type e ∧ u₃.module.Fitting i := by
    rintro _ rfl hi
    cases hbody : u₃.module.fields? c with
    | none => rw [hbody] at hi; cases hi
    | some body =>
      cases c with
      | struct id name =>
        obtain ⟨e, he, hpasses⟩ := hu.member hf (hstands.mono hg) hbody
        refine ⟨e, ?_, hpasses, Ssa.fitting_gep "" hc hbody (List.getElem?_eq_some_iff.mp he).1⟩
        simp [Instr.gep, he]
      | _ => cases hbody
  refine (risking_emit fun hi ↦ (hmember rfl hi).elim fun _ h ↦ h.2.2).imp fun v u' hg' hv ↦ ?_
  obtain ⟨e, he, hpasses, -⟩ := hmember rfl hv.2
  exact ⟨e, hv.1.trans he, hpasses.mono hg'⟩

/-! ### Instructions of a body -/

theorem Passes.stands (h : Passes u t e) : Stands u t e := h.1.stands h.2

theorem risking_loadObject (t : Ty) : RiskingAt site fn b u (loadObject t) fun _ _ ↦ True := by
  refine (minding_popRaw _).risk_bind fun w u₁ _ hw ↦ (risking_address t hw).bind (fun F _ p ↦ ?_) fun p u₂ _ hp ↦ ?_
  · exact SafeAt.bind (.lift (safe_load p)) fun v ↦ .lift (safe_push _)
  obtain ⟨-, e, he, hstands⟩ := hp
  refine (minding_pushed (.assume fun _ hu ↦ .lift ?_)).risking
  exact (minding_load he (hstands.stores hu.typed)).imp fun v u' hg hv ↦ hv ▸ hstands.mono hg

theorem risking_storeObject (t : Ty) : RiskingAt site fn b u (storeObject t) fun _ _ ↦ True := by
  refine MindingAt.risk_bind (.lift minding_settle) fun _ u₁ _ _ ↦ (minding_pop t).risk_bind fun v u₂ _ hv ↦ ?_
  refine (minding_popRaw _).risk_bind fun w u₃ hg₃ hw ↦ ?_
  refine (risking_address t hw).bind (fun F _ p ↦ ?_) fun p u₄ hg₄ hp ↦ ?_
  · exact .lift (safe_store v.value p)
  obtain ⟨ht, e, he, hstands⟩ := hp
  have hvalue := ((hv.yields.stands ht).mono hg₃).mono hg₄
  exact (MindingAt.lift (minding_store (by rw [he, hstands.unique hvalue]) hvalue.hasValue)).risking

theorem risking_clearObject (t : Ty) : RiskingAt site fn b u (clearObject t) fun _ _ ↦ True := by
  refine MindingAt.risk_bind (.lift minding_settle) fun _ u₁ _ _ ↦ (minding_popRaw _).risk_bind fun w u₂ _ hw ↦ ?_
  refine (risking_address t hw).bind (fun F _ p ↦ ?_) fun p u₃ _ hp ↦ ?_
  · exact SafeAt.bind (safe_operandSize t) fun n ↦ .bind .stage fun s ↦ .lift (safe_clearAt s.block p n)
  obtain ⟨-, e, he, -⟩ := hp
  refine ((minding_operandSize t).bind fun n u₄ _ _ ↦ ?_).risking
  exact .stage_bind (f := fun k ↦ liftM (clearAt k p n)) (.lift (minding_clearAt n (by rw [he]; rfl)))

theorem safe_pushed {F : Function} [Supports (Lengthened fn F) (fun _ ↦ True) site] {c : Lower Value} {t : Ty}
    (hc : SafeAt (Lengthened fn F) (fun _ ↦ True) fn site c) :
    SafeAt (Lengthened fn F) (fun _ ↦ True) fn site (do push ⟨t, ← c, false⟩) := .bind hc fun _ ↦ .lift (safe_push _)

theorem risking_loadField (i : Instruction) : RiskingAt site fn b u (do
    let (f, index) ← fieldOperand i
    push ⟨f.type, ← load (← fieldPointer f index), false⟩) fun _ _ ↦ True := by
  refine (minding_fieldOperand i).risk_bind fun q u₁ _ hq ↦ (risking_fieldPointer hq).bind (fun F _ p ↦ ?_)
    fun p u₂ _ hp ↦ ?_
  · exact SafeAt.bind (.lift (safe_load p)) fun v ↦ .lift (safe_push _)
  obtain ⟨e, he, hpasses⟩ := hp
  refine (minding_pushed (.assume fun _ hu ↦ .lift ?_)).risking
  exact (minding_load he (hpasses.stands.stores hu.typed)).imp fun v u' hg hv ↦ hv ▸ hpasses.stands.mono hg

theorem risking_fieldAddress (i : Instruction) : RiskingAt site fn b u (do
    let (f, index) ← fieldOperand i
    push ⟨.byref f.type, ← fieldPointer f index, false⟩) fun _ _ ↦ True := by
  refine (minding_fieldOperand i).risk_bind fun q u₁ _ hq ↦ (risking_fieldPointer hq).bind (fun F _ p ↦ ?_)
    fun p u₂ _ hp ↦ ?_
  · exact .lift (safe_push _)
  obtain ⟨e, he, hpasses⟩ := hp
  exact (MindingAt.lift (minding_push (Stands.apt (he ▸ .address rfl hpasses.stands)))).risking

theorem risking_storeField (i : Instruction) : RiskingAt site fn b u (do
    let (f, index) ← fieldOperand i
    settle
    let v ← pop f.type
    store v.value (← fieldPointer f index)) fun _ _ ↦ True := by
  refine (minding_fieldOperand i).risk_bind fun q u₁ _ hq ↦ MindingAt.risk_bind (.lift minding_settle) fun _ u₂ _ _ ↦ ?_
  refine (minding_pop _).risk_bind fun v u₃ _ hv ↦ (risking_fieldPointer hq).bind (fun F _ p ↦ ?_) fun p u₄ hg hp ↦ ?_
  · exact .lift (safe_store v.value p)
  obtain ⟨e, he, hpasses⟩ := hp
  have hvalue := (hv.yields.stands (hpasses.1.not_void hpasses.2)).mono hg
  exact (MindingAt.lift (minding_store (by rw [he, hpasses.stands.unique hvalue]) hvalue.hasValue)).risking

theorem risking_arith (i : Instruction) (op : Arith) : RiskingAt site fn b u (arith i op) fun _ _ ↦ True := by
  refine minding_operands.risk_bind fun q u₁ _ hq ↦ ?_
  have hemit : ∀ code, (code ∈ [Ssa.Op.add, .sub, .mul] ∧ q.2.value.type.isInt = true ∨
      code ∈ [Ssa.Op.fadd, .fsub, .fmul] ∧ q.2.value.type.isFloating = true) → RiskingAt site fn b u₁ (do
        push ⟨q.2.type, ← emit (.binary code q.1.value q.2.value ""), false⟩) fun _ _ ↦ True := by
    intro code hcode
    have hsame : (Instr.binary code q.1.value q.2.value "").isHollow = false → q.1.value.type = q.2.value.type :=
      fun hi ↦ hq.2.resolve_right (operand_of_not_hollow hi List.mem_cons_self)
    refine RiskingAt.bind (risking_emit fun hi ↦ Ssa.fitting_binary "" hcode (hsame hi))
      (fun F _ v ↦ .lift (safe_push _)) fun v u₂ hg hv ↦ (MindingAt.lift (minding_push (Stands.apt ?_))).risking
    rw [hv.1, Instr.binary, hsame hv.2]
    exact hq.1.mono hg
  dsimp only
  split
  · rename_i n hn
    exact hemit _ (.inl ⟨by cases op <;> simp [Arith.intOp], by rw [hn]; rfl⟩)
  · rename_i hf
    exact hemit _ (.inr ⟨by cases op <;> simp [Arith.floatOp], by rw [hf]; rfl⟩)
  · rename_i hf
    exact hemit _ (.inr ⟨by cases op <;> simp [Arith.floatOp], by rw [hf]; rfl⟩)
  · exact MindingAt.risk_bind (R := fun _ _ ↦ False) (minding_unsupported _ _) fun _ _ _ h ↦ h.elim

/-- A comparison asks integers as integers and floats as floats. -/
structure Comparison.Proper (c : Comparison) : Prop where
  known : c.ints ≠ .other 0
  ints : c.ints.isFloat = false
  floats : c.floats.isFloat = true

theorem proper_of_action {i : Instruction} {c : Comparison} (h : action i = .compare c ∨
    action i = .jumpCompare c) : c.Proper := by
  obtain ⟨offset, op, size, operand⟩ := i
  cases op <;> rcases h with h | h <;> first | (cases h; done) | (cases h; exact ⟨Ssa.Pred.noConfusion, rfl, rfl⟩)

theorem risking_compare (i : Instruction) {c : Comparison} (hc : c.Proper) :
    RiskingAt site fn b u (compare i c) fun v _ ↦ v.type = .i1 := by
  refine minding_operands.risk_bind fun q u₁ _ hq ↦ ?_
  have hsame : ∀ {i : Instr}, some q.1.value ∈ i.operands → i.isHollow = false → q.1.value.type = q.2.value.type :=
    fun hmem hi ↦ hq.2.resolve_right (operand_of_not_hollow hi hmem)
  have hints : (q.2.value.type.isInt || q.2.value.type.isPointer) = true →
      RiskingAt site fn b u₁ (emit (.icmp c.ints q.1.value q.2.value "")) fun v _ ↦ v.type = .i1 := fun h ↦
    (risking_emit fun hi ↦ Ssa.fitting_icmp "" hc.known hc.ints (hsame List.mem_cons_self hi) h).imp fun _ _ _ hv ↦ hv.1
  have hfloats : q.2.value.type.isFloating = true →
      RiskingAt site fn b u₁ (emit (.fcmp c.floats q.1.value q.2.value "")) fun v _ ↦ v.type = .i1 := fun h ↦
    (risking_emit fun hi ↦ Ssa.fitting_fcmp "" hc.floats (hsame List.mem_cons_self hi) h).imp fun _ _ _ hv ↦ hv.1
  dsimp only
  split
  · rename_i h
    exact hints (by rw [h]; rfl)
  · rename_i h
    exact hints (by rw [h]; rfl)
  · rename_i h
    exact hfloats (by rw [h]; rfl)
  · rename_i h
    exact hfloats (by rw [h]; rfl)
  · exact (minding_unsupported _ _).risking

theorem risking_call (i : Instruction) : RiskingAt site fn b u (call i) fun _ _ ↦ True := by
  refine (minding_methodOperand i).risk_bind fun m u₁ _ ⟨id, hm⟩ ↦ ?_
  refine MindingAt.risk_bind (.lift minding_settle) fun _ u₂ _ _ ↦ .read_bind fun _ ↦ ?_
  refine (minding_compile hm).risk_bind fun f u₃ _ hf ↦ (minding_callArguments m).risk_bind fun vs u₄ hg₄ hvs ↦ ?_
  let finish : List Value → Lower Unit := fun receiver ↦ do
    let r ← emitCall f (receiver ++ vs)
    if !m.returnType.isVoid then push ⟨m.returnType, r, false⟩
  have hgrow : ∀ F [Supports (Lengthened fn F) (fun _ ↦ True) site] receiver,
      SafeAt (Lengthened fn F) (fun _ ↦ True) fn site (finish receiver) := by
    intro F _ receiver
    refine SafeAt.bind (.lift (safe_emitCall _ _)) fun r ↦ ?_
    split
    · exact .lift (safe_push _)
    · exact .pure _
  have hfinish : ∀ receiver u', Extended u₄ u' → List.Forall₂ (fun t v ↦ Fits u' t v.type) m.receives (receiver ++ vs) →
      RiskingAt site fn b u' (finish receiver) fun _ _ ↦ True := by
    intro receiver u' hg hargs
    refine MindingAt.risk_bind (.lift (minding_emitCall (hf.mono (hg₄.trans hg)) hargs)) fun r u₆ _ hr ↦ ?_
    split
    · rename_i hvalue
      rw [Bool.not_eq_true'] at hvalue
      exact (MindingAt.lift (minding_push (Stands.apt (.plain hvalue hr)))).risking
    · exact .pure trivial
  dsimp only
  split
  · rename_i hinstance
    refine (minding_popRaw _).risk_bind fun w u₅ hg₅ hw ↦ ?_
    refine (risking_lowerWithin (risking_address _ hw)).bind (fun F _ p ↦ ?_) fun p u₆ hg₆ hp ↦ ?_
    · exact hgrow F [p]
    · obtain ⟨ht, e, he, hstands⟩ := hp
      refine hfinish [p] u₆ (hg₅.trans hg₆) ?_
      rw [receives_of_owner hinstance ht]
      exact .cons (he ▸ Stands.fits (.address rfl hstands)) (hvs.imp fun _ _ h ↦ h.mono (hg₅.trans hg₆))
  · rename_i hstatic
    refine hfinish [] u₄ (.refl _) ?_
    rw [Method.receives, if_neg hstatic]
    exact hvs

/-- An instruction of a body that does not end its block keeps operands apt. -/
theorem risking_lower (start : Nat) {i : Instruction} (hends : i.endsBlock = false) :
    RiskingAt site fn b u (lower start i) fun _ _ ↦ True := by
  unfold lower
  cases hi : action i with
  | nothing => exact .pure trivial
  | loadArg n => exact ((minding_argument n).bind fun _ _ _ ha ↦ .lift (minding_push ha)).risking
  | argAddress n =>
    refine ((minding_argument n).bind fun _ _ _ ha ↦ ?_).risking
    split
    · exact .lift (minding_push ha.stands.apt)
    · exact minding_unsupported _ _
  | storeArg n =>
    refine ((minding_argument n).bind fun _ _ _ ha ↦ ?_).risking
    split
    · exact minding_storeSlot ha ‹_›
    · exact minding_unsupported _ _
  | loadLocal n => exact ((minding_localSlot n).bind fun _ _ _ ha ↦ .lift (minding_push ha.1)).risking
  | localAddress n => exact ((minding_localSlot n).bind fun _ _ _ ha ↦ .lift (minding_push ha.1.stands.apt)).risking
  | storeLocal n => exact ((minding_localSlot n).bind fun _ _ _ ha ↦ minding_storeSlot ha.1 ha.2).risking
  | int32 n => exact (minding_pushed (.lift ((minding_intConst _ _).imp fun _ _ _ h ↦ h ▸ stands_prim rfl))).risking
  | int64 n => exact (minding_pushed (.lift ((minding_intConst _ _).imp fun _ _ _ h ↦ h ▸ stands_prim rfl))).risking
  | float32 d => exact (minding_pushed (.lift ((minding_constant _).imp fun _ _ _ h ↦ h ▸ stands_prim rfl))).risking
  | float64 d => exact (minding_pushed (.lift ((minding_constant _).imp fun _ _ _ h ↦ h ▸ stands_prim rfl))).risking
  | dup =>
    refine ((minding_popRaw none).bind fun _ _ _ hv ↦ MindingAt.bind (.lift (minding_push hv)) fun _ _
      hg _ ↦ ?_).risking
    exact .lift (minding_push (hv.mono hg))
  | pop => exact ((minding_popRaw none).bind fun _ _ _ _ ↦ .pure trivial).risking
  | arith op => exact risking_arith i op
  | compare c =>
    refine (risking_compare i (proper_of_action (.inl hi))).bind (fun F _ v ↦ ?_) fun v u₁ _ hv ↦ ?_
    · exact SafeAt.bind (.lift (safe_intConst _ _)) fun _ ↦ .bind (.lift (safe_intConst _ _)) fun _ ↦
        safe_pushed (.lift (safe_emit Instr.hinted_select))
    refine (MindingAt.bind (.lift (minding_intConst _ _)) fun one u₂ _ hone ↦ ?_).risking
    refine MindingAt.bind (.lift (minding_intConst _ _)) fun zero u₃ _ hzero ↦ minding_pushed (.lift ?_)
    refine (minding_emit (Ssa.fitting_select "" hv (hone.trans hzero.symm) (hzero ▸ rfl))).imp fun v u₄ _ hv ↦ ?_
    rw [hv, Instr.select, hone]
    exact stands_prim rfl
  | convert p => exact minding_convertTop.risking
  | convertUnsigned => exact minding_convertTopUnsigned.risking
  | loadThrough p => exact risking_loadObject _
  | storeThrough p => exact risking_storeObject _
  | loadObject => exact (minding_typeOperand i).risk_bind fun t _ _ _ ↦ risking_loadObject t
  | storeObject => exact (minding_typeOperand i).risk_bind fun t _ _ _ ↦ risking_storeObject t
  | sizeOf =>
    refine ((minding_typeOperand i).bind fun t _ _ _ ↦ (minding_operandSize t).bind fun n _ _ _ ↦ ?_).risking
    exact minding_pushed (.lift ((minding_intConst _ _).imp fun _ _ _ h ↦ h ▸ stands_prim rfl))
  | initObject => exact (minding_typeOperand i).risk_bind fun t _ _ _ ↦ risking_clearObject t
  | loadField => exact risking_loadField i
  | fieldAddress => exact risking_fieldAddress i
  | storeField => exact risking_storeField i
  | newObject => exact (minding_newObject i).risking
  | call => exact risking_call i
  | unsupported => exact (minding_unsupported _ _).risking
  | ret | jump | jumpIf | jumpCompare =>
    rcases endsBlock_of_takes?_eq_none (i := i) (by rw [hi]; rfl) with h | h | h | h <;>
      first | (rw [hi] at h; cases h) | (rw [hends] at h; cases h)

end

end CilSsa.Lowering

