import CilSsa.Proofs.BodyStages
import CilSsa.Proofs.Construction

namespace CilSsa.Lowering

open CilSsa.Bytecode CilSsa.Metadata
open CilSsa.Ssa (BlockId Const FuncId Function Instr Value)

/-- What an instruction of block `b` of function `fn`, with parameters of the types `ps`, can read behind the
instructions `pre`. -/
def Near (fn : FuncId) (ps : List Ssa.Ty) (F : Function) (b : Nat) (pre : List Nat) : Value → Prop
  | .instr id t => id.fn = fn ∧ (∃ x, F.instrs[id.index]? = some x ∧ x.type = t) ∧
      (id.index ∈ pre ∨ b ≠ 0 ∧ ∃ B, F.blocks[0]? = some B ∧ id.index ∈ B.instrs)
  | .param g k t => g = fn ∧ ps[k]? = some t
  | .func .. => False
  | .const c _ => c.Made

def Readable (fn : FuncId) (ps : List Ssa.Ty) (F : Function) (b : Nat) (v : Value) : Prop :=
  ∃ B, F.blocks[b]? = some B ∧ Near fn ps F b B.instrs v

/-- A function that the builder has made with each operand before what reads it. -/
structure Sturdy (fn : FuncId) (ps : List Ssa.Ty) (F : Function) : Prop where
  built : F.Built
  params : F.paramTypes = ps
  ordered : ∀ (b : Nat) (B : Ssa.Block) (pre : List Nat) (k : Nat) (post : List Nat) (i : Instr) (o : Option Value),
    F.blocks[b]? = some B → B.instrs = pre ++ k :: post → F.instr? k = some i → o ∈ i.operands →
      ∃ v, o = some v ∧ Near fn ps F b pre v

section

variable {fn : FuncId} {ps : List Ssa.Ty} {F F' : Function} {b c : Nat} {pre pre' : List Nat} {v : Value} {i : Instr}

theorem Outgrows.block (h : Outgrows F F') {B : Ssa.Block} (hB : F.blocks[b]? = some B) :
    ∃ ks, F'.blocks[b]? = some { B with instrs := B.instrs ++ ks } := by
  obtain ⟨ks, hks⟩ := h b
  exact ⟨ks, hks.block B hB⟩

theorem Near.mono (h : Outgrows F F') (hpre : pre ⊆ pre') (hv : Near fn ps F b pre v) : Near fn ps F' b pre' v := by
  cases v with
  | instr id t =>
    obtain ⟨hfn, ⟨x, hx, ht⟩, hmem⟩ := hv
    refine ⟨hfn, ⟨x, h.earlier _ x hx, ht⟩, hmem.imp (hpre ·) fun ⟨hb, B, hB, hmem⟩ ↦ ?_⟩
    obtain ⟨ks, hB'⟩ := h.block hB
    exact ⟨hb, _, hB', List.mem_append_left _ hmem⟩
  | param => exact hv
  | func => exact hv
  | const => exact hv

theorem Readable.mono (h : Outgrows F F') (hv : Readable fn ps F b v) : Readable fn ps F' b v := by
  obtain ⟨B, hB, hnear⟩ := hv
  obtain ⟨ks, hB'⟩ := h.block hB
  exact ⟨_, hB', hnear.mono h (List.subset_append_left ..)⟩

theorem Readable.of_first (hv : Readable fn ps F 0 v) {B : Ssa.Block} (hB : F.blocks[b]? = some B) :
    Readable fn ps F b v := by
  obtain ⟨B₀, hB₀, hnear⟩ := hv
  by_cases hb : b = 0
  · subst hb
    exact ⟨B₀, hB₀, hnear⟩
  refine ⟨B, hB, ?_⟩
  cases v with
  | instr id t =>
    obtain ⟨hfn, hx, hmem | ⟨h0, -⟩⟩ := hnear
    · exact ⟨hfn, hx, .inr ⟨hb, B₀, hB₀, hmem⟩⟩
    · exact absurd rfl h0
  | param => exact hnear
  | func => exact hnear
  | const => exact hnear

theorem Near.offers (hF : Sturdy fn ps F) (hid : F.id = fn) (hv : Near fn ps F b pre v) : F.Offers v := by
  cases v with
  | instr id t => exact ⟨hv.1.trans hid.symm, hv.2.1⟩
  | param g k t => exact fun _ ↦ by rw [hF.params]; exact hv.2
  | func => trivial
  | const => exact hv

theorem Sturdy.append (hF : Sturdy fn ps F) (hid : F.id = fn) {B : Ssa.Block} (hB : F.blocks[b]? = some B) (hi : i.Made)
    (ho : ∀ o ∈ i.operands, ∃ v, o = some v ∧ Readable fn ps F b v) : Sturdy fn ps (F.append b i).1 := by
  have hgrew := outgrows_append F b i
  have hready : ∀ o ∈ i.operands, ∃ v, o = some v ∧ Near fn ps F b B.instrs v := by
    intro o hmem
    obtain ⟨v, rfl, B', hB', hnear⟩ := ho o hmem
    obtain rfl := Option.some.inj (hB.symm.trans hB')
    exact ⟨v, rfl, hnear⟩
  refine ⟨.instr hF.built (Array.getElem?_eq_some_iff.mp hB).1 hi fun v hv ↦ ?_, ?_, ?_⟩
  · obtain ⟨_, h, hnear⟩ := hready _ hv
    cases h
    exact hnear.offers hF hid
  · rw [Function.paramTypes, append_signature]
    exact hF.params
  intro c C pre k post j o hC hlist hj hmem
  -- an instruction that was there before reads what it has read
  have hold : ∀ C₀ : Ssa.Block, F.blocks[c]? = some C₀ → ∀ post', C₀.instrs = pre ++ k :: post' →
      ∃ v, o = some v ∧ Near fn ps (F.append b i).1 c pre v := by
    intro C₀ hC₀ post' hlist'
    obtain ⟨x, hx, -⟩ := hF.built.formed.found hC₀ (k := k) (by rw [hlist']; simp)
    obtain rfl := Option.some.inj ((hgrew.earlier k x hx).symm.trans hj)
    obtain ⟨v, rfl, hnear⟩ := hF.ordered c C₀ pre k post' x o hC₀ hlist' hx hmem
    exact ⟨v, rfl, hnear.mono hgrew (List.Subset.refl _)⟩
  rw [append_blocks, Array.getElem?_modify] at hC
  split at hC
  · rename_i hbc
    subst hbc
    rw [hB] at hC
    cases hC
    rcases List.eq_nil_or_concat post with rfl | ⟨post', n, rfl⟩
    · obtain ⟨rfl, hk⟩ := List.append_inj' hlist rfl
      obtain rfl := List.singleton_inj.mp hk
      rw [Function.instr?, append_found] at hj
      cases hj
      obtain ⟨v, rfl, hnear⟩ := hready o hmem
      exact ⟨v, rfl, hnear.mono hgrew (List.Subset.refl _)⟩
    · refine hold B hB post' ?_
      rw [List.concat_eq_append, ← List.cons_append, ← List.append_assoc] at hlist
      exact (List.append_inj' hlist rfl).1
  · exact hold C hC post hlist

end

/-! ### Lowering that adds such instructions -/

section

variable (fn : FuncId) (ps : List Ssa.Ty) (b : Nat) (F : Function)

/-- Where block `b` of code `F` is being lowered, all pending operands can be read. -/
structure Stocked (s : Stage) : Prop where
  own : s.fn = fn
  block : s.block = b
  pending : ∀ v ∈ s.pending, Readable fn ps F b v.value
  here : ∃ B, F.blocks[b]? = some B
  first : ∃ B, F.blocks[0]? = some B

/-- Lowering that adds instructions to code `F` that read what is there, and gives a value as `R` has it. -/
def Making {α : Type} (c : Emit α) (R : Function → α → Prop) : Prop :=
  ∀ s u a s' u', Emits c s u a s' u' → Stocked fn ps b F s → Houses fn F u → Sturdy fn ps F →
    ∃ F', Outgrows F F' ∧ Stocked fn ps b F' s' ∧ Houses fn F' u' ∧ Sturdy fn ps F' ∧ R F' a

end

section

variable {α β : Type} {fn : FuncId} {ps : List Ssa.Ty} {b c : Nat} {F F' : Function} {s s' : Stage}
  {u : CompilationUnit} {R : Function → α → Prop} {S : Function → β → Prop} {v p : Value}

theorem Houses.id_eq (h : Houses fn F u) : F.id = fn := h.numbered.ids _ F h.found

theorem Stocked.outgrows (h : Stocked fn ps b F s) (hF : Outgrows F F') : Stocked fn ps b F' s :=
  ⟨h.own, h.block, fun v hv ↦ (h.pending v hv).mono hF, h.here.elim fun _ hB ↦ (hF.block hB).imp' _ fun _ ↦ id,
    h.first.elim fun _ hB ↦ (hF.block hB).imp' _ fun _ ↦ id⟩

theorem Stocked.pend (h : Stocked fn ps b F s) (hfn : s'.fn = s.fn) (hb : s'.block = s.block)
    (hp : ∀ v ∈ s'.pending, Readable fn ps F b v.value) : Stocked fn ps b F s' :=
  ⟨hfn.trans h.own, hb.trans h.block, hp, h.here, h.first⟩

theorem Stocked.same (h : Stocked fn ps b F s) (hfn : s'.fn = s.fn) (hb : s'.block = s.block)
    (hp : s'.pending = s.pending) : Stocked fn ps b F s' := h.pend hfn hb fun v hv ↦ h.pending v (hp ▸ hv)

theorem Making.bind {c : Emit α} {f : α → Emit β} (hc : Making fn ps b F c R)
    (hf : ∀ F' a, Outgrows F F' → R F' a → Making fn ps b F' (f a) S) : Making fn ps b F (c >>= f) S := by
  intro s u a s' u' he hs hF hsturdy
  obtain ⟨a₁, s₁, u₁, h₁, h₂⟩ := Emits.bind_iff.mp he
  obtain ⟨F₁, hgrew, hs₁, hF₁, hsturdy₁, hR⟩ := hc _ _ _ _ _ h₁ hs hF hsturdy
  obtain ⟨F', hgrew', hs', hF', hsturdy', hS⟩ := hf F₁ a₁ hgrew hR _ _ _ _ _ h₂ hs₁ hF₁ hsturdy₁
  exact ⟨F', hgrew.trans hgrew', hs', hF', hsturdy', hS⟩

theorem Making.pure {a : α} (h : R F a) : Making fn ps b F (pure a) R := by
  intro s u a' s' u' he hs hF hsturdy
  obtain ⟨rfl, rfl, rfl⟩ := Emits.pure_iff.mp he
  exact ⟨F, .refl F, hs, hF, hsturdy, h⟩

theorem Making.throw {e : CompileError} : Making fn ps b F (throw e : Emit α) R :=
  fun _ _ _ _ _ he ↦ absurd he Emits.throw_iff

theorem Making.lift {c : Compile α} (h : Leaves fn c) : Making fn ps b F (liftM c : Emit α) fun _ _ ↦ True := by
  intro s u a s' u' he hs hF hsturdy
  obtain ⟨rfl, hc⟩ := Emits.lift_iff.mp he
  exact ⟨F, .refl F, hs, (h F u hF).1 a u' hc, hsturdy, trivial⟩

theorem Making.of_same {c : Emit α}
    (h : ∀ s u a s' u', Emits c s u a s' u' → s'.fn = s.fn ∧ s'.block = s.block ∧ s'.pending = s.pending ∧
    u' = u ∧ R F a) : Making fn ps b F c R := by
  intro s u a s' u' he hs hF hsturdy
  obtain ⟨hfn, hb, hp, rfl, hR⟩ := h s u a s' u' he
  exact ⟨F, .refl F, hs.same hfn hb hp, hF, hsturdy, hR⟩

theorem Making.mapM {f : α → Emit β} {as : List α} (hS : ∀ {F F' b}, Outgrows F F' → S F b → S F' b)
    (hf : ∀ F' a, a ∈ as → Outgrows F F' → Making fn ps b F' (f a) S) :
    Making fn ps b F (as.mapM f) fun F' bs ↦ ∀ b ∈ bs, S F' b := by
  induction as generalizing F with
  | nil => exact .pure nofun
  | cons a as ih =>
    rw [List.mapM_cons]
    refine (hf F a List.mem_cons_self (.refl F)).bind fun F₁ x hF₁ hx ↦ ?_
    refine (ih fun F' a ha hF' ↦ hf F' a (List.mem_cons_of_mem _ ha) (hF₁.trans hF')).bind fun F₂ xs hF₂ hxs ↦ ?_
    exact .pure (List.forall_mem_cons.mpr ⟨hS hF₂ hx, hxs⟩)

/-! ### Single instructions -/

/-- An instruction in the block, or one without operands in the first block. -/
theorem making_emitAt {i : Instr} (hi : i.Made) (hc : c = b ∨ c = 0)
    (ho : ∀ o ∈ i.operands, ∃ v, o = some v ∧ Readable fn ps F c v) :
    Making fn ps b F (emitAt c i) fun F' v ↦ Readable fn ps F' b v := by
  intro s u v s' u' he hs hF hsturdy
  have hown := hs.own
  subst hown
  obtain ⟨rfl, rfl, hF'⟩ := emitAt_inv he hF
  obtain ⟨B, hB⟩ : ∃ B, F.blocks[c]? = some B := hc.elim (fun h ↦ h ▸ hs.here) fun h ↦ h ▸ hs.first
  have hgrew := outgrows_append F c i
  have hs' := hs.outgrows hgrew
  have hnew : Readable s'.fn ps (F.append c i).1 c (.instr ⟨s'.fn, F.instrs.size⟩ i.type) :=
    ⟨_, append_block hB i, rfl, ⟨_, append_found i, rfl⟩, .inl (by simp)⟩
  refine ⟨_, hgrew, hs', hF', hsturdy.append hF.id_eq hB hi ho, ?_⟩
  rcases hc with rfl | rfl
  · exact hnew
  · exact hs'.here.elim fun B hB ↦ hnew.of_first hB

theorem making_emit {i : Instr} (hi : i.Made) (ho : ∀ o ∈ i.operands, ∃ v, o = some v ∧ Readable fn ps F b v) :
    Making fn ps b F (emit i) fun F' v ↦ Readable fn ps F' b v := by
  intro s u v s' u' he hs hF hsturdy
  unfold emit at he
  simp only [Emits.bind_iff, Emits.get_iff] at he
  obtain ⟨_, _, _, ⟨rfl, rfl, rfl⟩, he⟩ := he
  rw [hs.block] at he
  exact making_emitAt hi (.inl rfl) ho s u v s' u' he hs hF hsturdy

theorem emits_emit (i : Instr) (s : Stage) (u : CompilationUnit) :
    Emits (emit i) s u (u.module.append ⟨s.fn, s.block⟩ i).2 s
    { u with module := (u.module.append ⟨s.fn, s.block⟩ i).1 } := by
  rfl

theorem ready_nil {P : Value → Prop} : ∀ o ∈ ([] : List (Option Value)), ∃ v, o = some v ∧ P v := nofun

theorem ready_one {P : Value → Prop} (hv : P v) : ∀ o ∈ [some v], ∃ v, o = some v ∧ P v := by
  rintro _ (_ | ⟨_, ⟨⟩⟩)
  exact ⟨v, rfl, hv⟩

theorem ready_two {P : Value → Prop} (hv : P v) (hp : P p) : ∀ o ∈ [some v, some p], ∃ v, o = some v ∧ P v := by
  rintro _ (_ | ⟨_, _ | ⟨_, ⟨⟩⟩⟩)
  · exact ⟨v, rfl, hv⟩
  · exact ⟨p, rfl, hp⟩

theorem making_constant {k : Const} (hk : k.Made) : Making fn ps b F (constant k) fun F' v ↦ Readable fn ps F' b v := by
  intro s u v s' u' he hs hF hsturdy
  obtain ⟨h, rfl⟩ := Emits.modifyGet_iff.mp he
  cases h
  obtain ⟨B, hB⟩ := hs.here
  exact ⟨F, .refl F, hs.same rfl rfl rfl, hF, hsturdy, B, hB, hk⟩

theorem making_intConst (t : Ssa.Ty) (n : Int) : Making fn ps b F (intConst t n) fun F' v ↦ Readable fn ps F' b v :=
  making_constant (.int _ _)

theorem making_load (hp : Readable fn ps F b p) : Making fn ps b F (load p) fun F' v ↦ Readable fn ps F' b v :=
  making_emit (.load _ _) (ready_one hp)

theorem making_store (hv : Readable fn ps F b v) (hp : Readable fn ps F b p) : Making fn ps b F (store v p) fun _ _ ↦
    True :=
  (making_emit (.store _ _) (ready_two hv hp)).bind fun _ _ _ _ ↦ .pure trivial

theorem making_castTo {op : Ssa.Op} (t : Ssa.Ty) (hv : Readable fn ps F b v) :
    Making fn ps b F (castTo op v t) fun F' w ↦ Readable fn ps F' b w := making_emit (.cast _ _ _ _) (ready_one hv)

theorem making_emitOr {o : Option Instr} (hv : Readable fn ps F b v) (ho : ∀ i ∈ o, i.Made ∧ i.operands = [some v]) :
    Making fn ps b F (emitOr v o) fun F' w ↦ Readable fn ps F' b w := by
  cases o with
  | none => exact .pure hv
  | some i =>
    obtain ⟨hi, hoperands⟩ := ho i rfl
    exact making_emit hi (by rw [hoperands]; exact ready_one hv)

theorem made_pointerCast {t : Ssa.Ty} {name : String} : ∀ i ∈ Instr.pointerCast? v t name, i.Made ∧
    i.operands = [some v] := by
  unfold Instr.pointerCast?
  intro i hi
  split at hi
  · cases hi
  · cases hi
    exact ⟨.cast _ _ _ _, rfl⟩

theorem making_pointerTo (t : Ssa.Ty) (hv : Readable fn ps F b v) :
    Making fn ps b F (pointerTo v t) fun F' w ↦ Readable fn ps F' b w := making_emitOr hv made_pointerCast

theorem making_slotFor (t : Ssa.Ty) (name : String) : Making fn ps b F (slotFor t name) fun F' v ↦
    Readable fn ps F' b v :=
  making_emitAt (.alloca _ _) (.inr rfl) ready_nil

theorem making_emitCall {args : List Value} (f : FuncId) (hargs : ∀ v ∈ args, Readable fn ps F b v) :
    Making fn ps b F (emitCall f args) fun F' w ↦ Readable fn ps F' b w := by
  refine Making.bind (.lift leaves_get) fun F' u hF' _ ↦ making_emit (.call _ _ _ _) fun o ho ↦ ?_
  obtain ⟨v, hv, rfl⟩ := List.mem_map.mp ho
  exact ⟨v, rfl, (hargs v hv).mono hF'⟩

/-- Memory is cleared by a call of the function for that, with the address as a pointer to bytes. -/
theorem clearAt_inv {s s' : Stage} {u u' : CompilationUnit} {size : Int} {x : Unit}
    (he : Emits (clearAt s.block v size) s u x s' u') : s' = { s with constants := s.constants + 3 } ∧
      ∃ p u₁ w, Emits (pointerTo v .bytePointer) s' { u with module := u.module.memset.1 } p s' u₁ ∧
        Emits (emit (clearing u.module.memset.2 p (Number.wordOfInt size) s.constants)) s' u₁ w s' u' := by
  unfold clearAt onModule at he
  simp only [Emits.bind_iff, Emits.get_iff, Emits.set_iff, Emits.lift_iff, Emits.pure_iff, Compiles.bind_iff,
    Compiles.get_iff, Compiles.set_iff, Compiles.pure_iff] at he
  obtain ⟨_, _, _, ⟨rfl, rfl, rfl⟩, _, _, _, ⟨rfl, rfl⟩, w, _, _, ⟨rfl, _, _, ⟨rfl, rfl⟩, _, _, rfl, rfl, rfl⟩,
    -, rfl, rfl⟩ := he
  refine ⟨rfl, ?_⟩
  unfold pointerTo Instr.pointerCast?
  by_cases hv : v.type = .bytePointer
  · rw [if_pos hv]
    have hmodule : u.module.appendMemset ⟨s.fn, s.block⟩ v 0 (Number.wordOfInt size) (fun k ↦ .made (s.constants + k)) =
        u.module.memset.1.append ⟨s.fn, s.block⟩
        (clearing u.module.memset.2 v (Number.wordOfInt size) s.constants) := by
      simp only [Ssa.Module.appendMemset, Instr.pointerCast?, hv, if_true, Ssa.Module.appendOr]
      rfl
    rw [hmodule]
    exact ⟨v, _, _, Emits.pure_iff.mpr ⟨rfl, rfl, rfl⟩, emits_emit _ _ _⟩
  · rw [if_neg hv]
    have hmodule : u.module.appendMemset ⟨s.fn, s.block⟩ v 0 (Number.wordOfInt size) (fun k ↦ .made (s.constants + k)) =
        let q := u.module.memset.1.append ⟨s.fn, s.block⟩ (.cast .bitcast (some v) .bytePointer "")
        q.1.append ⟨s.fn, s.block⟩ (clearing u.module.memset.2 q.2 (Number.wordOfInt size) s.constants) := by
      simp only [Ssa.Module.appendMemset, Instr.pointerCast?, hv, if_false, Ssa.Module.appendOr]
      rfl
    rw [hmodule]
    exact ⟨_, _, _, emits_emit _ _ _, emits_emit _ _ _⟩

theorem making_clearAt (size : Int) (hv : Readable fn ps F b v) : Making fn ps b F (clearAt b v size)
    fun _ _ ↦ True := by
  intro s u x s' u' he hs hF hsturdy
  have hown := hs.own
  have hblock := hs.block
  subst hown hblock
  obtain ⟨rfl, p, u₁, w, hcast, hcall⟩ := clearAt_inv he
  obtain ⟨hnum, -, -, hkept⟩ := memset_spec hF.numbered s.fn
  have hs₀ : Stocked s.fn ps s.block F { s with constants := s.constants + 3 } := hs.same rfl rfl rfl
  obtain ⟨F₁, hgrew₁, hs₁, hF₁, hsturdy₁, hp⟩ :=
    making_pointerTo _ hv _ _ _ _ _ hcast hs₀ ⟨hnum, hkept _ _ hF.found⟩ hsturdy
  obtain ⟨B, hB, -⟩ := id hp
  obtain ⟨F₂, hgrew₂, hs₂, hF₂, hsturdy₂, -⟩ := making_emit (.call _ _ _ _) (by
    rintro _ (_ | ⟨_, _ | ⟨_, _ | ⟨_, _ | ⟨_, ⟨⟩⟩⟩⟩⟩)
    · exact ⟨p, rfl, hp⟩
    all_goals exact ⟨_, rfl, B, hB, .int _ _⟩) _ _ _ _ _ hcall hs₁ hF₁ hsturdy₁
  exact ⟨F₂, hgrew₁.trans hgrew₂, hs₂, hF₂, hsturdy₂, trivial⟩

/-! ### Operands -/

variable {w : Operand}

abbrev Held (fn : FuncId) (ps : List Ssa.Ty) (b : Nat) (F : Function) (w : Operand) : Prop := Readable fn ps F b w.value

theorem making_push (hw : Held fn ps b F w) : Making fn ps b F (push w) fun _ _ ↦ True := by
  intro s u x s' u' he hs hF hsturdy
  obtain ⟨rfl, rfl⟩ := Emits.modify_iff.mp he
  exact ⟨F, .refl F, hs.pend rfl rfl (List.forall_mem_cons.mpr ⟨hw, hs.pending⟩), hF, hsturdy, trivial⟩

theorem making_materialize (hw : Held fn ps b F w) : Making fn ps b F (materialize w) (Held fn ps b) := by
  unfold materialize
  split
  · exact (making_load hw).bind fun F' v _ hv ↦ .pure hv
  · exact .pure hw

theorem making_deref (hw : Held fn ps b F w) : Making fn ps b F (deref w) (Held fn ps b) := by
  refine (making_materialize hw).bind fun F' x _ hx ↦ ?_
  split
  · exact (making_load hx).bind fun F'' v _ hv ↦ .pure hv
  · exact .pure hx

theorem making_settle : Making fn ps b F settle fun _ _ ↦ True := by
  intro s u x s' u' he hs hF hsturdy
  obtain ⟨_, _, _, hget, he⟩ := Emits.bind_iff.mp he
  obtain ⟨rfl, rfl, rfl⟩ := Emits.get_iff.mp hget
  obtain ⟨ws, s₁, u₁, hread, hset⟩ := Emits.bind_iff.mp he
  obtain ⟨rfl, rfl⟩ := Emits.modify_iff.mp hset
  have hall : Making fn ps b F (s.pending.reverse.mapM materialize) fun F' ws ↦ ∀ w ∈ ws, Held fn ps b F' w :=
    .mapM (fun hF' h ↦ h.mono hF') fun F' w hw hF' ↦
    making_materialize ((hs.pending w (List.mem_reverse.mp hw)).mono hF')
  obtain ⟨F', hgrew, hs', hF', hsturdy', hws⟩ := hall _ _ _ _ _ hread hs hF hsturdy
  exact ⟨F', hgrew, hs'.pend rfl rfl fun v hv ↦ hws v (List.mem_reverse.mp hv), hF', hsturdy', trivial⟩

theorem making_advance (n : Int) (hp : Readable fn ps F b p) :
    Making fn ps b F (advance p n) fun F' q ↦ Readable fn ps F' b q := by
  refine (making_castTo _ hp).bind fun F₁ q _ hq ↦ (making_intConst _ _).bind fun F₂ k hF₂ hk ↦ ?_
  exact (making_emit (.binary rfl _ _ _) (ready_two (hq.mono hF₂) hk)).bind fun F₃ r _ hr ↦ making_castTo _ hr

theorem making_pushBuffer (n : Int) (hp : Readable fn ps F b p) (hv : Readable fn ps F b v) :
    Making fn ps b F (pushBuffer p v n) fun _ _ ↦ True := by
  refine (making_load hp).bind fun F₁ top hF₁ htop ↦ (making_pointerTo _ htop).bind fun F₂ q hF₂ hq ↦ ?_
  refine (making_store ((hv.mono hF₁).mono hF₂) hq).bind fun F₃ _ hF₃ _ ↦ ?_
  refine (making_advance _ ((htop.mono hF₂).mono hF₃)).bind fun F₄ r hF₄ hr ↦ ?_
  exact making_store hr ((((hp.mono hF₁).mono hF₂).mono hF₃).mono hF₄)

theorem making_popBuffer (t : Ssa.Ty) (n : Int) (hp : Readable fn ps F b p) :
    Making fn ps b F (popBuffer p t n) fun F' v ↦ Readable fn ps F' b v := by
  refine (making_load hp).bind fun F₁ top hF₁ htop ↦ (making_advance _ htop).bind fun F₂ q hF₂ hq ↦ ?_
  refine (making_store hq ((hp.mono hF₁).mono hF₂)).bind fun F₃ _ hF₃ _ ↦ ?_
  exact (making_pointerTo _ (hq.mono hF₃)).bind fun F₄ r _ hr ↦ making_load hr

theorem making_takeEntry (hint : Option Ty) : Making fn ps b F (takeEntry hint) fun _ _ ↦ True := by
  refine .of_same fun s u t s' u' he ↦ ?_
  obtain ⟨rfl, ⟨rest, -, rfl⟩ | ⟨-, -, rfl⟩⟩ := takeEntry_inv he <;> exact ⟨rfl, rfl, rfl, rfl, trivial⟩

theorem making_settleEntry (start : Nat) : Making fn ps b F (settleEntry start) fun _ _ ↦ True := by
  refine .of_same fun s u x s' u' he ↦ ?_
  obtain ⟨rfl, rfl⟩ := Emits.modify_iff.mp he
  refine ⟨?_, ?_, ?_, rfl, trivial⟩ <;> (split <;> rfl)

theorem making_spilled (hw : Held fn ps b F w) : Making fn ps b F (spilled w) (Held fn ps b) := by
  refine (making_materialize hw).bind fun F₁ x _ hx ↦ ?_
  split
  · refine (making_slotFor _ _).bind fun F₂ slot hF₂ hslot ↦ (making_store (hx.mono hF₂) hslot).bind fun F₃ _ hF₃ _ ↦ ?_
    exact .pure (hslot.mono hF₃)
  · exact .pure hx

end

/-! ### At a site -/

/-- What a site compiles leaves the function alone, and its slots are set up in the block before all others. -/
structure Equipped (fn : FuncId) (ps : List Ssa.Ty) (site : Site) (F : Function) : Prop where
  compiles : ∀ m, Leaves fn (site.compile m)
  slots : ∀ v ∈ site.args ++ site.locals, Held fn ps 0 F v
  top : Readable fn ps F 0 site.top

def MakingAt {α : Type} (fn : FuncId) (ps : List Ssa.Ty) (b : Nat) (site : Site) (F : Function) (c : Lower α)
    (R : Function → α → Prop) : Prop :=
  Equipped fn ps site F → (∃ B, F.blocks[b]? = some B) → Making fn ps b F (c.run site) R

section

variable {α β : Type} {fn : FuncId} {ps : List Ssa.Ty} {b : Nat} {site : Site} {F F' : Function}
  {R : Function → α → Prop} {S : Function → β → Prop} {v p : Value} {w : Operand}

theorem Equipped.outgrows (h : Equipped fn ps site F) (hF : Outgrows F F') : Equipped fn ps site F' :=
  ⟨h.compiles, fun v hv ↦ (h.slots v hv).mono hF, h.top.mono hF⟩

theorem MakingAt.bind {c : Lower α} {f : α → Lower β} (hc : MakingAt fn ps b site F c R)
    (hf : ∀ F' a, Outgrows F F' → R F' a → MakingAt fn ps b site F' (f a) S) : MakingAt fn ps b site F (c >>= f) S := by
  intro h hB
  refine (hc h hB).bind fun F' a hF' hR ↦ hf F' a hF' hR (h.outgrows hF') ?_
  obtain ⟨B, hB⟩ := hB
  exact (hF'.block hB).imp' _ fun _ ↦ id

theorem MakingAt.lift {c : Emit α} (h : Making fn ps b F c R) : MakingAt fn ps b site F (liftM c) R := fun _ _ ↦ h

theorem MakingAt.pure {a : α} (h : R F a) : MakingAt fn ps b site F (pure a) R := fun _ _ ↦ .pure h

theorem MakingAt.throw {e : CompileError} : MakingAt fn ps b site F (throw e : Lower α) R := fun _ _ ↦ .throw

theorem MakingAt.compile {c : Compile α} (h : Leaves fn c) : MakingAt fn ps b site F (liftM c : Lower α) fun _ _ ↦
    True :=
  fun _ _ ↦ .lift h

theorem MakingAt.read_bind {f : Site → Lower β}
    (h : (∀ m, Leaves fn (site.compile m)) → Readable fn ps F b site.top →
    (∀ v ∈ site.args ++ site.locals, Held fn ps b F v) →
      MakingAt fn ps b site F (f site) S) : MakingAt fn ps b site F (read >>= f) S := by
  rintro he ⟨B, hB⟩
  exact h he.compiles (he.top.of_first hB) (fun v hv ↦ (he.slots v hv).of_first hB) he ⟨B, hB⟩

theorem run_mapM {f : α → Lower β} (as : List α) : (as.mapM f).run site = as.mapM fun a ↦ (f a).run site := by
  induction as with
  | nil => rfl
  | cons a as ih =>
    simp only [List.mapM_cons, ReaderT.run_bind, ih]
    rfl

theorem MakingAt.mapM {f : α → Lower β} {as : List α} (hS : ∀ {F F' b}, Outgrows F F' → S F b → S F' b)
    (hf : ∀ F' a, a ∈ as → Outgrows F F' → MakingAt fn ps b site F' (f a) S) :
    MakingAt fn ps b site F (as.mapM f) fun F' bs ↦ ∀ b ∈ bs, S F' b := by
  intro h hB
  rw [run_mapM]
  exact .mapM hS fun F' a ha hF' ↦ hf F' a ha hF' (h.outgrows hF') (hB.elim fun _ hB ↦ (hF'.block hB).imp' _ fun _ ↦ id)

theorem MakingAt.forM {f : α → Lower PUnit} {as : List α}
    (hf : ∀ F' a, a ∈ as → Outgrows F F' → MakingAt fn ps b site F' (f a) fun _ _ ↦ True) :
    MakingAt fn ps b site F (as.forM f) fun _ _ ↦ True := by
  induction as generalizing F with
  | nil => exact .pure trivial
  | cons a as ih =>
    exact (hf F a List.mem_cons_self (.refl F)).bind fun F₁ _ hF₁ _ ↦
      ih fun F' a ha hF' ↦ hf F' a (List.mem_cons_of_mem _ ha) (hF₁.trans hF')

theorem making_lowerWithin {part : Part} {c : Lower α} (h : MakingAt fn ps b site F c R) :
    MakingAt fn ps b site F (lowerWithin part c) R :=
  fun he hB s u a s' u' h' ↦ h he hB s u a s' u' (Compiles.adapt_iff.mp h')

theorem making_during {i : Instruction} {c : Lower Unit} {R : Function → Unit → Prop}
    (h : MakingAt fn ps b site F c R) : MakingAt fn ps b site F (during i c) R :=
  fun he hB s u a s' u' h' ↦ h he hB s u a s' u' (Lowers.during_iff.mp h')

theorem making_unsupported (i : Instruction) (reason : String) : MakingAt fn ps b site F
    (unsupported i reason : Lower α) R :=
  .read_bind fun _ _ _ ↦ .throw

theorem making_counterpart (t : Ty) : MakingAt fn ps b site F (counterpart t) fun _ _ ↦ True :=
  .read_bind fun _ _ _ ↦ .compile (leaves_codeType t)

theorem making_operandSize (t : Ty) : MakingAt fn ps b site F (operandSize t) fun _ _ ↦ True :=
  (making_counterpart t).bind fun _ c _ _ ↦ .compile (leaves_sizeOf c)

/-! ### Conversions -/

theorem making_convertByOperator (t : Ty) (hw : Held fn ps b F w) :
    MakingAt fn ps b site F (convertByOperator w t) fun F' v ↦ Readable fn ps F' b v := by
  refine .read_bind fun hcompiles _ _ ↦ ?_
  cases site.world.conversion? w.type t with
  | none => exact .throw
  | some m =>
    refine MakingAt.bind (.compile (hcompiles m)) fun F' f hF' _ ↦ .lift (making_emitCall f ?_)
    exact List.forall_mem_singleton.mpr (hw.mono hF')

theorem made_intCast {t : Ssa.Ty} {signed : Bool} {name : String} :
    ∀ i ∈ Instr.intCast? v t signed name, i.Made ∧ i.operands = [some v] := by
  unfold Instr.intCast?
  intro i hi
  split at hi
  · cases hi
    exact ⟨.cast _ _ _ _, rfl⟩
  · split at hi
    · cases hi
      exact ⟨.cast _ _ _ _, rfl⟩
    · cases hi

theorem made_floatCast {t : Ssa.Ty} {name : String} : ∀ i ∈ Instr.floatCast? v t name, i.Made ∧
    i.operands = [some v] := by
  unfold Instr.floatCast?
  intro i hi
  split at hi
  · cases hi
  · split at hi <;> (cases hi; exact ⟨.cast _ _ _ _, rfl⟩)

theorem making_convertValue (t : Ty) (dst : Ssa.Ty) (hw : Held fn ps b F w) :
    MakingAt fn ps b site F (convertValue w t dst) fun F' v ↦ Readable fn ps F' b v := by
  have htwice : ∀ (op op' : Ssa.Op) (mid : Ssa.Ty), MakingAt fn ps b site F (do
      let n ← castTo op w.value mid
      castTo op' n dst : Lower Value) fun F' v ↦ Readable fn ps F' b v :=
    fun op op' mid ↦ .lift ((making_castTo mid hw).bind fun _ n _ hn ↦ making_castTo dst hn)
  unfold convertValue
  dsimp only
  split
  · exact .pure hw
  split
  case h_1 | h_2 => exact making_convertByOperator t hw
  case h_3 => exact .lift (making_emitOr hw made_intCast)
  case h_7 | h_8 | h_9 | h_10 => exact .lift (making_emitOr hw made_floatCast)
  case h_13 | h_14 | h_17 | h_18 => exact htwice _ _ _
  case h_15 => exact .lift (making_pointerTo _ hw)
  case h_19 => exact .throw
  all_goals exact .lift (making_castTo _ hw)

theorem making_convertDirectly (t : Ty) (hw : Held fn ps b F w) :
    MakingAt fn ps b site F (convertDirectly w t) (Held fn ps b) := by
  have hrest : ∀ F', Outgrows F F' → MakingAt fn ps b site F' (do
      let dst ← counterpart t
      return ⟨t, ← convertValue w t dst, false⟩) (Held fn ps b) := fun F' hF' ↦
    (making_counterpart t).bind fun F₁ c hF₁ _ ↦ (making_convertValue t c ((hw.mono hF').mono hF₁)).bind fun F₂ v _ hv ↦
      .pure hv
  unfold convertDirectly
  split
  · refine (making_counterpart t).bind fun F₁ c hF₁ _ ↦ ?_
    exact MakingAt.bind (.lift (making_castTo c (hw.mono hF₁))) fun F₂ v _ hv ↦ .pure hv
  · refine .read_bind fun _ _ _ ↦ ?_
    dsimp only
    split
    · exact MakingAt.bind (R := fun _ _ ↦ False) .throw fun _ _ _ h ↦ h.elim
    · exact hrest F (.refl F)

theorem making_convertFrom (target t : Ty) (v : Value) (slot : Bool) (hv : Readable fn ps F b v) :
    MakingAt fn ps b site F (convertFrom target t v slot) (Held fn ps b) := by
  fun_induction convertFrom target t v slot generalizing F with
  | case1 | case2 | case5 | case6 => exact .pure hv
  | case3 => exact MakingAt.bind (.lift (making_load hv)) fun F' w _ hw ↦ .pure hw
  | case4 _ _ _ _ _ _ ih =>
    refine .read_bind fun _ _ _ ↦ ?_
    split
    · exact MakingAt.bind (.lift (making_load hv)) fun F' w _ hw ↦ ih w hw
    · exact making_convertDirectly target hv
  | case7 => exact making_convertDirectly target hv

theorem making_convert (t : Ty) (hw : Held fn ps b F w) : MakingAt fn ps b site F (convert w t) (Held fn ps b) :=
  making_convertFrom t w.type w.value w.slot hw

theorem making_address (t : Ty) (hw : Held fn ps b F w) :
    MakingAt fn ps b site F (address w t) fun F' v ↦ Readable fn ps F' b v := by
  refine (making_counterpart t).bind fun F₁ c hF₁ _ ↦ ?_
  have hw₁ := hw.mono hF₁
  dsimp only
  split
  · exact .pure hw₁
  refine MakingAt.bind (.lift (making_materialize hw₁)) fun F₂ x _ hx ↦ ?_
  split
  · exact .lift (making_pointerTo _ hx)
  · refine MakingAt.bind (.lift (making_slotFor _ _)) fun F₃ slot hF₃ hslot ↦ ?_
    refine MakingAt.bind (.lift (making_store (hx.mono hF₃) hslot)) fun F₄ _ hF₄ _ ↦ ?_
    exact .lift (making_pointerTo _ (hslot.mono hF₄))
  · exact .lift (making_castTo _ hx)
  · exact .throw

/-! ### The operands of other blocks -/

theorem making_popRaw (hint : Option Ty) : MakingAt fn ps b site F (popRaw hint) (Held fn ps b) := by
  intro he hB s u w s' u' h hs hF hsturdy
  obtain ⟨rest, hp, rfl, rfl⟩ | ⟨-, h⟩ := popRaw_cases h
  · have hpending := List.forall_mem_cons.mp (hp ▸ hs.pending)
    exact ⟨F, .refl F, hs.pend rfl rfl hpending.2, hF, hsturdy, hpending.1⟩
  · have htaken : MakingAt fn ps b site F (do
        let t ← takeEntry hint
        let code ← counterpart t
        let size ← sizeOf code
        return ⟨t, ← popBuffer (← read).top code size, false⟩ : Lower Operand) (Held fn ps b) := by
      refine MakingAt.bind (.lift (making_takeEntry hint)) fun F₁ t _ _ ↦ (making_counterpart t).bind fun F₂ c _ _ ↦ ?_
      refine MakingAt.bind (.compile (leaves_sizeOf c)) fun F₃ n _ _ ↦ .read_bind fun _ htop _ ↦ ?_
      exact MakingAt.bind (.lift (making_popBuffer c n htop)) fun F₄ v _ hv ↦ .pure hv
    exact htaken he hB _ _ _ _ _ h hs hF hsturdy

theorem making_pop (t : Ty) : MakingAt fn ps b site F (pop t) (Held fn ps b) :=
  (making_popRaw _).bind fun _ _ _ hw ↦ making_convert t hw

theorem making_sameShape (as bs : List Ty) : MakingAt fn ps b site F (sameShape as bs) fun _ _ ↦ True := by
  fun_induction sameShape as bs generalizing F with
  | case1 => exact .pure trivial
  | case2 a as b bs ih =>
    refine (making_counterpart a).bind fun F₁ x _ _ ↦ (making_counterpart b).bind fun F₂ y _ _ ↦ ?_
    split
    · exact ih
    · exact .pure trivial
  | case3 => exact .pure trivial

theorem making_pushAll (depth : Int) (ws : List Operand) (hws : ∀ w ∈ ws, Held fn ps b F w) :
    MakingAt fn ps b site F (pushAll depth ws) fun _ _ ↦ True := by
  induction ws generalizing depth F with
  | nil => exact .pure trivial
  | cons w ws ih =>
    rw [List.forall_mem_cons] at hws
    refine .read_bind fun _ htop _ ↦ MakingAt.bind (.lift (making_spilled hws.1)) fun F₁ x hF₁ hx ↦ ?_
    refine MakingAt.bind (.compile (leaves_sizeOf _)) fun F₂ n hF₂ _ ↦ ?_
    have hF := hF₁.trans hF₂
    have hrest : MakingAt fn ps b site F₂ (do
        pushBuffer site.top x.value n
        return x.type :: (← pushAll (depth + n) ws)) fun _ _ ↦ True := by
      refine MakingAt.bind (.lift (making_pushBuffer n (htop.mono hF) (hx.mono hF₂))) fun F₃ _ hF₃ _ ↦ ?_
      exact (ih _ fun w hw ↦ (hws.2 w hw).mono (hF.trans hF₃)).bind fun _ _ _ _ ↦ .pure trivial
    dsimp only
    split
    · exact MakingAt.bind (R := fun _ _ ↦ False) .throw fun _ _ _ h ↦ h.elim
    · exact hrest

theorem making_recordEntry (shape : List Ty) (o : Nat) : MakingAt fn ps b site F (recordEntry shape o)
    fun _ _ ↦ True := by
  intro he hB s u x s' u' h hs hF hsturdy
  obtain ⟨_, _, _, hget, h⟩ := Lowers.bind_iff.mp h
  obtain ⟨rfl, rfl, rfl⟩ := Lowers.getThe_iff.mp hget
  split at h
  · obtain ⟨rfl, rfl⟩ := Lowers.set_iff.mp h
    exact ⟨F, .refl F, hs.same rfl rfl rfl, hF, hsturdy, trivial⟩
  · rename_i known _
    have hcompared : MakingAt fn ps b site F (do
        if !(← sameShape known shape) then throw (.shape shape known o) : Lower Unit) fun _ _ ↦ True := by
      refine (making_sameShape known shape).bind fun _ same _ _ ↦ ?_
      cases same
      · exact .throw
      · exact .pure trivial
    exact hcompared he hB _ _ _ _ _ h hs hF hsturdy

theorem making_flush (start : Nat) (successors : List Nat) : MakingAt fn ps b site F (flush start successors)
    fun _ _ ↦ True := by
  intro he hB s u x s' u' h hs hF hsturdy
  unfold flush at h
  obtain ⟨_, s₁, u₁, hsettle, h⟩ := Lowers.bind_iff.mp h
  obtain ⟨F₁, hgrew₁, hs₁, hF₁, hsturdy₁, -⟩ := making_settleEntry start _ _ _ _ _ hsettle hs hF hsturdy
  obtain ⟨_, _, _, hget, h⟩ := Lowers.bind_iff.mp h
  obtain ⟨rfl, rfl, rfl⟩ := Lowers.getThe_iff.mp hget
  have hrest : MakingAt fn ps b site F₁ (do
      let sizes ← s₁.entry.reverse.mapM operandSize
      let above ← pushAll (sizes.foldr (· + ·) 0) s₁.pending.reverse
      modifyThe Stage fun s ↦ { s with pending := [] }
      successors.forM (recordEntry (s₁.entry.reverse ++ above))) fun _ _ ↦ True := by
    refine (MakingAt.mapM (S := fun _ _ ↦ True) (fun _ _ ↦ trivial) fun F' t _ _ ↦ making_operandSize t).bind fun F₂
      sizes hF₂ _ ↦ ?_
    refine (making_pushAll _ _ fun w hw ↦ (hs₁.pending w (List.mem_reverse.mp hw)).mono hF₂).bind fun F₃ above _ _ ↦ ?_
    refine MakingAt.bind (R := fun _ _ ↦ True) ?_ fun F₄ _ _ _ ↦ .forM fun F' o _ _ ↦ making_recordEntry _ o
    intro _ _ s u x s' u' h hs hF hsturdy
    obtain ⟨rfl, rfl⟩ := Lowers.modifyThe_iff.mp h
    exact ⟨F₃, .refl F₃, hs.pend rfl rfl nofun, hF, hsturdy, trivial⟩
  obtain ⟨F', hgrew, hs', hF', hsturdy', -⟩ := hrest (he.outgrows hgrew₁) hs₁.here _ _ _ _ _ h hs₁ hF₁ hsturdy₁
  exact ⟨F', hgrew₁.trans hgrew, hs', hF', hsturdy', trivial⟩

/-! ### Single instructions of a body -/

theorem making_slotNumbered {what : String} {slots : List Operand} (n : Int) (h : ∀ v ∈ slots, Held fn ps b F v) :
    MakingAt fn ps b site F (slotNumbered what slots n) (Held fn ps b) := by
  unfold slotNumbered
  dsimp only
  split
  · exact MakingAt.bind (R := fun _ _ ↦ False) .throw fun _ _ _ h ↦ h.elim
  · split
    · rename_i v hv
      exact .pure (h v (List.mem_of_getElem? hv))
    · exact .throw

theorem making_argument (n : Int) : MakingAt fn ps b site F (argument n) (Held fn ps b) :=
  .read_bind fun _ _ hslots ↦ making_slotNumbered n fun v hv ↦ hslots v (List.mem_append_left _ hv)

theorem making_localSlot (n : Int) : MakingAt fn ps b site F (localSlot n) (Held fn ps b) :=
  .read_bind fun _ _ hslots ↦ making_slotNumbered n fun v hv ↦ hslots v (List.mem_append_right _ hv)

theorem making_storeSlot (hw : Held fn ps b F w) : MakingAt fn ps b site F (storeSlot w) fun _ _ ↦ True := by
  refine MakingAt.bind (.lift making_settle) fun F₁ _ hF₁ _ ↦ (making_pop _).bind fun F₂ v hF₂ hv ↦ ?_
  exact .lift (making_store hv ((hw.mono hF₁).mono hF₂))

theorem making_operands : MakingAt fn ps b site F operands fun F' p ↦ Held fn ps b F' p.1 ∧ Held fn ps b F' p.2 := by
  refine (making_popRaw none).bind fun F₁ r hF₁ hr ↦ (making_popRaw none).bind fun F₂ l hF₂ hl ↦ ?_
  refine MakingAt.bind (.lift (making_deref (hr.mono hF₂))) fun F₃ r' hF₃ hr' ↦ ?_
  refine MakingAt.bind (.lift (making_deref (hl.mono hF₃))) fun F₄ l' hF₄ hl' ↦ ?_
  exact (making_convert _ hl').bind fun F₅ x hF₅ hx ↦ .pure ⟨hx, (hr'.mono hF₄).mono hF₅⟩

theorem making_pushed {c : Lower Value} {t : Ty} (hc : MakingAt fn ps b site F c fun F' v ↦ Readable fn ps F' b v) :
    MakingAt fn ps b site F (do push ⟨t, ← c, false⟩) fun _ _ ↦ True :=
  hc.bind fun _ _ _ hv ↦ .lift (making_push hv)

theorem making_arith (i : Instruction) (op : Arith) : MakingAt fn ps b site F (arith i op) fun _ _ ↦ True := by
  refine making_operands.bind fun F₁ p _ hp ↦ ?_
  have hemit : ∀ code, code.isBinary = true → MakingAt fn ps b site F₁ (do
      push ⟨p.2.type, ← emit (.binary code p.1.value p.2.value ""), false⟩) fun _ _ ↦ True := fun code h ↦
    making_pushed (.lift (making_emit (.binary h _ _ _) (ready_two hp.1 hp.2)))
  dsimp only
  split
  · exact hemit _ (by cases op <;> rfl)
  · exact hemit _ (by cases op <;> rfl)
  · exact hemit _ (by cases op <;> rfl)
  · exact MakingAt.bind (R := fun _ _ ↦ False) (making_unsupported _ _) fun _ _ _ h ↦ h.elim

theorem making_compare (i : Instruction) (c : Comparison) :
    MakingAt fn ps b site F (compare i c) fun F' v ↦ Readable fn ps F' b v := by
  refine making_operands.bind fun F₁ p _ hp ↦ ?_
  dsimp only
  split
  · exact .lift (making_emit (.icmp _ _ _ _) (ready_two hp.1 hp.2))
  · exact .lift (making_emit (.icmp _ _ _ _) (ready_two hp.1 hp.2))
  · exact .lift (making_emit (.fcmp _ _ _ _) (ready_two hp.1 hp.2))
  · exact .lift (making_emit (.fcmp _ _ _ _) (ready_two hp.1 hp.2))
  · exact making_unsupported _ _

theorem making_truth (i : Instruction) (want : Bool) (hw : Held fn ps b F w) :
    MakingAt fn ps b site F (truth i w want) fun F' v ↦ Readable fn ps F' b v := by
  unfold truth
  dsimp only
  split
  · refine MakingAt.bind (.lift (making_intConst _ _)) fun F₁ z hF₁ hz ↦ .lift ?_
    exact making_emit (.icmp _ _ _ _) (ready_two (hw.mono hF₁) hz)
  · refine MakingAt.bind (.lift (making_constant (.null _))) fun F₁ z hF₁ hz ↦ .lift ?_
    exact making_emit (.icmp _ _ _ _) (ready_two (hw.mono hF₁) hz)
  · refine MakingAt.bind (.lift (making_constant (.double _ _))) fun F₁ z hF₁ hz ↦ .lift ?_
    exact making_emit (.fcmp _ _ _ _) (ready_two (hw.mono hF₁) hz)
  · refine MakingAt.bind (.lift (making_constant (.double _ _))) fun F₁ z hF₁ hz ↦ .lift ?_
    exact making_emit (.fcmp _ _ _ _) (ready_two (hw.mono hF₁) hz)
  · exact making_unsupported _ _

theorem making_blockAt (o : Nat) : MakingAt fn ps b site F (blockAt o) fun _ _ ↦ True :=
  .read_bind fun _ _ _ ↦ MakingAt.bind (R := fun _ _ ↦ True) (fun _ _ ↦ .of_same fun s u t s' u' h ↦ by
    obtain ⟨-, rfl, rfl⟩ := Lowers.getThe_iff.mp h
    exact ⟨rfl, rfl, rfl, rfl, trivial⟩) fun _ _ _ _ ↦ .pure trivial

theorem making_branchOn (start : Nat) (i : Instruction) (hv : Readable fn ps F b v) :
    MakingAt fn ps b site F (branchOn start i v) fun _ _ ↦ True := by
  refine (making_flush start _).bind fun F₁ _ hF₁ _ ↦ (making_blockAt _).bind fun F₂ x hF₂ _ ↦ ?_
  refine (making_blockAt _).bind fun F₃ y hF₃ _ ↦ ?_
  refine MakingAt.bind (.lift (making_emit (.condbr _ _ _) (ready_one (((hv.mono hF₁).mono hF₂).mono hF₃))))
    fun _ _ _ _ ↦ ?_
  exact .pure trivial

theorem making_returnFrom (start : Nat) : MakingAt fn ps b site F (returnFrom start) fun _ _ ↦ True := by
  refine .read_bind fun _ _ _ ↦ ?_
  dsimp only
  split
  · refine (making_flush start _).bind fun F₁ _ _ _ ↦ ?_
    exact MakingAt.bind (.lift (making_emit .retVoid ready_nil)) fun _ _ _ _ ↦ .pure trivial
  · refine (making_pop _).bind fun F₁ v _ hv ↦ (making_flush start _).bind fun F₂ _ hF₂ _ ↦ ?_
    exact MakingAt.bind (.lift (making_emit (.ret _) (ready_one (hv.mono hF₂)))) fun _ _ _ _ ↦ .pure trivial

theorem making_convertTop (t : Ty) : MakingAt fn ps b site F (convertTop t) fun _ _ ↦ True := by
  refine (making_popRaw none).bind fun F₁ v _ hv ↦ ?_
  split
  · exact (making_counterpart t).bind fun F₂ c hF₂ _ ↦ making_pushed (making_convertValue t c (hv.mono hF₂))
  · exact (making_convert t hv).bind fun F₂ x _ hx ↦ .lift (making_push hx)

theorem making_convertTopUnsigned : MakingAt fn ps b site F convertTopUnsigned fun _ _ ↦ True := by
  refine (making_popRaw none).bind fun F₁ v _ hv ↦ MakingAt.bind (.lift (making_deref hv)) fun F₂ x _ hx ↦ ?_
  split
  · exact making_pushed (.lift (making_castTo _ hx))
  · exact (making_convert _ hx).bind fun F₃ y _ hy ↦ .lift (making_push hy)

theorem making_loadObject (t : Ty) : MakingAt fn ps b site F (loadObject t) fun _ _ ↦ True := by
  refine (making_popRaw _).bind fun F₁ v _ hv ↦ (making_address t hv).bind fun F₂ p _ hp ↦ ?_
  exact making_pushed (.lift (making_load hp))

theorem making_storeObject (t : Ty) : MakingAt fn ps b site F (storeObject t) fun _ _ ↦ True := by
  refine MakingAt.bind (.lift making_settle) fun F₁ _ _ _ ↦ (making_pop t).bind fun F₂ v _ hv ↦ ?_
  refine (making_popRaw _).bind fun F₃ w hF₃ hw ↦ (making_address t hw).bind fun F₄ p hF₄ hp ↦ ?_
  exact .lift (making_store ((hv.mono hF₃).mono hF₄) hp)

theorem MakingAt.stage_bind {f : Nat → Lower β} (h : MakingAt fn ps b site F (f b) S) :
    MakingAt fn ps b site F (do f (← getThe Stage).block) S := by
  intro he hB s u x s' u' h' hs hF hsturdy
  obtain ⟨_, _, _, hget, h'⟩ := Lowers.bind_iff.mp h'
  obtain ⟨rfl, rfl, rfl⟩ := Lowers.getThe_iff.mp hget
  rw [hs.block] at h'
  exact h he hB _ _ _ _ _ h' hs hF hsturdy

theorem making_clearObject (t : Ty) : MakingAt fn ps b site F (clearObject t) fun _ _ ↦ True := by
  refine MakingAt.bind (.lift making_settle) fun F₁ _ _ _ ↦ (making_popRaw _).bind fun F₂ v _ hv ↦ ?_
  refine (making_address t hv).bind fun F₃ p _ hp ↦ (making_operandSize t).bind fun F₄ n hF₄ _ ↦ ?_
  exact .stage_bind (f := fun k ↦ liftM (clearAt k p n)) (.lift (making_clearAt n (hp.mono hF₄)))

theorem making_resolve {γ : Type} {ask : Resolver → Except ResolutionError γ × Resolver × List Resolver.Attempt} :
    MakingAt fn ps b site F (resolve ask : Lower γ) fun _ _ ↦ True := .compile (leaves_resolve ask)

theorem making_typeOperand (i : Instruction) : MakingAt fn ps b site F (typeOperand i) fun _ _ ↦ True :=
  .read_bind fun _ _ _ ↦ making_resolve

theorem making_methodOperand (i : Instruction) : MakingAt fn ps b site F (methodOperand i) fun _ _ ↦ True := by
  refine .read_bind fun _ _ _ ↦ making_resolve.bind fun F₁ id _ _ ↦ ?_
  split
  · exact .pure trivial
  · exact .throw

theorem making_fieldOperand (i : Instruction) : MakingAt fn ps b site F (fieldOperand i) fun _ _ ↦ True := by
  refine .read_bind fun _ _ _ ↦ making_resolve.bind fun F₁ f _ _ ↦ ?_
  dsimp only
  split
  · exact MakingAt.bind (R := fun _ _ ↦ False) (making_unsupported _ _) fun _ _ _ h ↦ h.elim
  · refine (making_counterpart _).bind fun F₂ _ _ _ ↦ ?_
    split
    · exact .pure trivial
    · exact .throw

theorem making_fieldPointer (f : Field) (index : Nat) :
    MakingAt fn ps b site F (fieldPointer f index) fun F' v ↦ Readable fn ps F' b v := by
  refine (making_popRaw _).bind fun F₁ v _ hv ↦ (making_address _ hv).bind fun F₂ p _ hp ↦ ?_
  refine MakingAt.bind (.compile leaves_get) fun F₃ u hF₃ _ ↦ .lift ?_
  exact making_emit (.gep _ _ _ _) (ready_one (hp.mono hF₃))

theorem making_callArguments (m : Method) :
    MakingAt fn ps b site F (callArguments m) fun F' vs ↦ ∀ v ∈ vs, Readable fn ps F' b v := by
  unfold callArguments
  refine MakingAt.bind (MakingAt.mapM (S := fun F' v ↦ Readable fn ps F' b v) (fun hF' hv ↦ hv.mono hF')
    fun F' p _ _ ↦ ?_) fun F₁ vs _ hvs ↦ .pure fun v hv ↦ hvs v (List.mem_reverse.mp hv)
  exact (making_lowerWithin (making_pop _)).bind fun F₂ v _ hv ↦ .pure hv

theorem making_newObject (i : Instruction) : MakingAt fn ps b site F (newObject i) fun _ _ ↦ True := by
  refine (making_methodOperand i).bind fun F₁ m _ _ ↦ ?_
  have hrest : MakingAt fn ps b site F₁ (do
      let t := m.owner.getD .missing
      settle
      let f ← (← read).compile m
      let code ← counterpart t
      let size ← sizeOf code
      let args ← callArguments m
      let object ← slotFor code "new"
      clearAt (← getThe Stage).block object size
      let _ ← emitCall f (object :: args)
      push ⟨.byref t, object, false⟩) fun _ _ ↦ True := by
    refine MakingAt.bind (.lift making_settle) fun F₂ _ _ _ ↦ .read_bind fun hcompiles _ _ ↦ ?_
    refine MakingAt.bind (.compile (hcompiles m)) fun F₃ f _ _ ↦ (making_counterpart _).bind fun F₄ c _ _ ↦ ?_
    refine MakingAt.bind (.compile (leaves_sizeOf c)) fun F₅ n _ _ ↦ (making_callArguments m).bind fun F₆ vs _ hvs ↦ ?_
    refine MakingAt.bind (.lift (making_slotFor c "new")) fun F₇ object hF₇ hobject ↦ ?_
    refine .stage_bind (f := fun k ↦ do
      clearAt k object n
      let _ ← emitCall f (object :: vs)
      push ⟨.byref (m.owner.getD .missing), object, false⟩) ?_
    refine MakingAt.bind (.lift (making_clearAt n hobject)) fun F₈ _ hF₈ _ ↦ ?_
    have hargs : ∀ v ∈ object :: vs, Readable fn ps F₈ b v :=
      List.forall_mem_cons.mpr ⟨hobject.mono hF₈, fun v hv ↦ ((hvs v hv).mono hF₇).mono hF₈⟩
    refine MakingAt.bind (.lift (making_emitCall f hargs)) fun F₉ _ hF₉ _ ↦ ?_
    exact .lift (making_push ((hobject.mono hF₈).mono hF₉))
  dsimp only
  split
  · exact MakingAt.bind (R := fun _ _ ↦ False) .throw fun _ _ _ h ↦ h.elim
  · exact hrest

theorem making_call (i : Instruction) : MakingAt fn ps b site F (call i) fun _ _ ↦ True := by
  refine (making_methodOperand i).bind fun F₁ m _ _ ↦ MakingAt.bind (.lift making_settle) fun F₂ _ _ _ ↦ ?_
  refine .read_bind fun hcompiles _ _ ↦ MakingAt.bind (.compile (hcompiles m)) fun F₃ f _ _ ↦ ?_
  refine (making_callArguments m).bind fun F₄ vs _ hvs ↦ ?_
  have hrest : ∀ F' receiver, Outgrows F₄ F' → (∀ v ∈ receiver, Readable fn ps F' b v) → MakingAt fn ps b site F' (do
      let r ← emitCall f (receiver ++ vs)
      if !m.returnType.isVoid then push ⟨m.returnType, r, false⟩) fun _ _ ↦ True := by
    intro F' receiver hF' hreceiver
    have hargs : ∀ v ∈ receiver ++ vs, Readable fn ps F' b v :=
      List.forall_mem_append.mpr ⟨hreceiver, fun v hv ↦ (hvs v hv).mono hF'⟩
    refine MakingAt.bind (.lift (making_emitCall f hargs)) fun F₆ r _ hr ↦ ?_
    split
    · exact .lift (making_push hr)
    · exact .pure trivial
  dsimp only
  split
  · refine (making_popRaw _).bind fun F₅ w hF₅ hw ↦ (making_lowerWithin (making_address _ hw)).bind fun F₆ p hF₆ hp ↦ ?_
    exact hrest F₆ [p] (hF₅.trans hF₆) (List.forall_mem_singleton.mpr hp)
  · exact hrest F₄ [] (.refl _) nofun

theorem making_lower (start : Nat) (i : Instruction) : MakingAt fn ps b site F (lower start i) fun _ _ ↦ True := by
  unfold lower
  cases action i with
  | nothing => exact .pure trivial
  | loadArg n => exact (making_argument n).bind fun _ a _ ha ↦ .lift (making_push ha)
  | argAddress n =>
    refine (making_argument n).bind fun _ a _ ha ↦ ?_
    split
    · exact .lift (making_push ha)
    · exact making_unsupported _ _
  | storeArg n =>
    refine (making_argument n).bind fun _ a _ ha ↦ ?_
    split
    · exact making_storeSlot ha
    · exact making_unsupported _ _
  | loadLocal n => exact (making_localSlot n).bind fun _ a _ ha ↦ .lift (making_push ha)
  | localAddress n => exact (making_localSlot n).bind fun _ a _ ha ↦ .lift (making_push ha)
  | storeLocal n => exact (making_localSlot n).bind fun _ a _ ha ↦ making_storeSlot ha
  | int32 n => exact making_pushed (.lift (making_intConst _ _))
  | int64 n => exact making_pushed (.lift (making_intConst _ _))
  | float32 d => exact making_pushed (.lift (making_constant (.double _ _)))
  | float64 d => exact making_pushed (.lift (making_constant (.double _ _)))
  | dup =>
    refine (making_popRaw none).bind fun _ v _ hv ↦ MakingAt.bind (.lift (making_push hv)) fun _ _ hF₂ _ ↦ ?_
    exact .lift (making_push (hv.mono hF₂))
  | pop => exact (making_popRaw none).bind fun _ _ _ _ ↦ .pure trivial
  | arith op => exact making_arith i op
  | compare c =>
    refine (making_compare i c).bind fun _ x _ hx ↦ MakingAt.bind (.lift (making_intConst _ _)) fun _ one hF₂ hone ↦ ?_
    refine MakingAt.bind (.lift (making_intConst _ _)) fun _ zero hF₃ hzero ↦ making_pushed (.lift ?_)
    refine making_emit (.select _ _ _ _) ?_
    rintro _ (_ | ⟨_, _ | ⟨_, _ | ⟨_, ⟨⟩⟩⟩⟩)
    · exact ⟨x, rfl, (hx.mono hF₂).mono hF₃⟩
    · exact ⟨one, rfl, hone.mono hF₃⟩
    · exact ⟨zero, rfl, hzero⟩
  | convert p => exact making_convertTop _
  | convertUnsigned => exact making_convertTopUnsigned
  | loadThrough p => exact making_loadObject _
  | storeThrough p => exact making_storeObject _
  | loadObject => exact (making_typeOperand i).bind fun _ t _ _ ↦ making_loadObject t
  | storeObject => exact (making_typeOperand i).bind fun _ t _ _ ↦ making_storeObject t
  | sizeOf =>
    refine (making_typeOperand i).bind fun _ t _ _ ↦ (making_operandSize t).bind fun _ n _ _ ↦ ?_
    exact making_pushed (.lift (making_intConst _ _))
  | initObject => exact (making_typeOperand i).bind fun _ t _ _ ↦ making_clearObject t
  | loadField =>
    refine (making_fieldOperand i).bind fun _ f _ _ ↦ (making_fieldPointer _ _).bind fun _ p _ hp ↦ ?_
    exact making_pushed (.lift (making_load hp))
  | fieldAddress => exact (making_fieldOperand i).bind fun _ f _ _ ↦ making_pushed (making_fieldPointer _ _)
  | storeField =>
    refine (making_fieldOperand i).bind fun _ f _ _ ↦ MakingAt.bind (.lift making_settle) fun _ _ _ _ ↦ ?_
    refine (making_pop _).bind fun _ v _ hv ↦ (making_fieldPointer _ _).bind fun _ p hF₄ hp ↦ ?_
    exact .lift (making_store (hv.mono hF₄) hp)
  | newObject => exact making_newObject i
  | call => exact making_call i
  | ret => exact making_returnFrom start
  | jump =>
    refine (making_flush start _).bind fun _ _ _ _ ↦ (making_blockAt _).bind fun _ x _ _ ↦ ?_
    exact MakingAt.bind (.lift (making_emit (.br _) ready_nil)) fun _ _ _ _ ↦ .pure trivial
  | jumpIf want =>
    refine (making_popRaw none).bind fun _ v _ hv ↦ MakingAt.bind (.lift (making_deref hv)) fun _ x _ hx ↦ ?_
    exact (making_truth i want hx).bind fun _ y _ hy ↦ making_branchOn start i hy
  | jumpCompare c => exact (making_compare i c).bind fun _ x _ hx ↦ making_branchOn start i hx
  | unsupported => exact making_unsupported _ _

end

/-! ### Whole bodies -/

section

variable {fn : FuncId} {ps : List Ssa.Ty} {site : Site} {F F' : Function} {s s' : Stage} {u u' : CompilationUnit}

theorem making_lines {number : Nat} {sp : Bytecode.Span} : MakingAt fn ps number site F (do
    sp.instrs.forM fun i ↦ during i (lower sp.start i)
    match sp.fallsThrough, sp.instrs.getLast? with
    | true, some last =>
      during last (flush sp.start [sp.stop])
      let _ ← emit (.br (some (← blockAt sp.stop)))
    | _, _ => pure ()
    settleEntry sp.start) fun _ _ ↦ True := by
  refine MakingAt.bind (R := fun _ _ ↦ True) (.forM fun _ i _ _ ↦ making_during (making_lower _ i)) fun F₁ _ _ _ ↦ ?_
  split
  · refine MakingAt.bind (making_during (making_flush _ _)) fun F₂ _ _ _ ↦ (making_blockAt _).bind fun F₃ _ _ _ ↦ ?_
    refine MakingAt.bind (.lift (making_emit (.br _) ready_nil)) fun F₄ _ _ _ ↦ .lift (making_settleEntry _)
  · exact .lift (making_settleEntry _)

theorem making_lowerTraced {number : Nat} {sp : Bytecode.Span} {x : Unit}
    (he : Lowers (lowerTraced number sp) site s u x s' u')
    (hfn : s.fn = fn) (hF : Houses fn F u) (hsturdy : Sturdy fn ps F) (hsite : Equipped fn ps site F)
    (hB : ∃ B, F.blocks[number]? = some B) (hfirst : ∃ B, F.blocks[0]? = some B) :
    s'.fn = fn ∧ ∃ F', Outgrows F F' ∧ Houses fn F' u' ∧ Sturdy fn ps F' := by
  obtain ⟨t, _, t', hblock, rfl⟩ := lowerBlock_of_traced he
  unfold lowerBlock at hblock
  obtain ⟨_, _, _, hopen, hline⟩ := Lowers.bind_iff.mp hblock
  obtain ⟨rfl, rfl⟩ := Lowers.modifyThe_iff.mp hopen
  obtain ⟨F', hgrew, hs', hF', hsturdy', -⟩ :=
    making_lines hsite hB _ _ _ _ _ hline ⟨hfn, rfl, nofun, hB, hfirst⟩ (hF.of_functions rfl rfl) hsturdy
  exact ⟨hs'.own, F', hgrew, hF'.of_functions rfl rfl, hsturdy'⟩

theorem making_lowerBlocks {spans : List Bytecode.Span} {k : Nat} {x : PUnit}
    (he : Emits ((spans.zipIdx k).forM fun p ↦ lowerTraced (p.2 + 1) p.1 site) s u x s' u') (hfn : s.fn = fn)
    (hF : Houses fn F u) (hsturdy : Sturdy fn ps F) (hsite : Equipped fn ps site F)
    (hblocks : ∀ j ≤ k + spans.length, ∃ B, F.blocks[j]? = some B) :
    s'.fn = fn ∧ ∃ F', Outgrows F F' ∧ Houses fn F' u' ∧ Sturdy fn ps F' := by
  induction spans generalizing k s u F with
  | nil =>
    obtain ⟨-, rfl, rfl⟩ := Emits.pure_iff.mp he
    exact ⟨hfn, F, .refl F, hF, hsturdy⟩
  | cons sp spans ih =>
    rw [List.zipIdx_cons, List.forM] at he
    obtain ⟨_, s₁, u₁, he₁, he₂⟩ := Emits.bind_iff.mp he
    rw [List.length_cons] at hblocks
    obtain ⟨hfn₁, F₁, hgrew₁, hF₁, hsturdy₁⟩ :=
      making_lowerTraced he₁ hfn hF hsturdy hsite (hblocks (k + 1) (by omega)) (hblocks 0 (by omega))
    obtain ⟨hfn₂, F₂, hgrew₂, hF₂, hsturdy₂⟩ := ih he₂ hfn₁ hF₁ hsturdy₁ (hsite.outgrows hgrew₁) fun j hj ↦ by
      obtain ⟨B, hB⟩ := hblocks j (by omega)
      exact (hgrew₁.block hB).imp' _ fun _ ↦ id
    exact ⟨hfn₂, F₂, hgrew₁.trans hgrew₂, hF₂, hsturdy₂⟩

theorem making_makeBuffer (n : Int) : Making fn ps 0 F (makeBuffer n) fun F' p ↦ Readable fn ps F' 0 p := by
  refine (making_intConst _ _).bind fun F₁ k _ hk ↦ ?_
  refine (making_emitAt (.arrayAlloca _ _ _) (.inl rfl) (ready_one hk)).bind fun F₂ buffer _ hbuffer ↦ ?_
  refine (making_slotFor _ _).bind fun F₃ top hF₃ htop ↦ ?_
  refine (making_emitAt (.store _ _) (.inl rfl) (ready_two (hbuffer.mono hF₃) htop)).bind fun F₄ _ hF₄ _ ↦ ?_
  exact .pure (htop.mono hF₄)

theorem making_bindArgument {f : Function} (hid : f.id = fn) (hps : f.paramTypes = ps) (t : Ty) {i : Nat}
    (hi : i < ps.length) : Making fn ps 0 F (bindArgument f t i) (Held fn ps 0) := by
  intro s u w s' u' he hs hF hsturdy
  have hp : Readable fn ps F 0 (f.param i) := by
    obtain ⟨B, hB⟩ := hs.first
    refine ⟨B, hB, hid, ?_⟩
    rw [hps, List.getD_eq_getElem?_getD, List.getElem?_eq_getElem hi]
    rfl
  have hbind : Making fn ps 0 F (bindArgument f t i) (Held fn ps 0) := by
    unfold bindArgument
    dsimp only
    split
    · exact .pure hp
    refine (making_slotFor _ _).bind fun F₁ slot hF₁ hslot ↦ ?_
    refine (making_emitAt (.store _ _) (.inl rfl) (ready_two (hp.mono hF₁) hslot)).bind fun F₂ _ hF₂ _ ↦ ?_
    exact .pure (hslot.mono hF₂)
  exact hbind _ _ _ _ _ he hs hF hsturdy

theorem making_bindLocal (world : Universe) (t : Ty) (i : Nat) :
    Making fn ps 0 F (bindLocal world t i) (Held fn ps 0) := by
  unfold bindLocal
  refine Making.bind (.lift fun G ↦ Spec.adapt ?_) fun F₁ c _ _ ↦ ?_
  · split
    · exact (leaves_codeType t.elem G).bind fun _ ↦ .pure fun _ hu ↦ hu
    · exact leaves_codeType t G
  refine Making.bind (.lift fun G ↦ Spec.adapt (leaves_sizeOf c G)) fun F₂ n _ _ ↦ ?_
  refine (making_slotFor _ _).bind fun F₃ slot _ hslot ↦ (making_clearAt n hslot).bind fun F₄ _ hF₄ _ ↦ ?_
  exact .pure (hslot.mono hF₄)

theorem making_prepare {world : Universe} {compile : Method → Compile FuncId} (hcompile : ∀ m, Leaves fn (compile m))
    (m : Method) (body : Body) {args : List Ty} {f : Function} (hid : f.id = fn) (hps : f.paramTypes = ps)
    (hargs : args.length = ps.length) (spans : List Bytecode.Span) :
    Making fn ps 0 F (prepare world compile m body args f spans) fun F' site ↦ site.spans = spans ∧
    Equipped fn ps site F' := by
  refine (making_makeBuffer _).bind fun F₁ top _ htop ↦ ?_
  refine (Making.mapM (S := Held fn ps 0) (fun hF h ↦ h.mono hF) fun F' p hp _ ↦ ?_).bind fun F₂ vs hF₂ hvs ↦ ?_
  · exact making_bindArgument hid hps _ (hargs ▸ (List.mem_zipIdx' hp).1)
  refine (Making.mapM (S := Held fn ps 0) (fun hF h ↦ h.mono hF) fun F' p _ _ ↦ making_bindLocal world _ _).bind
    fun F₃ ws hF₃ hws ↦ .pure ⟨rfl, hcompile, ?_, (htop.mono hF₂).mono hF₃⟩
  exact List.forall_mem_append.mpr ⟨fun v hv ↦ (hvs v hv).mono hF₃, hws⟩

theorem addBlock_params (F : Function) (name : String) : (F.addBlock name).1.paramTypes = F.paramTypes := by
  rw [Function.paramTypes, (addBlock_grown F name).1.signature, Function.paramTypes]

theorem Sturdy.of_blank (hb : F.Built) (hps : F.paramTypes = ps) (hblank : Blank F) : Sturdy fn ps F := by
  refine ⟨hb, hps, fun b B pre k post i o hB hlist ↦ ?_⟩
  rw [hblank.blocks b B hB] at hlist
  simp at hlist

/-- Lowering a body gives a function that the builder has made, each operand before what reads it. -/
theorem lowerBody_sturdy {world : Universe} {compile : Method → Compile FuncId} {m : Method} {body : Body}
    {args : List Ty} {f : Function} {count : Nat} (hcompile : ∀ m, Leaves f.id (compile m))
    (hF : Houses f.id f u) (hb : f.Built) (hblank : Blank f) (hargs : args.length = f.paramTypes.length)
    (hc : Compiles (lowerBody world compile m body args f) u count u') :
    ∃ F, Houses f.id F u' ∧ Sturdy f.id f.paramTypes F := by
  obtain ⟨spans, u₀, site, s, u₁, s', u₂, v, s'', -, hblocks, hprepare, hlower, hbranch⟩ := lowerBody_inv hc
  obtain ⟨F₀, hF₀, hsize, hkept⟩ := addBlocks_houses hF hblocks
  rw [List.length_cons, List.length_map] at hsize
  have hsturdy₀ : Sturdy f.id f.paramTypes F₀ := by
    obtain ⟨hb₀, hps, hblank₀⟩ := hkept (fun G ↦ G.Built ∧ G.paramTypes = f.paramTypes ∧ Blank G)
      (fun G name h ↦ ⟨.block name h.1, (addBlock_params G name).trans h.2.1, h.2.2.addBlock name⟩) ⟨hb, rfl, hblank⟩
    exact .of_blank hb₀ hps hblank₀
  have hblock : ∀ j ≤ spans.length, ∃ B, F₀.blocks[j]? = some B := fun j hj ↦
    ⟨_, Array.getElem?_eq_getElem (by omega)⟩
  obtain ⟨F₁, hgrew₁, hs, hF₁, hsturdy₁, rfl, hsite⟩ := making_prepare hcompile m body rfl rfl hargs
    spans _ _ _ _ _ hprepare ⟨rfl, rfl, nofun, hblock 0 (by omega), hblock 0 (by omega)⟩ hF₀ hsturdy₀
  obtain ⟨hfn, F₂, hgrew₂, hF₂, hsturdy₂⟩ := making_lowerBlocks hlower hs.own hF₁ hsturdy₁ hsite fun j hj ↦ by
    obtain ⟨B, hB⟩ := hblock j (by omega)
    exact (hgrew₁.block hB).imp' _ fun _ ↦ id
  obtain ⟨B, hB⟩ := hblock 0 (by omega)
  obtain ⟨ks, hB'⟩ := (hgrew₁.trans hgrew₂).block hB
  rw [← hfn] at hF₂
  obtain ⟨-, -, hF'⟩ := emitAt_inv hbranch hF₂
  rw [hfn] at hF'
  exact ⟨_, hF', hsturdy₂.append (hF₂.id_eq.trans hfn) hB' (.br _) ready_nil⟩

end

end CilSsa.Lowering

