import CilSsa.Proofs.BlockExchanges
import CilSsa.Proofs.TypedSteps
import CilSsa.Proofs.Verification

namespace CilSsa.Ssa

/-- The instruction ends a block of a function `fn` that gives values of type `ret`. -/
structure Instr.Closes (fn : FuncId) (ret : Ty) (i : Instr) : Prop where
  ends : i.op.isTerminator = true
  rules : ∀ (m : Module) (F : Function), F.ret = ret → m.checkInstr F i = []
  values : ∀ v, some v ∈ i.operands → v.type.hasValue = true
  targets : ∀ t ∈ i.targets, t.map (·.fn) = some fn

section

variable {fn : FuncId} {ret : Ty} {v : Value} {a b : BlockId}

theorem closes_br (ha : a.fn = fn) : (Instr.br (some a)).Closes fn ret := by
  refine ⟨rfl, fun m F _ ↦ rfl, fun v hv ↦ absurd hv List.not_mem_nil, fun t ht ↦ ?_⟩
  obtain rfl := List.mem_singleton.mp ht
  exact congrArg some ha

theorem closes_condbr (hv : v.type = .i1) (ha : a.fn = fn) (hb : b.fn = fn) :
    (Instr.condbr (some v) (some a) (some b)).Closes fn ret := by
  refine ⟨rfl, fun m F _ ↦ ?_, values_one (by rw [hv]; rfl), fun t ht ↦ ?_⟩
  · have hcond : ∀ check : List Ty → List Violation, check [v.type] = [] →
        Module.checkOperands 1 (.condbr (some v) (some a) (some b)) check = [] := fun check h ↦ checkOperands_one rfl h
    exact hcond _ (by simp [hv, when])
  · rcases List.mem_pair.mp ht with rfl | rfl
    · exact congrArg some ha
    · exact congrArg some hb

theorem closes_retVoid (hret : ret = .void) : Instr.retVoid.Closes fn ret := by
  refine ⟨rfl, fun m F hF ↦ ?_, fun v hv ↦ absurd hv List.not_mem_nil, fun t ht ↦ absurd ht List.not_mem_nil⟩
  simp [Module.checkInstr, Module.checkReturn, Instr.retVoid, hF, hret]

theorem closes_ret (hv : v.type = ret) (hvalue : ret.hasValue = true) : (Instr.ret (some v)).Closes fn ret := by
  have hne : ret ≠ .void := by
    rintro rfl
    cases hvalue
  refine ⟨rfl, fun m F hF ↦ ?_, values_one (hv ▸ hvalue), fun t ht ↦ absurd ht List.not_mem_nil⟩
  simp [Module.checkInstr, Module.checkReturn, Instr.ret, hF, hne, hv, when]

end

end CilSsa.Ssa

namespace CilSsa.Lowering

open CilSsa.Bytecode CilSsa.Metadata
open CilSsa.Ssa (BlockId Const FuncId Function Instr Module Value)

/-- In the unit `u'` block `b` of function `fn` got instructions that keep the rules, and then its end. -/
structure Terminated (world : Universe) (fn : FuncId) (b : Nat) (ret : Ssa.Ty) (u : CompilationUnit) (F : Function)
    (u' : CompilationUnit) (F' : Function) : Prop where
  kept : Sound world u'
  grown : Extended u u'
  code : ∃ F₁ t, Collects u'.module.Fitting b F F₁ ∧ t.Closes fn ret ∧ F' = (F₁.append b t).1

/-- Lowering from the unit `u` that ends block `b`, unless the function becomes hollow. -/
def ClosingAt (site : Site) (fn : FuncId) (b : Nat) (ret : Ssa.Ty) {α : Type} (u : CompilationUnit)
    (c : Lower α) : Prop :=
  site.Supplied u → ∀ s a s' u' F, Lowers c site s u a s' u' → Laden fn b u s → Houses fn F u → Sound site.world u →
    s'.fn = fn ∧ ∃ F', Houses fn F' u' ∧ (F'.isHollow = true ∨ Terminated site.world fn b ret u F u' F')

section

variable {α β : Type} {site : Site} {fn : FuncId} {b : Nat} {ret : Ssa.Ty} {F F' : Function} {u u₁ u' : CompilationUnit}
  {R : α → CompilationUnit → Prop} {v : Value} {t : Instr} {i : Instruction}

theorem Terminated.after (hgain : Gained (Sound site.world) fn b u F u₁ F₁)
    (h : Terminated site.world fn b ret u₁ F₁ u' F') : Terminated site.world fn b ret u F u' F' := by
  obtain ⟨F₂, t, hcode, ht, hF'⟩ := h.code
  exact ⟨h.kept, hgain.grown.trans h.grown, F₂, t, (hgain.code.mono fun _ hi ↦ hi.mono h.grown.module).trans hcode, ht,
    hF'⟩

theorem RiskingAt.closing_bind {c : Lower α} {f : α → Lower β} (hc : RiskingAt site fn b u c R)
    (hgrow : ∀ F [Supports (Lengthened fn F) (fun _ ↦ True) site] a,
    SafeAt (Lengthened fn F) (fun _ ↦ True) fn site (f a))
    (hf : ∀ a u₁, Extended u u₁ → R a u₁ → ClosingAt site fn b ret u₁ (f a)) : ClosingAt site fn b ret u (c >>= f) := by
  intro hsite s a s' u' F he hs hF hu
  obtain ⟨a₁, s₁, u₁, h₁, h₂⟩ := Lowers.bind_iff.mp he
  obtain ⟨hfn₁, F₁, hF₁, hhollow | ⟨hs₁, hR, hgain⟩⟩ := hc hsite _ _ _ _ F h₁ hs hF hu
  · have := hsite.supports fn F₁
    obtain ⟨hfn, F', hF', hhollow'⟩ := hollow_of_safe hF₁ hhollow hfn₁ (hgrow F₁ a₁) h₂
    exact ⟨hfn, F', hF', .inl hhollow'⟩
  · obtain ⟨hfn, F', hF', h⟩ := hf a₁ u₁ hgain.grown hR (hsite.mono hgain.grown) _ _ _ _ F₁ h₂ hs₁
      hgain.houses hgain.kept
    exact ⟨hfn, F', hF', h.imp_right fun h ↦ h.after hgain⟩

theorem MindingAt.closing_bind {c : Lower α} {f : α → Lower β} (hc : MindingAt site fn b u c R)
    (hf : ∀ a u₁, Extended u u₁ → R a u₁ → ClosingAt site fn b ret u₁ (f a)) : ClosingAt site fn b ret u (c >>= f) := by
  intro hsite s a s' u' F he hs hF hu
  obtain ⟨a₁, s₁, u₁, h₁, h₂⟩ := Lowers.bind_iff.mp he
  obtain ⟨hs₁, hR, F₁, hgain⟩ := hc hsite _ _ _ _ F h₁ hs hF hu
  obtain ⟨hfn, F', hF', h⟩ := hf a₁ u₁ hgain.grown hR (hsite.mono hgain.grown) _ _ _ _ F₁ h₂ hs₁ hgain.houses hgain.kept
  exact ⟨hfn, F', hF', h.imp_right fun h ↦ h.after hgain⟩

theorem ClosingAt.then {c : Lower α} {f : α → Lower β} (hc : ClosingAt site fn b ret u c)
    (hf : ∀ a s u b s' u', Lowers (f a) site s u b s' u' → s'.fn = s.fn ∧ u' = u) : ClosingAt site fn b ret
    u (c >>= f) := by
  intro hsite s a s' u' F he hs hF hu
  obtain ⟨a₁, s₁, u₁, h₁, h₂⟩ := Lowers.bind_iff.mp he
  obtain ⟨hfn, rfl⟩ := hf _ _ _ _ _ _ h₂
  obtain ⟨hfn₁, h⟩ := hc hsite _ _ _ _ F h₁ hs hF hu
  exact ⟨hfn.trans hfn₁, h⟩

theorem ClosingAt.read_bind {f : Site → Lower β} (h : ClosingAt site fn b ret u (f site)) :
    ClosingAt site fn b ret u (read >>= f) := h

theorem closing_unsupported (reason : String) : ClosingAt site fn b ret u (unsupported i reason : Lower α) := by
  intro _ s a s' u' F he
  cases he

theorem closing_emit (ht : t.Closes fn ret) : ClosingAt site fn b ret u (emit t : Lower Value) := by
  intro hsite s a s' u' F he hs hF hu
  obtain ⟨_, _, _, hget, he⟩ := Emits.bind_iff.mp (Lowers.emit_iff.mp he)
  obtain ⟨rfl, rfl, rfl⟩ := Emits.get_iff.mp hget
  rw [hs.block] at he
  have hown := hs.own
  subst hown
  have hkept : Safe (Sound site.world) Provisioned s.fn (emitAt b t) := by
    have := (lasting_sound site.world).growable s.fn
    exact Growable.safe_emitAt b t
  have hsince : Safe (TypedSince site.world u fun _ ↦ False) (fun _ ↦ True) s.fn (emitAt b t) :=
    Growable.safe_emitAt b t
  obtain ⟨-, hu'⟩ := (hkept s rfl u hu).1 _ _ he
  obtain ⟨-, hgrown⟩ := (hsince s rfl u (.start hu.typed)).1 _ _ he
  obtain ⟨rfl, -, hF'⟩ := emitAt_inv he hF
  exact ⟨rfl, _, hF', .inr ⟨hu', hgrown.grown, F, t, .refl, ht, rfl⟩⟩

theorem still_pure {a : α} {s s' : Stage} {b : α} (he : Lowers (pure a) site s u b s' u') : s'.fn = s.fn ∧ u' = u := by
  obtain ⟨-, rfl, rfl⟩ := Lowers.pure_iff.mp he
  exact ⟨rfl, rfl⟩

theorem closing_branchOn (start : Nat) (hv : v.type = .i1) : ClosingAt site fn b ret u (branchOn start i v) := by
  refine (minding_flush start _).closing_bind fun _ u₁ _ _ ↦ (minding_blockAt _).closing_bind fun x u₂ _ hx ↦ ?_
  refine (minding_blockAt _).closing_bind fun y u₃ _ hy ↦ ClosingAt.then (closing_emit (Ssa.closes_condbr hv hx hy)) ?_
  exact fun _ _ _ _ _ _ ↦ still_pure

theorem closing_returnFrom (start : Nat) (hret : Means u site.method.returnType ret) :
    ClosingAt site fn b ret u (returnFrom start) := by
  refine .read_bind ?_
  dsimp only
  split
  · rename_i hvoid
    refine (minding_flush start _).closing_bind fun _ u₁ _ _ ↦
    ClosingAt.then (closing_emit (Ssa.closes_retVoid (hret.of_void hvoid))) ?_
    exact fun _ _ _ _ _ _ ↦ still_pure
  · rename_i hvalue
    rw [Bool.not_eq_true] at hvalue
    refine (minding_pop _).closing_bind fun w u₁ hg hw ↦ (minding_flush start _).closing_bind fun _ u₂ _ _ ↦ ?_
    have htype : w.value.type = ret := (hw.yields.stands hvalue).eq_of_means hvalue (hret.mono hg)
    refine ClosingAt.then (closing_emit (Ssa.closes_ret htype (hret.hasValue hvalue))) ?_
    exact fun _ _ _ _ _ _ ↦ still_pure

theorem closing_lower (start : Nat) (hends : i.endsBlock = true) (hret : Means u site.method.returnType ret) :
    ClosingAt site fn b ret u (lower start i) := by
  unfold lower
  rcases action_ends hends with hi | hi | ⟨hi, -⟩ | ⟨⟨want, hi⟩ | ⟨c, hi⟩, -⟩ <;> rw [hi]
  · exact closing_unsupported _
  · exact closing_returnFrom start hret
  · refine (minding_flush start _).closing_bind fun _ u₁ _ _ ↦ (minding_blockAt _).closing_bind fun x u₂ _ hx ↦ ?_
    exact ClosingAt.then (closing_emit (Ssa.closes_br hx)) fun _ _ _ _ _ _ ↦ still_pure
  · refine (minding_popRaw none).closing_bind fun w u₁ _ hw ↦ MindingAt.closing_bind (.lift (minding_deref hw))
      fun x u₂ _ _ ↦ ?_
    exact (minding_truth i x want).closing_bind fun v u₃ _ hv ↦ closing_branchOn start hv
  · exact (risking_compare i (proper_of_action (.inr hi))).closing_bind (fun F _ v ↦ safe_branchOn start i v) fun v u₁ _
      hv ↦ closing_branchOn start hv

theorem closing_during {c : Lower Unit} (h : ClosingAt site fn b ret u c) : ClosingAt site fn b ret u (during i c) :=
  fun hsite s a s' u' F h' ↦ h hsite s a s' u' F (Lowers.during_iff.mp h')

theorem closing_lines {sp : Bytecode.Span} (htiles : Tiles site.spans sp) (hret : Means u site.method.returnType ret) :
    ClosingAt site fn b ret u (do
      sp.instrs.forM fun i ↦ during i (lower sp.start i)
      match sp.fallsThrough, sp.instrs.getLast? with
      | true, some last =>
        during last (flush sp.start [sp.stop])
        let _ ← emit (.br (some (← blockAt sp.stop)))
      | _, _ => pure ()
      settleEntry sp.start) := by
  have hstill : ∀ (a : Unit) s u x s' u', Lowers (settleEntry sp.start : Lower Unit) site s u x s' u' →
      s'.fn = s.fn ∧ u' = u := by
    intro a s u x s' u' he
    obtain ⟨rfl, rfl⟩ := settleEntry_spec he
    exact ⟨rfl, rfl⟩
  have hgrow : ∀ F [Supports (Lengthened fn F) (fun _ ↦ True) site] i,
      SafeAt (Lengthened fn F) (fun _ ↦ True) fn site (during i (lower sp.start i)) := fun _ _ i ↦
      safe_during (safe_lower _ i)
  obtain ⟨init, last, hinstrs, hinit, hlast⟩ := htiles.ends
  have hlast? : sp.instrs.getLast? = some last := by rw [hinstrs, List.getLast?_concat]
  cases hfalls : sp.fallsThrough with
  | true =>
    rw [hfalls] at hlast
    have hall : ∀ i ∈ sp.instrs, i.endsBlock = false := by
      intro i hi
      rw [hinstrs] at hi
      rcases List.mem_append.mp hi with hi | hi
      · exact hinit i hi
      · exact List.mem_singleton.mp hi ▸ hlast
    simp only [hlast?]
    refine (RiskingAt.forM hgrow fun u' i hi ↦ risking_during (risking_lower _ (hall i hi))).closing_bind
      (fun F _ _ ↦ ?_) fun _ u₁ _ _ ↦ ?_
    · refine SafeAt.bind (safe_during (safe_flush _ _)) fun _ ↦ .bind (safe_blockAt _) fun x ↦ ?_
      exact .bind (.lift (safe_emit Instr.hinted_br)) fun _ ↦ .lift (safe_settleEntry _)
    · refine (minding_during (minding_flush _ _)).closing_bind fun _ u₂ _ _ ↦ (minding_blockAt _).closing_bind
        fun x u₃ _ hx ↦ ?_
      exact ClosingAt.then (closing_emit (Ssa.closes_br hx)) fun _ ↦ hstill ⟨⟩
  | false =>
    rw [hfalls] at hlast
    simp only [hinstrs, List.forM_eq_forM, List.forM_append, List.forM_cons, List.forM_nil, bind_pure_unit, bind_assoc]
    refine (RiskingAt.forM hgrow fun u' i hi ↦ risking_during (risking_lower _ (hinit i hi))).closing_bind
      (fun F _ _ ↦ ?_) fun _ u₁ hg _ ↦ ?_
    · exact SafeAt.bind (hgrow F last) fun _ ↦ .lift (safe_settleEntry _)
    · exact ClosingAt.then (closing_during (closing_lower _ hlast (hret.mono hg))) hstill

end

/-! ### Whole blocks -/

/-- In the module `m` instruction `k` of the function keeps the rules of its operation. -/
def Obeys (m : Module) (F : Function) (k : Nat) : Prop := ∃ i, F.instr? k = some i ∧ m.Fitting i

def Shut (m : Module) (fn : FuncId) (ret : Ssa.Ty) (F : Function) (B : Ssa.Block) : Prop :=
  ∃ ks t i, B.instrs = ks ++ [t] ∧ (∀ k ∈ ks, Obeys m F k) ∧ F.instr? t = some i ∧ i.Closes fn ret

/-- Of as many blocks as `size` says the first `n` behind the set-up have got their ends, and those behind them have no
code yet. -/
structure Partly (m : Module) (fn : FuncId) (ret : Ssa.Ty) (size n : Nat) (F : Function) : Prop where
  gives : F.ret = ret
  size : F.blocks.size = size
  first : ∀ B, F.blocks[0]? = some B → ∀ k ∈ B.instrs, Obeys m F k
  shut : ∀ b B, F.blocks[b]? = some B → b ≠ 0 → b ≤ n → Shut m fn ret F B
  blank : ∀ b B, F.blocks[b]? = some B → n < b → B.instrs = []

section

variable {world : Universe} {m m' : Module} {fn : FuncId} {ret : Ssa.Ty} {size n a b : Nat} {F F₁ F' : Function}
  {B B' : Ssa.Block} {u u' : CompilationUnit} {P : Instr → Prop} {k : Nat} {t : Instr} {ks : List Nat}

theorem Obeys.mono (hm : m.Precedes m') (hF : F.Earlier F') (h : Obeys m F k) : Obeys m' F' k :=
  h.imp fun i hi ↦ ⟨hF k i hi.1, hi.2.mono hm⟩

theorem Shut.mono (hm : m.Precedes m') (hF : F.Earlier F') (h : Shut m fn ret F B) (hB : B'.instrs = B.instrs) :
    Shut m' fn ret F' B' := by
  obtain ⟨ks, t, i, hinstrs, hks, hi, hcloses⟩ := h
  exact ⟨ks, t, i, hB.trans hinstrs, fun k hk ↦ (hks k hk).mono hm hF, hF t i hi, hcloses⟩

theorem append_ret (F : Function) (b : Nat) (i : Instr) : (F.append b i).1.ret = F.ret := by
  rw [Function.ret, append_signature, Function.ret]

theorem append_size (F : Function) (b : Nat) (i : Instr) : (F.append b i).1.blocks.size = F.blocks.size := by
  rw [append_blocks, Array.size_modify]

theorem Collects.size_eq (h : Collects P b F F') : F'.blocks.size = F.blocks.size := by
  induction h with
  | refl => rfl
  | append _ _ _ ih => exact (append_size ..).trans ih

theorem Collects.ret_eq (h : Collects P b F F') : F'.ret = F.ret := by
  induction h with
  | refl => rfl
  | append _ _ _ ih => exact (append_ret ..).trans ih

theorem append_source {i : Instr} (hB : (F.append b i).1.blocks[a]? = some B') : ∃ B, F.blocks[a]? = some B ∧
    B'.instrs = B.instrs ++ if b = a then [F.instrs.size] else [] := by
  rw [append_blocks, Array.getElem?_modify] at hB
  by_cases hba : b = a
  · rw [if_pos hba] at hB
    obtain ⟨B, hfound, rfl⟩ := Option.map_eq_some_iff.mp hB
    exact ⟨B, hfound, by rw [if_pos hba]⟩
  · rw [if_neg hba] at hB
    exact ⟨B', hB, by rw [if_neg hba, List.append_nil]⟩

theorem Collects.source (h : Collects P b F F') (hB : F'.blocks[a]? = some B') : ∃ B ks, F.blocks[a]? = some B ∧
    B'.instrs = B.instrs ++ ks ∧ (∀ k ∈ ks, ∃ H c i, P i ∧ F'.instr? k = some (placed H c i)) ∧
    (a ≠ b → a ≠ 0 → ks = []) := by
  induction h generalizing B' with
  | refl => exact ⟨B', [], hB, (List.append_nil _).symm, fun _ h ↦ absurd h List.not_mem_nil, fun _ _ ↦ rfl⟩
  | @append F' c i _ hc hi ih =>
    obtain ⟨B₁, hB₁, hB'⟩ := append_source hB
    obtain ⟨B, ks, hB, hinstrs, hks, hnone⟩ := ih hB₁
    refine ⟨B, ks ++ if c = a then [F'.instrs.size] else [], hB,
      by rw [hB', hinstrs, List.append_assoc], fun k hk ↦ ?_, fun hab ha0 ↦ ?_⟩
    · rcases List.mem_append.mp hk with hk | hk
      · obtain ⟨H, d, j, hj, hfound⟩ := hks k hk
        exact ⟨H, d, j, hj, earlier_append F' c i k _ hfound⟩
      · split at hk
        · obtain rfl := List.mem_singleton.mp hk
          exact ⟨F', c, i, hi, append_found i⟩
        · cases hk
    · rw [hnone hab ha0, if_neg (hc.elim (fun h h' ↦ hab (h'.symm.trans h)) fun h h' ↦ ha0 (h'.symm.trans h))]
      rfl

theorem obeys_collected (hm : m.Precedes m') (hF : F.Earlier F') (hB : ∀ k ∈ B.instrs, Obeys m F k)
    (hB' : B'.instrs = B.instrs ++ ks) (hks : ∀ k ∈ ks, ∃ H c i, m'.Fitting i ∧ F'.instr? k = some (placed H c i)) :
    ∀ k ∈ B'.instrs, Obeys m' F' k := by
  intro k hk
  rw [hB'] at hk
  rcases List.mem_append.mp hk with hk | hk
  · exact (hB k hk).mono hm hF
  · obtain ⟨H, c, i, hi, hfound⟩ := hks k hk
    exact ⟨_, hfound, hi.placed⟩

theorem Partly.of_blank (h : Blank F) (hret : F.ret = ret) : Partly m fn ret F.blocks.size 0 F := by
  refine ⟨hret, rfl, fun B hB k hk ↦ ?_, fun b B _ h0 hb ↦ absurd (Nat.le_zero.mp hb) h0,
    fun b B hB _ ↦ h.blocks b B hB⟩
  rw [h.blocks 0 B hB] at hk
  cases hk

theorem Partly.start (h : Partly m fn ret size 0 F) (hm : m.Precedes m') (hcode : Collects m'.Fitting 0 F F') :
    Partly m' fn ret size 0 F' := by
  refine ⟨hcode.ret_eq.trans h.gives, hcode.size_eq.trans h.size, fun B' hB' ↦ ?_,
    fun b B _ h0 hb ↦ absurd (Nat.le_zero.mp hb) h0, fun b B' hB' hb ↦ ?_⟩
  · obtain ⟨B, ks, hB, hinstrs, hks, -⟩ := hcode.source hB'
    exact obeys_collected hm hcode.earlier (h.first B hB) hinstrs hks
  · obtain ⟨B, ks, hB, hinstrs, -, hnone⟩ := hcode.source hB'
    rw [hinstrs, h.blank b B hB hb, hnone (by omega) (by omega)]
    rfl

theorem Partly.next (h : Partly u.module fn ret size n F) (hend : Terminated world fn (n + 1) ret u F u' F') :
    Partly u'.module fn ret size (n + 1) F' := by
  obtain ⟨F₁, t, hcode, ht, rfl⟩ := hend.code
  have hm := hend.grown.module
  have hF := earlier_append F₁ (n + 1) t
  refine ⟨(append_ret F₁ (n + 1) t).trans (hcode.ret_eq.trans h.gives),
    (append_size F₁ (n + 1) t).trans (hcode.size_eq.trans h.size), fun B' hB' ↦ ?_, fun b B' hB' h0 hb ↦
    ?_, fun b B' hB' hb ↦ ?_⟩
  · obtain ⟨B₁, hB₁, hB'⟩ := append_source hB'
    obtain ⟨B, ks, hB, hinstrs, hks, -⟩ := hcode.source hB₁
    rw [if_neg (Nat.succ_ne_zero n), List.append_nil] at hB'
    intro k hk
    exact (obeys_collected hm hcode.earlier (h.first B hB) hinstrs hks k (hB' ▸ hk)).mono (.refl _) hF
  · obtain ⟨B₁, hB₁, hB'⟩ := append_source hB'
    obtain ⟨B, ks, hB, hinstrs, hks, hnone⟩ := hcode.source hB₁
    by_cases hbn : n + 1 = b
    · subst hbn
      rw [if_pos rfl] at hB'
      have hblank : ∀ k ∈ B.instrs, Obeys u.module F k := by
        rw [h.blank _ B hB (Nat.lt_succ_self n)]
        exact fun _ h ↦ absurd h List.not_mem_nil
      exact ⟨B₁.instrs, _, _, hB', fun k hk ↦ (obeys_collected hm hcode.earlier hblank hinstrs hks k hk).mono (.refl _)
        hF, append_found t, ⟨ht.ends, ht.rules, ht.values, ht.targets⟩⟩
    · rw [if_neg hbn, List.append_nil, hinstrs, hnone (Ne.symm hbn) h0, List.append_nil] at hB'
      exact (h.shut b B hB h0 (by omega)).mono hm (hcode.earlier.trans hF) hB'
  · obtain ⟨B₁, hB₁, hB'⟩ := append_source hB'
    obtain ⟨B, ks, hB, hinstrs, -, hnone⟩ := hcode.source hB₁
    rw [hB', hinstrs, h.blank b B hB (by omega), hnone (by omega) (by omega), if_neg (by omega)]
    rfl

theorem Partly.whole (h : Partly m fn ret (n + 1) n F) (ht : t.Closes fn ret)
    (hB' : (F.append 0 t).1.blocks[b]? = some B') : Shut m fn ret (F.append 0 t).1 B' := by
  obtain ⟨B, hB, hinstrs⟩ := append_source hB'
  have hF := earlier_append F 0 t
  by_cases hb : 0 = b
  · subst hb
    rw [if_pos rfl] at hinstrs
    exact ⟨B.instrs, _, _, hinstrs, fun k hk ↦ (h.first B hB k hk).mono (.refl _) hF, append_found t,
      ⟨ht.ends, ht.rules, ht.values, ht.targets⟩⟩
  · rw [if_neg hb, List.append_nil] at hinstrs
    have hlt := (Array.getElem?_eq_some_iff.mp hB).1
    exact (h.shut b B hB (Ne.symm hb) (by rw [h.size] at hlt; omega)).mono (.refl _) hF hinstrs

end

section

variable {site : Site} {fn : FuncId} {ret : Ssa.Ty} {size n k : Nat} {F : Function}
  {u u' : CompilationUnit} {s s' : Stage} {sp : Bytecode.Span}

theorem Laden.opened (hfn : s.fn = fn) (number start : Nat) : Laden fn number u (opened s number start) :=
  ⟨hfn, rfl, fun _ h ↦ absurd h List.not_mem_nil⟩

theorem closing_lowerTraced {x : Unit} (hsite : site.Supplied u) (htiles : Tiles site.spans sp)
    (hret : Means u site.method.returnType ret) (he : Lowers (lowerTraced n sp) site s u x s' u') (hfn : s.fn = fn)
    (hF : Houses fn F u) (hu : Sound site.world u) :
    s'.fn = fn ∧ ∃ F', Houses fn F' u' ∧ (F'.isHollow = true ∨ Terminated site.world fn n ret u F u' F') := by
  obtain ⟨t, _, t', hblock, rfl⟩ := lowerBlock_of_traced he
  unfold lowerBlock at hblock
  obtain ⟨_, _, _, hopen, hline⟩ := Lowers.bind_iff.mp hblock
  obtain ⟨rfl, rfl⟩ := Lowers.modifyThe_iff.mp hopen
  -- Traces are no matter of types.
  have htraced : ∀ {v : CompilationUnit} t, Extended v { v with tracing := t } := fun _ ↦ ⟨.refl _, fun _ _ _ h ↦ h⟩
  have hkept : ∀ {v : CompilationUnit} t, Sound site.world v → Sound site.world { v with tracing := t } := fun t hv ↦
    (lasting_sound site.world).same hv ⟨rfl, rfl, rfl, .nothing⟩
  obtain ⟨hfn', F', hF', h⟩ := closing_lines htiles (hret.mono (htraced t)) (hsite.mono (htraced t)) _ _ _ _ F hline
    (Laden.opened hfn n sp.start) (hF.of_functions rfl rfl) (hkept t hu)
  refine ⟨hfn', F', hF'.of_functions rfl rfl, h.imp_right fun h ↦ ?_⟩
  exact ⟨hkept t' h.kept, ((htraced t).trans h.grown).trans (htraced t'), h.code⟩

theorem partly_lowerBlocks {spans : List Bytecode.Span} {x : PUnit} (hsite : site.Supplied u)
    (htiles : ∀ sp ∈ spans, Tiles site.spans sp) (hret : Means u site.method.returnType ret)
    (he : Emits ((spans.zipIdx k).forM fun p ↦ lowerTraced (p.2 + 1) p.1 site) s u x s' u') (hfn : s.fn = fn)
    (hF : Houses fn F u) (hu : Sound site.world u) (hpartly : Partly u.module fn ret size k F) :
    s'.fn = fn ∧ ∃ F', Houses fn F' u' ∧
      (F'.isHollow = true ∨ Sound site.world u' ∧ Partly u'.module fn ret size (k + spans.length) F') := by
  induction spans generalizing k s u F with
  | nil =>
    obtain ⟨-, rfl, rfl⟩ := Emits.pure_iff.mp he
    exact ⟨hfn, F, hF, .inr ⟨hu, hpartly⟩⟩
  | cons sp spans ih =>
    rw [List.zipIdx_cons, List.forM] at he
    obtain ⟨_, s₁, u₁, he₁, he₂⟩ := Emits.bind_iff.mp he
    obtain ⟨hfn₁, F₁, hF₁, hhollow | hend⟩ :=
      closing_lowerTraced hsite (htiles sp List.mem_cons_self) hret he₁ hfn hF hu
    · have := hsite.supports fn F₁
      obtain ⟨hfn', F', hF', hhollow'⟩ := hollow_of_safe hF₁ hhollow hfn₁ (.forM fun p _ ↦ safe_lowerTraced _ _) he₂
      exact ⟨hfn', F', hF', .inl hhollow'⟩
    · have hgrown := hend.grown
      obtain ⟨hfn', F', hF', h⟩ := ih (hsite.mono hgrown) (fun sp hsp ↦ htiles sp (List.mem_cons_of_mem _ hsp))
        (hret.mono hgrown) he₂ hfn₁ hF₁ hend.kept (hpartly.next hend)
      rw [List.length_cons, Nat.add_comm spans.length 1, ← Nat.add_assoc]
      exact ⟨hfn', F', hF', h⟩

end

/-! ### The set-up -/

section

variable {world : Universe} {fn : FuncId} {F : Function} {u : CompilationUnit}

theorem minding_makeBuffer (n : Int) : Minding world fn 0 u (makeBuffer n) fun p _ ↦
    p.type = .pointer .bytePointer := by
  refine (minding_intConst _ _).bind fun k u₁ _ hk ↦ ?_
  refine (minding_emitAt (.inl rfl) (Ssa.fitting_arrayAlloca _ (stores_i8 _) (hk ▸ rfl))).bind
    fun buffer u₂ _ hbuffer ↦ ?_
  refine (minding_slotFor (stores_pointer _ _)).bind fun top u₃ _ htop ↦ ?_
  refine (minding_emitAt (.inl rfl) (Ssa.fitting_store (by rw [htop, hbuffer]; rfl) (by rw [hbuffer]; rfl))).bind
    fun _ u₄ _ _ ↦ ?_
  exact .pure htop

theorem minding_bindArgument {f : Function} {t : Ty} {i : Nat} (ht : Passes u t (f.param i).type) :
    Minding world fn 0 u (bindArgument f t i) fun w u' ↦ Apt u' w := by
  unfold bindArgument
  dsimp only
  split
  · exact .pure ht.stands.apt
  refine .assume fun hu ↦ (minding_slotFor (ht.stands.stores hu.typed)).bind fun slot u₁ hg₁ hslot ↦ ?_
  refine (minding_emitAt (.inl rfl) (Ssa.fitting_store hslot ht.stands.hasValue)).bind fun _ u₂ hg₂ _ ↦
    .pure ⟨?_, fun _ ↦ ht.1.not_void ht.2⟩
  dsimp only
  rw [hslot]
  exact .address rfl (ht.stands.mono (hg₁.trans hg₂))

theorem minding_localType (t : Ty) : Minding world fn 0 u (liftM (do
      if t.isByRef then return .pointer (← codeType world t.elem) else codeType world t : Compile Ssa.Ty) : Emit Ssa.Ty)
    fun c u' ↦ (t.isByRef = true → ∃ e, c = .pointer e ∧ Means u' t.elem e) ∧ (t.isByRef = false → Means u' t c) := by
  have hsound := (lasting_sound world).total
  split
  · rename_i href
    have hpointer : ∀ {P : CompilationUnit → Prop}, Spec P (codeType world t.elem) (fun _ ↦ P) (fun _ ↦ True) →
        Spec P (do return Ssa.Ty.pointer (← codeType world t.elem)) (fun _ ↦ P) fun _ ↦ True := fun h ↦
      h.bind fun _ ↦ .pure fun _ hu ↦ hu
    refine .of_casting (.lift (fun F ↦ hpointer (leaves_codeType _ F)) (hpointer (hsound.codeType _)) ?_)
    refine (spec_codeType_typed t.elem).bind fun c ↦ .pure fun u' hu ↦ ⟨⟨fun _ ↦ ⟨c, rfl, hu.1⟩, fun h ↦ ?_⟩, hu.2⟩
    exact absurd (href.symm.trans h) Bool.noConfusion
  · rename_i href
    refine .of_casting (.lift (leaves_codeType t) (hsound.codeType t) ?_)
    exact (spec_codeType_typed t).imp (fun _ hu ↦ hu) fun c u' hu ↦ ⟨⟨fun h ↦ absurd h href, fun _ ↦ hu.1⟩, hu.2⟩

theorem risking_bindLocal (t : Ty) (i : Nat) :
    Risking world fn 0 u (bindLocal world t i) fun w u' ↦ Apt u' w ∧ w.slot = true := by
  refine (minding_localType t).within.risk_bind fun c u₁ _ hc ↦ (minding_size c).within.risk_bind fun n u₂ hg hne ↦ ?_
  have hvalue : t.isVoid = false := by
    cases href : t.isByRef with
    | false => exact (hc.2 href).not_void hne
    | true =>
      refine Bool.eq_false_iff.mpr fun hvoid ↦ ?_
      have haddress := Ty.not_isAddress_of_isVoid hvoid
      rw [Ty.isAddress, href] at haddress
      cases haddress
  have hstands : ∀ name, (Instr.alloca c name).isHollow = false → Stands u₂ t c := by
    intro name hi
    cases href : t.isByRef with
    | false => exact ((hc.2 href).stands hne).mono hg
    | true =>
      obtain ⟨e, rfl, he⟩ := hc.1 href
      have hne : e ≠ .void := by
        rintro rfl
        cases type_of_not_hollow hi
      exact .address (by rw [Ty.isAddress, href, Bool.true_or]) ((he.stands hne).mono hg)
  have hslot : Risking world fn 0 u₂ (slotFor c ("loc" ++ toString i)) fun slot u' ↦ slot.type = .pointer c ∧
      Stands u' t c := by
    refine .assume fun hu ↦
      (risking_emitAt (.inr rfl) fun hi ↦ Ssa.fitting_alloca _ ((hstands _ hi).stores hu.typed)).imp ?_
    exact fun slot u' hg' hslot ↦ ⟨hslot.1, (hstands _ hslot.2).mono hg'⟩
  refine hslot.bind (fun F slot ↦ (safe_clearAt 0 slot n).bind fun _ ↦ .pure _) fun slot u₃ _ hslot ↦ ?_
  refine (Minding.bind (minding_clearAt n (by rw [hslot.1]; rfl)) fun _ u₄ hg₄ _ ↦
    .pure ⟨⟨?_, fun _ ↦ hvalue⟩, rfl⟩).risking
  dsimp only
  rw [hslot.1]
  exact .address rfl (hslot.2.mono hg₄)

theorem risking_prepare (hworld : Consistent world) (hplain : PlainOperators world) (fuel : Nat)
    (m : Method) (body : Body) {f : Function} {args : List Ty} (hargs : List.Forall₂ (Passes u) args f.paramTypes)
    (spans : List Bytecode.Span) : Risking world fn 0 u (prepare world (compileMethod world fuel) m body args f spans)
      fun site u' ↦ site.world = world ∧ site.method = m ∧ site.spans = spans ∧ site.Supplied u' := by
  have htypes : ∀ F t, Spec (Lengthened fn F) (compileType world world.nestingLimit t) (fun _ ↦ Lengthened fn F) fun _ ↦
    True :=
    fun F t ↦ (leaves_compileType world _ t).lengthened
  have hbindLocal : ∀ F (p : Ty × Nat), Safe (Lengthened fn F) (fun _ ↦ True) fn (bindLocal world p.1 p.2) := fun F p ↦
    safe_bindLocal (htypes F) p.1 p.2
  refine (minding_makeBuffer _).risk_bind fun top u₁ hg₁ htop ↦ ?_
  refine (Minding.mapM (T := fun _ w u ↦ Apt u w) (fun hg h ↦ Apt.mono hg h) fun u' p hp hg' ↦ ?_).risk_bind
    fun ws u₂ _ hws ↦ ?_
  · refine minding_bindArgument ?_
    obtain ⟨hlt, hat⟩ := List.mem_zipIdx' hp
    have hparam : p.2 < f.paramTypes.length := hargs.length_eq ▸ hlt
    have hpasses := (hargs.get hlt hparam).mono (hg₁.trans hg')
    rw [List.get_eq_getElem, ← hat, List.get_eq_getElem] at hpasses
    rwa [Function.param, Value.type, List.getD_eq_getElem?_getD, List.getElem?_eq_getElem hparam, Option.getD_some]
  refine (Risking.mapM (T := fun _ w u ↦ Apt u w ∧ w.slot = true) hbindLocal (fun hg h ↦ ⟨Apt.mono hg h.1, h.2⟩)
    fun u' p _ _ ↦ risking_bindLocal p.1 p.2).bind (fun _ _ ↦ .pure _) fun vs u₃ hg₃ hvs ↦ ?_
  refine (Minding.pure ⟨rfl, rfl, rfl, ⟨hworld, hplain, fuel, rfl⟩, fun w hw ↦ ?_, fun w hw ↦ ?_, htop⟩).risking
  · rcases List.mem_append.mp hw with hw | hw
    · obtain ⟨_, -, h⟩ := exists_left_of_forall₂ hws hw
      exact h.mono hg₃
    · obtain ⟨_, -, h⟩ := exists_left_of_forall₂ hvs hw
      exact h.1
  · obtain ⟨_, -, h⟩ := exists_left_of_forall₂ hvs hw
    exact h.2

end

end CilSsa.Lowering

namespace CilSsa.Lowering

open CilSsa.Bytecode CilSsa.Metadata
open CilSsa.Ssa (BlockId Const FuncId Function Instr Module Value)

section

variable {m : Module} {F : Function} {ps : List Ssa.Ty}

theorem Near.takes {fn : FuncId} {b : Nat} {pre : List Nat} {v : Value} (h : Near fn ps F b pre v) (hid : F.id = fn)
    (hv : v.type.hasValue = true) : F.Takes v := by
  refine ⟨fun htype ↦ ?_, ?_, ?_⟩
  · rw [htype] at hv
    cases hv
  · rintro id t rfl
    exact hv
  · rintro g k t rfl
    exact h.1.trans hid.symm

/-- A function verifies if each operand stands before what reads it and its blocks are shut. -/
theorem Sturdy.verify {fn : FuncId} (h : Sturdy fn ps F) (hid : F.id = fn) (hF : m.function? fn = some F)
    (hbody : F.isDeclaration = false) (hshut : ∀ (b : Nat) (B : Ssa.Block), F.blocks[b]? = some B →
    Shut m fn F.ret F B) : m.verify F = [] := by
  subst hid
  have hformed := h.built.formed
  -- An instruction keeps the rules, and either stays in its block or closes it.
  have hsorted : ∀ {b k : Nat} {i : Instr}, F.Lists b k i → m.Fitting i ∨ i.Closes F.id F.ret := by
    intro b k i hl
    obtain ⟨B, hB, hk⟩ := hl.listed
    obtain ⟨ks, t, j, hinstrs, hks, hj, hcloses⟩ := hshut b B hB
    rw [hinstrs] at hk
    rcases List.mem_append.mp hk with hk | hk
    · obtain ⟨i', hi', hfit⟩ := hks k hk
      cases hi'.symm.trans hl.found
      exact .inl hfit
    · obtain rfl := List.mem_singleton.mp hk
      cases hj.symm.trans hl.found
      exact .inr hcloses
  have hnear : ∀ {b k : Nat} {i : Instr} {o : Option Value}, F.Lists b k i → o ∈ i.operands →
    ∃ (B : Ssa.Block) (pre post : List Nat) (v : Value),
      F.blocks[b]? = some B ∧ B.instrs = pre ++ k :: post ∧ o = some v ∧ Near F.id ps F b pre v := by
    intro b k i o hl ho
    obtain ⟨B, hB, hk⟩ := hl.listed
    obtain ⟨pre, post, hinstrs⟩ := List.append_of_mem hk
    obtain ⟨v, hv, hnear⟩ := h.ordered b B pre k post i o hB hinstrs hl.found ho
    exact ⟨B, pre, post, v, hB, hinstrs, hv, hnear⟩
  have hends : ∀ {b : Nat} {B : Ssa.Block}, F.blocks[b]? = some B → ∃ ks t, F.Ends B ks t := by
    intro b B hB
    obtain ⟨ks, t, j, hinstrs, hks, hj, hcloses⟩ := hshut b B hB
    refine ⟨ks, t, hinstrs, fun i hi ↦ ?_, fun k hk i hi ↦ ?_⟩
    · cases hj.symm.trans hi
      exact hcloses.ends
    · obtain ⟨i', hi', hfit⟩ := hks k hk
      cases hi'.symm.trans hi
      exact hfit.stays
  have htargets : ∀ {b k : Nat} {i : Instr}, F.Lists b k i → ∀ t ∈ i.targets, t.map (·.fn) = some F.id := by
    intro b k i hl t ht
    rcases hsorted hl with hfit | hcloses
    · rw [h.built.targets_eq hl.found hfit.stays] at ht
      cases ht
    · exact hcloses.targets t ht
  have hsees : ∀ {b k : Nat} {i : Instr} {j : Ssa.InstrId} {t : Ssa.Ty}, F.Lists b k i →
    some (.instr j t) ∈ i.operands →
      F.Sees (Ssa.DomTree.of m F) j.index b k := by
    intro b k i j t hl ho
    obtain ⟨B, pre, post, v, hB, hinstrs, hv, hnear⟩ := hnear hl ho
    cases hv
    obtain ⟨-, ⟨x, hx, -⟩, hmem | ⟨hb, B₀, hB₀, hmem⟩⟩ := hnear
    · refine .inside hB ?_
      rw [hinstrs]
      exact (List.singleton_sublist.mpr hmem).append (List.singleton_sublist.mpr List.mem_cons_self)
    · exact .above ⟨⟨B₀, hB₀, hmem⟩, hx⟩ (Ne.symm hb)
        (Ssa.DomTree.dominates_entry (Module.confines_of_targets hformed hF hbody hends htargets) _)
  refine Module.Valid.verify_of_sees ⟨hformed, hends, htargets, fun hl ↦ ?_, fun hl ho ↦ ?_,
    fun hl _ ↦ hsees hl⟩ hF hbody hsees
  · exact (hsorted hl).elim (fun hfit ↦ hfit.rules m (.refl m) F) fun hcloses ↦ hcloses.rules m F rfl
  · obtain ⟨B, pre, post, v, -, -, rfl, hnear⟩ := hnear hl ho
    exact ⟨v, rfl, hnear.takes rfl ((hsorted hl).elim (fun hfit ↦ hfit.values v ho) fun hcloses ↦ hcloses.values v ho)⟩

end

/-! ### Bodies -/

section

variable {world : Universe} {fn : FuncId} {F f : Function} {u u' : CompilationUnit} {m : Method} {body : Body}
  {count fuel : Nat}

theorem addBlocks_lasting {J : CompilationUnit → Prop} (hJ : Lasting world J fun _ ↦ True)
    {names : List String} {x : PUnit} (hu : J u) (hc : Compiles (addBlocks fn names) u x u') : J u' := by
  have hadd : Spec J (addBlocks fn names) (fun _ ↦ J) fun _ ↦ True :=
    .forM fun name _ ↦ (spec_onModule fun _ hu ↦ hJ.addBlock hu fn name).bind fun _ ↦ .pure fun _ hu ↦ hu
  exact (hadd u hu).1 x u' hc

theorem sound_addBlocks {names : List String} {x : PUnit} (hu : Sound world u)
    (hc : Compiles (addBlocks fn names) u x u') : Sound world u' ∧ Extended u u' :=
  ⟨addBlocks_lasting (lasting_sound world).total hu hc,
    (addBlocks_lasting (lasting_typedSince world u _) (.start hu.typed) hc).grown⟩

theorem lowerBody_verifies (hworld : Consistent world) (hplain : PlainOperators world)
    (hF : Houses f.id f u) (hb : f.Built) (hinstrs : f.instrs = #[]) (hnone : f.blocks = #[])
    (hd : Declares u m f.signature) (hu : Sound world u)
    (hc : Compiles (lowerBody world (compileMethod world fuel) m body m.receives f) u count u') :
    ∃ F, Houses f.id F u' ∧ (F.isHollow = true ∨ u'.module.verify F = []) := by
  have hcompile : ∀ m, Leaves f.id (compileMethod world fuel m) := leaves_compileMethod world fuel
  obtain ⟨ret, params, hsig, hret, hpasses⟩ := hd
  have hparams : f.paramTypes = params := by rw [Function.paramTypes, hsig]
  have hfret : f.ret = ret := by rw [Function.ret, hsig]
  have hblank := Blank.of_empty hinstrs hnone
  obtain ⟨F', hF', hsturdy⟩ := lowerBody_sturdy hcompile hF hb hblank (hparams ▸ hpasses.length_eq) hc
  refine ⟨F', hF', ?_⟩
  obtain ⟨spans, u₀, site, s, u₁, s', u₂, v, s'', hspans, hblocks, hprepare, hlower, hbranch⟩ := lowerBody_inv hc
  obtain ⟨hu₀, hg₀⟩ := sound_addBlocks hu hblocks
  obtain ⟨F₀, hF₀, hsize, hkept⟩ := addBlocks_houses hF hblocks
  rw [hnone, Array.size_empty, Nat.zero_add, List.length_cons, List.length_map] at hsize
  have hblank₀ : Blank F₀ := hkept Blank (fun G name h ↦ h.addBlock name) hblank
  have hret₀ : F₀.ret = ret := hkept (fun G ↦ G.ret = ret)
    (fun G name h ↦ by rw [Function.ret, (addBlock_grown G name).1.signature, ← Function.ret, h]) hfret
  have hargs₀ : List.Forall₂ (Passes u₀) m.receives f.paramTypes := hparams ▸ hpasses.imp fun _ _ h ↦ h.mono hg₀
  -- A function that was hollow once is hollow in the end.
  refine or_iff_not_imp_left.mpr fun hsolid ↦ ?_
  have hlast : ∀ F₂, Houses f.id F₂ u₂ → s'.fn = f.id → ¬ F₂.isHollow = true := by
    intro F₂ hF₂ hfn₂ h
    obtain ⟨-, G, hG, hhollow⟩ := hollow_of_safe hF₂ h hfn₂ (safe_emitAt 0 Instr.hinted_br) hbranch
    cases hG.found.symm.trans hF'.found
    exact hsolid hhollow
  have hfirst : ∀ F₁, Houses f.id F₁ u₁ → s.fn = f.id → ¬ F₁.isHollow = true := by
    intro F₁ hF₁ hfn₁ h
    obtain ⟨-, -, -, -, hsame, hsame', -⟩ :=
      setting_prepare (fun t ↦ leaves_codeType t) _ m body m.receives f spans _ _ _ _ _ F₀ hprepare rfl hF₀ trivial
    have hsite : site.Leaves f.id :=
      ⟨hsame ▸ hworld, fun t ↦ leaves_compileType _ _ t, fun m _ ↦ hsame' ▸ hcompile m⟩
    have := supports_lengthened (F := F₁) hsite
    obtain ⟨hfn₂, F₂, hF₂, hhollow⟩ := hollow_of_safe hF₁ h hfn₁ (.forM fun p _ ↦ safe_lowerTraced _ _) hlower
    exact hlast F₂ hF₂ hfn₂ hhollow
  obtain ⟨hfn₁, F₁, hF₁, hhollow | ⟨hs, ⟨rfl, rfl, rfl, hsite⟩, hgain⟩⟩ := risking_prepare hworld hplain fuel m
    body hargs₀ spans { fn := f.id } site s u₁ F₀ hprepare ⟨rfl, rfl, fun _ h ↦ absurd h List.not_mem_nil⟩ hF₀ hu₀
  · exact absurd hhollow (hfirst F₁ hF₁ hfn₁)
  obtain ⟨hfn₂, F₂, hF₂, hhollow | ⟨hu₂, hpartly⟩⟩ := partly_lowerBlocks hsite (discoverBlocks_ok hspans).tiles
    (hret.mono (hg₀.trans hgain.grown)) hlower hfn₁ hgain.houses hgain.kept
    ((Partly.of_blank hblank₀ hret₀).start hgain.grown.module hgain.code)
  · exact absurd hhollow (hlast F₂ hF₂ hfn₂)
  -- The block before all others gets its end, and then all blocks have theirs.
  rw [← hfn₂] at hF₂
  obtain ⟨-, -, hF₃⟩ := emitAt_inv hbranch hF₂
  rw [hfn₂] at hF₃
  cases hF₃.found.symm.trans hF'.found
  have hgrown : u₂.module.Precedes u'.module := by
    have hsince : Safe (TypedSince site.world u₂ fun _ ↦ False) (fun _ ↦ True) f.id (emitAt 0 (.br (some ⟨f.id, 1⟩))) :=
      Growable.safe_emitAt 0 _
    exact ((hsince s' hfn₂ u₂ (.start hu₂.typed)).1 _ _ hbranch).2.grown.module
  refine hsturdy.verify hF'.id_eq hF'.found ?_ fun b B hB ↦ ?_
  · rw [Function.isDeclaration, Array.isEmpty_eq_false_iff]
    intro hnil
    have hzero := congrArg Array.size hnil
    rw [append_size, hpartly.size, hsize] at hzero
    exact absurd hzero (Nat.succ_ne_zero _)
  · rw [hsize, Nat.zero_add] at hpartly
    rw [append_ret, hpartly.gives]
    exact (hpartly.whole (Ssa.closes_br rfl) hB).mono hgrown (.refl _) rfl

end

end CilSsa.Lowering

