import CilSsa.Proofs.Effects
import CilSsa.Proofs.FrameSlots

namespace CilSsa.Ssa

def Function.Earlier (F F' : Function) : Prop := ∀ (k : Nat) (i : Instr), F.instrs[k]? = some i → F'.instrs[k]? = some i

theorem Function.Earlier.refl (F : Function) : F.Earlier F := fun _ _ h ↦ h

theorem Function.Earlier.trans {F F' F'' : Function} (h : F.Earlier F') (h' : F'.Earlier F'') : F.Earlier F'' :=
  fun k i hk ↦ h' k i (h k i hk)

end CilSsa.Ssa

namespace CilSsa.Lowering

open CilSsa.Bytecode CilSsa.Metadata
open CilSsa.Ssa (BlockId Const FuncId Function Instr Value)

/-- In the code of function `fn`, the value `p` is the address of a slot for one value of type `t`. -/
def IsSlot (fn : FuncId) (F : Function) (p : Value) (t : Ssa.Ty) : Prop :=
  ∃ k i, p = .instr ⟨fn, k⟩ (.pointer t) ∧ F.instrs[k]? = some i ∧ i.op = .alloca ∧ i.allocated = t ∧ i.operands = []

/-- The value `p` is what the slot `top` held when it was read, perhaps as a pointer of another type. -/
inductive IsTop (fn : FuncId) (top : Value) (F : Function) : Value → Prop
  | loaded {k : Nat} {i : Instr} {t : Ssa.Ty} : F.instrs[k]? = some i → i.op = .load → i.operands = [some top] →
      IsTop fn top F (.instr ⟨fn, k⟩ t)
  | retyped {k : Nat} {i : Instr} {t : Ssa.Ty} {p : Value} : F.instrs[k]? = some i → i.op = .bitcast →
      i.operands = [some p] → IsTop fn top F p → IsTop fn top F (.instr ⟨fn, k⟩ t)

/-- Instruction `k` does not write to the slot `x`, unless by calling a function that does: it writes nothing, fills
another slot, or pushes onto the run-time stack, whose top is kept in the slot `top`. -/
inductive Spares (fn : FuncId) (top x : Value) (F : Function) (k : Nat) : Prop
  | reads {i : Instr} : F.instrs[k]? = some i → i.op.onlyReads = true → Spares fn top x F k
  | fills {i : Instr} {v p : Value} : F.instrs[k]? = some i → i.op = .store → i.operands = [some v, some p] →
      IsSlot fn F p v.type → p ≠ x → Spares fn top x F k
  | pushes {i : Instr} {v p : Value} : F.instrs[k]? = some i → i.op = .store → i.operands = [some v, some p] →
      IsTop fn top F p → Spares fn top x F k
  | transfers {i : Instr} : F.instrs[k]? = some i → i.op.transfers = true → Spares fn top x F k

section

variable {fn : FuncId} {top x p : Value} {t : Ssa.Ty} {F F' F'' : Function} {b k : Nat} {ks ks' : List Nat}
  {Q : Function → Nat → Prop}

theorem IsSlot.mono (h : F.Earlier F') (hp : IsSlot fn F p t) : IsSlot fn F' p t := by
  obtain ⟨k, i, hp, hi, hrest⟩ := hp
  exact ⟨k, i, hp, h k i hi, hrest⟩

theorem IsTop.mono (h : F.Earlier F') (hp : IsTop fn top F p) : IsTop fn top F' p := by
  induction hp with
  | loaded hi hop hv => exact .loaded (h _ _ hi) hop hv
  | retyped hi hop hv _ ih => exact .retyped (h _ _ hi) hop hv ih

theorem Spares.mono (h : F.Earlier F') (hk : Spares fn top x F k) : Spares fn top x F' k := by
  cases hk with
  | reads hi hop => exact .reads (h _ _ hi) hop
  | fills hi hop hv hp hx => exact .fills (h _ _ hi) hop hv (hp.mono h) hx
  | pushes hi hop hv hp => exact .pushes (h _ _ hi) hop hv (hp.mono h)
  | transfers hi hop => exact .transfers (h _ _ hi) hop

/-- Block `b` got the instructions `ks` more at its end, each as `Q` has it. -/
structure Appends (Q : Function → Nat → Prop) (b : Nat) (F F' : Function) (ks : List Nat) : Prop where
  earlier : F.Earlier F'
  block : ∀ B, F.blocks[b]? = some B → F'.blocks[b]? = some { B with instrs := B.instrs ++ ks }
  each : ∀ k ∈ ks, Q F' k

theorem Appends.refl (Q : Function → Nat → Prop) (b : Nat) (F : Function) : Appends Q b F F [] :=
  ⟨.refl F, fun B hB ↦ by rw [List.append_nil]; exact hB, nofun⟩

theorem Appends.trans (hQ : ∀ {F F' k}, F.Earlier F' → Q F k → Q F' k) (h : Appends Q b F F' ks)
    (h' : Appends Q b F' F'' ks') : Appends Q b F F'' (ks ++ ks') := by
  refine ⟨h.earlier.trans h'.earlier, fun B hB ↦ ?_, List.forall_mem_append.mpr ⟨fun k hk ↦ hQ h'.earlier (h.each k hk),
    h'.each⟩⟩
  rw [h'.block _ (h.block B hB), List.append_assoc]

theorem earlier_append (F : Function) (b : Nat) (i : Instr) : F.Earlier (F.append b i).1 := (grows_append F b i).instrs

theorem appends_emitted {i : Instr} (h : Q (F.append b i).1 F.instrs.size) : Appends Q b F (F.append b i).1
    [F.instrs.size] :=
  ⟨earlier_append F b i, fun _ hB ↦ append_block hB i, List.forall_mem_singleton.mpr h⟩

theorem appends_elsewhere {c : Nat} (h : c ≠ b) (i : Instr) : Appends Q b F (F.append c i).1 [] := by
  refine ⟨earlier_append F c i, fun B hB ↦ ?_, nofun⟩
  rw [(grows_append F c i).blocks b h.symm, List.append_nil]
  exact hB

end

/-- In the unit `u`, function `fn` has the code `F`. -/
structure Houses (fn : FuncId) (F : Function) (u : CompilationUnit) : Prop where
  numbered : Numbered u.module
  found : u.module.function? fn = some F

def Leaves {α : Type} (fn : FuncId) (c : Compile α) : Prop :=
  ∀ F, Spec (Houses fn F) c (fun _ ↦ Houses fn F) fun _ ↦ True

/-- What a site has compiled leaves the code of function `fn` alone. -/
structure Site.Leaves (site : Site) (fn : FuncId) : Prop where
  consistent : Consistent site.world
  types : ∀ t, Lowering.Leaves fn (compileType site.world site.world.nestingLimit t)
  methods : ∀ m, Found site.world m → Lowering.Leaves fn (site.compile m)

/-- The function has the slot `x`, and another one for the top of the run-time stack. -/
structure Fitted (fn : FuncId) (top x : Value) (F : Function) : Prop where
  slot : ∃ t, IsSlot fn F x t
  cursor : IsSlot fn F top .bytePointer
  apart : top ≠ x

theorem Fitted.mono {fn : FuncId} {top x : Value} {F F' : Function} (h : F.Earlier F') (hF : Fitted fn top x F) :
    Fitted fn top x F' :=
  ⟨hF.slot.imp fun _ ht ↦ ht.mono h, hF.cursor.mono h, hF.apart⟩

section

variable {α β : Type} (fn : FuncId) (top x : Value) (b : Nat) (site : Site)

/-- Lowering from code with `P` into block `b`, not the first, which adds code that spares the slot `x`, and gives a
value as `R` has it. -/
def Adding (P : Function → Prop) (c : Emit α) (R : α → Function → Prop) : Prop :=
  ∀ s u a s' u' F, Emits c s u a s' u' → s.fn = fn → s.block = b → b ≠ 0 → Houses fn F u → Fitted fn top x F → P F →
    s'.fn = fn ∧ s'.block = b ∧ ∃ F' ks, Houses fn F' u' ∧ Appends (Spares fn top x) b F F' ks ∧ R a F'

def Sparing (c : Emit α) : Prop := Adding fn top x b (fun _ ↦ True) c fun _ _ ↦ True

def SparingAt (c : Lower α) : Prop := Sparing fn site.top x b (c.run site)

variable {fn top x b site} {P : Function → Prop} {R : α → Function → Prop} {S : β → Function → Prop}

theorem Adding.bind {c : Emit α} {f : α → Emit β} (hc : Adding fn top x b P c R)
    (hf : ∀ a, Adding fn top x b (R a) (f a) S) : Adding fn top x b P (c >>= f) S := by
  intro s u a s' u' F he hfn hb h0 hF hfit hP
  obtain ⟨a₁, s₁, u₁, h₁, h₂⟩ := Emits.bind_iff.mp he
  obtain ⟨hfn₁, hb₁, F₁, ks, hF₁, happ, hR⟩ := hc _ _ _ _ _ F h₁ hfn hb h0 hF hfit hP
  obtain ⟨hfn₂, hb₂, F₂, ks', hF₂, happ', hS⟩ := hf a₁ _ _ _ _ _ F₁ h₂ hfn₁ hb₁ h0 hF₁ (hfit.mono happ.earlier) hR
  exact ⟨hfn₂, hb₂, F₂, ks ++ ks', hF₂, happ.trans Spares.mono happ', hS⟩

theorem Sparing.adding {c : Emit α} (h : Sparing fn top x b c) : Adding fn top x b P c fun _ _ ↦ True :=
  fun s u a s' u' F he hfn hb h0 hF hfit _ ↦ h s u a s' u' F he hfn hb h0 hF hfit trivial

theorem Adding.imp {c : Emit α} {P' : Function → Prop} {R' : α → Function → Prop} (h : Adding fn top x b P c R)
    (hp : ∀ F, Fitted fn top x F → P' F → P F) (hr : ∀ a F, R a F → R' a F) : Adding fn top x b P' c R' := by
  intro s u a s' u' F he hfn hb h0 hF hfit hP
  obtain ⟨hfn', hb', F', ks, hF', happ, hR⟩ := h s u a s' u' F he hfn hb h0 hF hfit (hp F hfit hP)
  exact ⟨hfn', hb', F', ks, hF', happ, hr a F' hR⟩

theorem Adding.sparing {c : Emit α} (h : Adding fn top x b (fun _ ↦ True) c R) : Sparing fn top x b c :=
  h.imp (fun _ _ h ↦ h) fun _ _ _ ↦ trivial

theorem Adding.keep {c : Emit α} (h : Adding fn top x b P c R) (hP : ∀ {F F'}, F.Earlier F' → P F → P F') :
    Adding fn top x b P c fun a F ↦ P F ∧ R a F := by
  intro s u a s' u' F he hfn hb h0 hF hfit hpre
  obtain ⟨hfn', hb', F', ks, hF', happ, hR⟩ := h s u a s' u' F he hfn hb h0 hF hfit hpre
  exact ⟨hfn', hb', F', ks, hF', happ, hP happ.earlier hpre, hR⟩

theorem Adding.pure {a : α} (h : ∀ F, P F → R a F) : Adding fn top x b P (pure a) R := by
  intro s u a' s' u' F he hfn hb h0 hF hfit hP
  obtain ⟨rfl, rfl, rfl⟩ := Emits.pure_iff.mp he
  exact ⟨hfn, hb, F, [], hF, .refl _ b F, h F hP⟩

theorem Adding.of_same {c : Emit α} (h : ∀ s u a s' u', Emits c s u a s' u' → s'.fn = s.fn ∧
    s'.block = s.block ∧ u' = u) : Adding fn top x b P c fun _ _ ↦ True := by
  intro s u a s' u' F he hfn hb h0 hF _ _
  obtain ⟨hfn', hb', rfl⟩ := h s u a s' u' he
  exact ⟨hfn'.trans hfn, hb'.trans hb, F, [], hF, .refl _ b F, trivial⟩

instance stable_houses {F : Function} : Stable (Houses fn F) fun _ ↦ True where
  fails _ := trivial
  same h hs := ⟨hs.module ▸ h.numbered, hs.module ▸ h.found⟩
  sameFailed _ _ := trivial

@[grind ←] theorem Sparing.bind {c : Emit α} {f : α → Emit β} (hc : Sparing fn top x b c)
    (hf : ∀ a, Sparing fn top x b (f a)) : Sparing fn top x b (c >>= f) := Adding.bind hc hf

@[grind ←] theorem Sparing.pure (a : α) : Sparing fn top x b (pure a) := Adding.pure fun _ h ↦ h

@[grind ←] theorem Sparing.throw {e : CompileError} : Sparing fn top x b (throw e : Emit α) :=
  fun _ _ _ _ _ _ he ↦ absurd he Emits.throw_iff

@[grind ←] theorem Sparing.lift {c : Compile α} (h : Leaves fn c) : Sparing fn top x b (liftM c : Emit α) := by
  intro s u a s' u' F he hfn hb h0 hF _ _
  obtain ⟨rfl, hc⟩ := Emits.lift_iff.mp he
  exact ⟨hfn, hb, F, [], (h F u hF).1 a u' hc, .refl _ b F, trivial⟩

@[grind ←] theorem Sparing.get : Sparing fn top x b (get : Emit Stage) := by
  refine Adding.of_same fun s u a s' u' he ↦ ?_
  obtain ⟨-, rfl, rfl⟩ := Emits.get_iff.mp he
  exact ⟨rfl, rfl, rfl⟩

theorem Sparing.modify {f : Stage → Stage} (h : ∀ s, (f s).fn = s.fn ∧ (f s).block = s.block) :
    Sparing fn top x b (modify f : Emit PUnit) := by
  refine Adding.of_same fun s u a s' u' he ↦ ?_
  obtain ⟨rfl, rfl⟩ := Emits.modify_iff.mp he
  exact ⟨(h s).1, (h s).2, rfl⟩

/-! ### Single instructions -/

def Result (fn : FuncId) (i : Instr) (v : Value) (F : Function) : Prop :=
  ∃ k j, v = .instr ⟨fn, k⟩ i.type ∧ F.instrs[k]? = some j ∧ j.op = i.op ∧ j.operands = i.operands ∧
  j.allocated = i.allocated

theorem emitAt_inv {s s' : Stage} {u u' : CompilationUnit} {v : Value} {i : Instr} {c : Nat} {F : Function}
    (he : Emits (emitAt c i) s u v s' u') (hF : Houses s.fn F u) :
    s' = s ∧ v = .instr ⟨s.fn, F.instrs.size⟩ i.type ∧ Houses s.fn (F.append c i).1 u' := by
  unfold emitAt onModule at he
  simp only [Emits.bind_iff, Emits.get_iff, Emits.lift_iff, Compiles.bind_iff, Compiles.get_iff] at he
  obtain ⟨_, _, _, ⟨rfl, rfl, rfl⟩, rfl, _, _, ⟨rfl, rfl⟩, he⟩ := he
  simp only [Compiles.set_iff, Compiles.pure_iff] at he
  obtain ⟨_, _, rfl, rfl, rfl⟩ := he
  rw [append_eq hF.found]
  exact ⟨rfl, rfl, hF.numbered.modify hF.found (append_id F c i), function?_modify hF.found _⟩

theorem result_append (F : Function) (c : Nat) (i : Instr) :
    Result fn i (.instr ⟨fn, F.instrs.size⟩ i.type) (F.append c i).1 := ⟨_, _, rfl, append_found i, rfl, rfl, rfl⟩

theorem adding_emit {i : Instr} (h : ∀ F F' k, P F → F.Earlier F' → Result fn i (.instr ⟨fn, k⟩ i.type) F' →
    Spares fn top x F' k) : Adding fn top x b P (emit i) (Result fn i) := by
  intro s u a s' u' F he hfn hb h0 hF hfit hP
  unfold emit at he
  simp only [Emits.bind_iff, Emits.get_iff] at he
  obtain ⟨_, _, _, ⟨rfl, rfl, rfl⟩, he⟩ := he
  subst hfn hb
  obtain ⟨rfl, rfl, hF'⟩ := emitAt_inv he hF
  exact ⟨rfl, rfl, _, _, hF', appends_emitted (h F _ _ hP (earlier_append F _ i) (result_append ..)), result_append ..⟩

theorem Result.spares {i : Instr} {F : Function} {k : Nat} (h : Result fn i (.instr ⟨fn, k⟩ i.type) F)
    (hop : i.op.onlyReads = true ∨ i.op.transfers = true) : Spares fn top x F k := by
  obtain ⟨k, j, hv, hj, hjop, -, -⟩ := h
  cases hv
  rw [← hjop] at hop
  exact hop.elim (.reads hj) (.transfers hj)

theorem adding_reads {i : Instr} (hop : i.op.onlyReads = true ∨ i.op.transfers = true) :
    Adding fn top x b P (emit i) (Result fn i) := adding_emit fun _ _ _ _ _ h ↦ h.spares hop

@[grind ←] theorem sparing_reads {i : Instr} (hop : i.op.onlyReads = true) : Sparing fn top x b (emit i) :=
  (adding_reads (.inl hop)).sparing

@[grind ←] theorem sparing_transfers {i : Instr} (hop : i.op.transfers = true) : Sparing fn top x b (emit i) :=
  (adding_reads (.inr hop)).sparing

theorem sparing_store_slot (v p : Value) :
    Adding fn top x b (fun F ↦ IsSlot fn F p v.type ∧ p ≠ x) (store v p) fun _ _ ↦ True := by
  refine Adding.bind (adding_emit fun F F' k hP hF' hresult ↦ ?_) fun _ ↦ (Sparing.pure _).adding
  obtain ⟨k, j, hv, hj, hop, hoperands, -⟩ := hresult
  cases hv
  exact .fills hj hop hoperands (hP.1.mono hF') hP.2

theorem sparing_store_through (v p : Value) : Adding fn top x b (fun F ↦ IsTop fn top F p)
    (store v p) fun _ _ ↦ True := by
  refine Adding.bind (adding_emit fun F F' k hP hF' hresult ↦ ?_) fun _ ↦ (Sparing.pure _).adding
  obtain ⟨k, j, hv, hj, hop, hoperands, -⟩ := hresult
  cases hv
  exact .pushes hj hop hoperands (hP.mono hF')

theorem adding_slotFor (t : Ssa.Ty) (name : String) :
    Adding fn top x b P (slotFor t name) fun p F ↦ IsSlot fn F p t ∧ p ≠ x := by
  intro s u p s' u' F he hfn hb h0 hF hfit _
  subst hfn
  obtain ⟨rfl, rfl, hF'⟩ := emitAt_inv he hF
  refine ⟨rfl, hb, _, [], hF', appends_elsewhere h0.symm _, ⟨_, _, rfl, append_found _, rfl, rfl, rfl⟩, ?_⟩
  obtain ⟨t', k, i, rfl, hi, -⟩ := hfit.slot
  intro heq
  cases heq
  have := (Array.getElem?_eq_some_iff.mp hi).1
  omega

@[grind ←] theorem sparing_constant (c : Const) : Sparing fn top x b (constant c) := by
  refine Adding.of_same fun s u a s' u' he ↦ ?_
  obtain ⟨h, rfl⟩ := Emits.modifyGet_iff.mp he
  cases h
  exact ⟨rfl, rfl, rfl⟩

@[grind ←] theorem sparing_intConst (t : Ssa.Ty) (n : Int) : Sparing fn top x b (intConst t n) := sparing_constant _

@[grind ←] theorem sparing_emitOr (v : Value) {i : Option Instr} (h : ∀ j ∈ i, j.op.onlyReads = true) :
    Sparing fn top x b (emitOr v i) := by
  cases i with
  | none => exact .pure v
  | some i => exact sparing_reads (h i rfl)

theorem adding_load (p : Value) : Adding fn top x b P (load p) (Result fn (.load p "")) := adding_reads (.inl rfl)

@[grind ←] theorem sparing_load (p : Value) : Sparing fn top x b (load p) := sparing_reads rfl

theorem adding_castTo {op : Ssa.Op} (h : op.isCast = true) (v : Value) (t : Ssa.Ty) :
    Adding fn top x b P (castTo op v t) (Result fn (.cast op v t "")) :=
  adding_reads (.inl (by cases op <;> first | rfl | cases h))

@[grind ←] theorem sparing_castTo {op : Ssa.Op} (h : op.isCast = true) (v : Value) (t : Ssa.Ty) :
    Sparing fn top x b (castTo op v t) := (adding_castTo h v t).sparing

@[grind ←] theorem sparing_pointerTo (v : Value) (t : Ssa.Ty) : Sparing fn top x b (pointerTo v t) := by
  refine sparing_emitOr v fun j hj ↦ ?_
  unfold Instr.pointerCast? at hj
  split at hj
  · cases hj
  · cases hj
    rfl

/-! ### The run-time stack -/

theorem adding_advance (p : Value) (n : Int) :
    Adding fn top x b P (advance p n) fun v _ ↦ v.type = .bytePointer := by
  refine Adding.bind (sparing_castTo rfl _ _).adding fun i ↦ .bind (sparing_intConst _ _).adding fun c ↦
    .bind (sparing_reads rfl).adding fun sum ↦ (adding_castTo rfl sum _).imp (fun _ _ h ↦ h) ?_
  rintro v F ⟨k, j, rfl, -⟩
  rfl

theorem adding_pointerTo_top (v : Value) (t : Ssa.Ty) :
    Adding fn top x b (fun F ↦ IsTop fn top F v) (pointerTo v t) fun p F ↦ IsTop fn top F p := by
  unfold pointerTo Instr.pointerCast? emitOr
  split
  · rename_i i hi
    split at hi
    · cases hi
    · cases hi
      refine Adding.imp (Adding.keep (adding_reads (.inl rfl)) IsTop.mono) (fun _ _ h ↦ h) ?_
      rintro p F ⟨hv, k, j, rfl, hj, hop, hoperands, -⟩
      exact .retyped hj hop hoperands hv
  · exact .pure fun _ h ↦ h

theorem adding_load_top : Adding fn top x b P (load top) fun v F ↦ IsTop fn top F v := by
  refine (adding_load top).imp (fun _ _ h ↦ h) ?_
  rintro v F ⟨k, j, rfl, hj, hop, hoperands, -⟩
  exact .loaded hj hop hoperands

theorem sparing_store_top (v : Value) : Adding fn top x b (fun _ ↦ v.type = .bytePointer) (store v top) fun _ _ ↦
    True :=
  (sparing_store_slot v top).imp (fun _ hfit h ↦ ⟨h ▸ hfit.cursor, hfit.apart⟩) fun _ _ h ↦ h

theorem sparing_pushBuffer (v : Value) (n : Int) : Sparing fn top x b (pushBuffer top v n) := by
  unfold pushBuffer
  refine Adding.bind adding_load_top fun p ↦ ?_
  refine Adding.bind (adding_pointerTo_top p _) fun q ↦ ?_
  refine Adding.bind (sparing_store_through v q) fun _ ↦ ?_
  exact Adding.bind (adding_advance p n) fun w ↦ sparing_store_top w

theorem sparing_popBuffer (t : Ssa.Ty) (n : Int) : Sparing fn top x b (popBuffer top t n) := by
  unfold popBuffer
  refine Adding.bind (sparing_load top) fun p ↦ ?_
  refine Adding.bind (adding_advance p _) fun w ↦ ?_
  refine Adding.bind (sparing_store_top w) fun _ ↦ ?_
  exact Sparing.bind (sparing_pointerTo w _) fun q ↦ sparing_load q

theorem sparing_spill (v : Value) {f : Value → Emit α} (h : ∀ p, Sparing fn top x b (f p)) :
    Sparing fn top x b (do
      let slot ← slotFor v.type "spill"
      store v slot
      f slot) :=
  Adding.bind (adding_slotFor v.type "spill") fun p ↦
    .bind (sparing_store_slot v p) fun _ ↦ h p

@[grind ←] theorem sparing_materialize (v : Operand) : Sparing fn top x b (materialize v) := by grind [materialize]

@[grind ←] theorem sparing_deref (v : Operand) : Sparing fn top x b (deref v) := by grind [deref]

@[grind ←] theorem sparing_spilled (v : Operand) : Sparing fn top x b (spilled v) := by
  refine (sparing_materialize v).bind fun v ↦ ?_
  split
  · exact sparing_spill v.value fun p ↦ .pure _
  · exact .pure v

end

/-! ### At a site -/

section

variable {α β : Type} {fn : FuncId} {x : Value} {b : Nat} {site : Site}

@[grind ←] theorem SparingAt.bind {c : Lower α} {f : α → Lower β} (hc : SparingAt fn x b site c)
    (hf : ∀ a, SparingAt fn x b site (f a)) : SparingAt fn x b site (c >>= f) := Sparing.bind hc hf

@[grind ←] theorem SparingAt.pure (a : α) : SparingAt fn x b site (pure a) := Sparing.pure a

@[grind ←] theorem SparingAt.throw {e : CompileError} : SparingAt fn x b site (throw e : Lower α) := Sparing.throw

@[grind ←] theorem SparingAt.read_bind {f : Site → Lower β} (h : SparingAt fn x b site (f site)) :
    SparingAt fn x b site (read >>= f) := h

@[grind ←] theorem SparingAt.lift {c : Emit α} (h : Sparing fn site.top x b c) : SparingAt fn x b site (liftM c) := h

@[grind ←] theorem SparingAt.compile {c : Compile α} (h : Leaves fn c) : SparingAt fn x b site (liftM c : Lower α) :=
  Sparing.lift h

@[grind ←] theorem SparingAt.stage : SparingAt fn x b site (getThe Stage) := Sparing.get

theorem SparingAt.modifyThe {f : Stage → Stage} (h : ∀ s, (f s).fn = s.fn ∧ (f s).block = s.block) :
    SparingAt fn x b site (modifyThe Stage f) := Sparing.modify h

@[grind ←] theorem SparingAt.mapM {f : α → Lower β} {as : List α} (h : ∀ a ∈ as, SparingAt fn x b site (f a)) :
    SparingAt fn x b site (as.mapM f) := by
  induction as with
  | nil => exact .pure _
  | cons a as ih =>
    rw [List.mapM_cons]
    refine (h a List.mem_cons_self).bind fun b ↦ ?_
    exact (ih fun a ha ↦ h a (List.mem_cons_of_mem _ ha)).bind fun bs ↦ .pure _

@[grind ←] theorem SparingAt.forM {f : α → Lower PUnit} {as : List α} (h : ∀ a ∈ as, SparingAt fn x b site (f a)) :
    SparingAt fn x b site (as.forM f) := by
  induction as with
  | nil => exact .pure _
  | cons a as ih => exact (h a List.mem_cons_self).bind fun _ ↦ ih fun a ha ↦ h a (List.mem_cons_of_mem _ ha)

@[grind ←] theorem leaves_sizeOf (t : Ssa.Ty) : Leaves fn (sizeOf t) := fun _ ↦ spec_sizeOf t

theorem leaves_get : Leaves fn (get : Compile CompilationUnit) := fun _ ↦ .get fun _ hu ↦ hu

@[grind ←] theorem sparing_counterpart (hsite : site.Leaves fn) (t : Ty) : SparingAt fn x b site (counterpart t) := by
  exact .read_bind (.compile fun F ↦ (hsite.types t F).bind fun ct ↦ .pure fun _ hu ↦ hu)

@[grind ←] theorem sparing_operandSize (hsite : site.Leaves fn) (t : Ty) : SparingAt fn x b site (operandSize t) :=
  SparingAt.bind (sparing_counterpart hsite t) fun c ↦ .compile (leaves_sizeOf c)

@[grind ←] theorem sparing_emitCall (f : FuncId) (args : List Value) : Sparing fn site.top x b (emitCall f args) := by
  exact Sparing.bind (.lift leaves_get) fun u ↦ sparing_transfers rfl

@[grind ←] theorem sparing_convertByOperator (hsite : site.Leaves fn) (v : Operand) (t : Ty) :
    SparingAt fn x b site (convertByOperator v t) := by
  refine .read_bind ?_
  cases hm : site.world.conversion? v.type t with
  | none => exact .throw
  | some m =>
    have hmem : m ∈ site.world.methods v.type ++ site.world.methods t := List.mem_of_find?_eq_some hm
    obtain ⟨id, hid⟩ : ∃ id, site.world.method? id = some m := by
      rcases List.mem_append.mp hmem with h | h
      · obtain ⟨id, -, hid⟩ := List.mem_filterMap.mp h
        exact ⟨id, hid⟩
      · obtain ⟨id, -, hid⟩ := List.mem_filterMap.mp h
        exact ⟨id, hid⟩
    exact SparingAt.bind (.compile (hsite.methods m (hsite.consistent id m hid))) fun f ↦ sparing_emitCall f _

theorem onlyReads_of_intCast? {v : Value} {t : Ssa.Ty} {signed : Bool} {name : String} :
    ∀ j ∈ Instr.intCast? v t signed name, j.op.onlyReads = true := by
  unfold Instr.intCast?
  split
  · rintro _ ⟨⟩
    rfl
  · split
    · rintro _ ⟨⟩
      cases signed <;> rfl
    · intro j hj
      cases hj

theorem onlyReads_of_floatCast? {v : Value} {t : Ssa.Ty} {name : String} :
    ∀ j ∈ Instr.floatCast? v t name, j.op.onlyReads = true := by
  unfold Instr.floatCast?
  split
  · intro j hj
    cases hj
  · split <;> (rintro _ ⟨⟩; rfl)

@[grind ←] theorem sparing_convertValue (hsite : site.Leaves fn) (v : Operand) (t : Ty) (dst : Ssa.Ty) :
    SparingAt fn x b site (convertValue v t dst) := by
  unfold convertValue noConversion
  dsimp only
  split
  · exact .pure _
  split
  · exact sparing_convertByOperator hsite v t
  · exact sparing_convertByOperator hsite v t
  · exact .lift (sparing_emitOr _ onlyReads_of_intCast?)
  · exact .lift (sparing_castTo rfl _ _)
  · exact .lift (sparing_castTo (by split <;> rfl) _ _)
  · exact .lift (sparing_castTo (by split <;> rfl) _ _)
  · exact .lift (sparing_emitOr _ onlyReads_of_floatCast?)
  · exact .lift (sparing_emitOr _ onlyReads_of_floatCast?)
  · exact .lift (sparing_emitOr _ onlyReads_of_floatCast?)
  · exact .lift (sparing_emitOr _ onlyReads_of_floatCast?)
  · exact .lift (sparing_castTo (by split <;> rfl) _ _)
  · exact .lift (sparing_castTo (by split <;> rfl) _ _)
  · exact SparingAt.bind (.lift (sparing_castTo (by split <;> rfl) _ _)) fun _ ↦ .lift (sparing_castTo rfl _ _)
  · exact SparingAt.bind (.lift (sparing_castTo (by split <;> rfl) _ _)) fun _ ↦ .lift (sparing_castTo rfl _ _)
  · exact .lift (sparing_pointerTo _ _)
  · exact .lift (sparing_castTo rfl _ _)
  · exact SparingAt.bind (.lift (sparing_castTo rfl _ _)) fun _ ↦ .lift (sparing_castTo (by split <;> rfl) _ _)
  · exact SparingAt.bind (.lift (sparing_castTo rfl _ _)) fun _ ↦ .lift (sparing_castTo (by split <;> rfl) _ _)
  · exact .throw

@[grind ←] theorem sparing_convertDirectly (hsite : site.Leaves fn) (v : Operand) (t : Ty) :
    SparingAt fn x b site (convertDirectly v t) := by
  unfold convertDirectly
  split
  · exact SparingAt.bind (sparing_counterpart hsite t) fun c ↦ .bind (.lift (sparing_castTo rfl _ _)) fun _ ↦ .pure _
  · refine SparingAt.read_bind ?_
    split
    · exact .throw
    · exact SparingAt.bind (sparing_counterpart hsite t) fun c ↦ .bind (sparing_convertValue hsite v t c) fun _ ↦
        .pure _

@[grind ←] theorem sparing_convertFrom (hsite : site.Leaves fn) (target t : Ty) (v : Value) (slot : Bool) :
    SparingAt fn x b site (convertFrom target t v slot) := by
  fun_induction convertFrom target t v slot <;> grind

@[grind ←] theorem sparing_convert (hsite : site.Leaves fn) (v : Operand) (t : Ty) :
    SparingAt fn x b site (convert v t) := sparing_convertFrom hsite t v.type v.value v.slot

@[grind ←] theorem sparing_address (hsite : site.Leaves fn) (v : Operand) (elem : Ty) :
    SparingAt fn x b site (address v elem) := by
  refine SparingAt.bind (sparing_counterpart hsite elem) fun c ↦ ?_
  dsimp only
  split
  · exact .pure _
  refine SparingAt.bind (.lift (sparing_materialize v)) fun w ↦ ?_
  split
  · exact .lift (sparing_pointerTo _ _)
  · exact sparing_spill (f := fun p ↦ pointerTo p _) w.value fun p ↦ sparing_pointerTo p _
  · exact .lift (sparing_castTo rfl _ _)
  · exact .throw

@[grind ←] theorem sparing_takeEntry (hint : Option Ty) : Sparing fn site.top x b (takeEntry hint) := by
  refine Adding.of_same fun s u a s' u' he ↦ ?_
  obtain ⟨s₁, _, _, h, he⟩ := Emits.bind_iff.mp he
  obtain ⟨rfl, rfl, rfl⟩ := Emits.get_iff.mp h
  dsimp only at he
  have hset : ∀ {v : Stage} {t : Ty}, v.fn = s.fn → v.block = s.block →
      Emits (do set v; return t) s u a s' u' → s'.fn = s.fn ∧ s'.block = s.block ∧ u' = u := by
    intro v t hfn hb he
    obtain ⟨_, _, _, hset, he⟩ := Emits.bind_iff.mp he
    obtain ⟨rfl, rfl⟩ := Emits.set_iff.mp hset
    obtain ⟨-, rfl, rfl⟩ := Emits.pure_iff.mp he
    exact ⟨hfn, hb, rfl⟩
  split at he
  · refine hset ?_ ?_ he <;> rfl
  · split at he
    · split at he
      · refine hset ?_ ?_ he <;> rfl
      · exact absurd he Emits.throw_iff
    · exact absurd he Emits.throw_iff

@[grind ←] theorem sparing_popRaw (hsite : site.Leaves fn) (hint : Option Ty) : SparingAt fn x b site
    (popRaw hint) := by
  intro s u a s' u' F he hfn hb h0 hF hfit hP
  obtain ⟨s₁, _, _, h, he'⟩ := Lowers.bind_iff.mp he
  obtain ⟨rfl, rfl, rfl⟩ := Lowers.getThe_iff.mp h
  split at he'
  · obtain ⟨_, _, _, hset, he'⟩ := Lowers.bind_iff.mp he'
    obtain ⟨rfl, rfl⟩ := Lowers.set_iff.mp hset
    obtain ⟨-, rfl, rfl⟩ := Lowers.pure_iff.mp he'
    exact ⟨hfn, hb, F, [], hF, .refl _ b F, trivial⟩
  · have h : SparingAt fn x b site (do
        let t ← takeEntry hint
        let code ← counterpart t
        let size ← sizeOf code
        return ⟨t, ← popBuffer (← read).top code size, false⟩ : Lower Operand) := by
      refine SparingAt.bind (.lift (sparing_takeEntry hint)) fun t ↦ .bind (sparing_counterpart hsite t) fun c ↦
        .bind (.compile (leaves_sizeOf c)) fun n ↦ .read_bind ?_
      exact SparingAt.bind (.lift (sparing_popBuffer c n)) fun v ↦ .pure _
    exact h s u a s' u' F he' hfn hb h0 hF hfit hP

@[grind ←] theorem sparing_pop (hsite : site.Leaves fn) (t : Ty) : SparingAt fn x b site (pop t) :=
  SparingAt.bind (sparing_popRaw hsite _) fun v ↦ sparing_convert hsite v t

@[grind ←] theorem sparing_settleEntry (start : Nat) : Sparing fn site.top x b (settleEntry start) := by
  refine .modify fun s ↦ ?_
  split <;> exact ⟨rfl, rfl⟩

@[grind ←] theorem sparing_sameShape (hsite : site.Leaves fn) (as bs : List Ty) :
    SparingAt fn x b site (sameShape as bs) := by
  fun_induction sameShape as bs <;> grind

@[grind ←] theorem sparing_pushAll (depth : Int) (vs : List Operand) :
    SparingAt fn x b site (pushAll depth vs) := by
  induction vs generalizing depth with
  | nil => exact .pure _
  | cons v vs ih =>
    refine SparingAt.read_bind (.bind (.lift (sparing_spilled v)) fun w ↦ .bind (.compile (leaves_sizeOf _)) fun n ↦ ?_)
    have hrest : SparingAt fn x b site (do
        pushBuffer site.top w.value n
        return w.type :: (← pushAll (depth + n) vs)) :=
      SparingAt.bind (.lift (sparing_pushBuffer w.value n)) fun _ ↦ .bind (ih _) fun ts ↦ .pure _
    dsimp only
    split
    · exact .bind .throw fun _ ↦ hrest
    · exact hrest

@[grind ←] theorem sparing_recordEntry (hsite : site.Leaves fn) (shape : List Ty) (offset : Nat) :
    SparingAt fn x b site (recordEntry shape offset) := by
  intro s u a s' u' F he hfn hb h0 hF hfit hP
  obtain ⟨s₁, _, _, h, he'⟩ := Lowers.bind_iff.mp he
  obtain ⟨rfl, rfl, rfl⟩ := Lowers.getThe_iff.mp h
  split at he'
  · obtain ⟨rfl, rfl⟩ := Lowers.set_iff.mp he'
    exact ⟨hfn, hb, F, [], hF, .refl _ b F, trivial⟩
  · rename_i known _
    have h : SparingAt fn x b site (do
        if !(← sameShape known shape) then throw (.shape shape known offset) : Lower Unit) := by grind
    exact h s u a s' u' F he' hfn hb h0 hF hfit hP

@[grind ←] theorem sparing_flush (hsite : site.Leaves fn) (start : Nat) (successors : List Nat) :
    SparingAt fn x b site (flush start successors) := by
  unfold flush
  refine SparingAt.bind (.lift (sparing_settleEntry start)) fun _ ↦ .bind .stage fun s ↦ ?_
  refine SparingAt.bind (.mapM fun t _ ↦ sparing_operandSize hsite t) fun sizes ↦
    .bind (sparing_pushAll _ _) fun above ↦ ?_
  exact SparingAt.bind (.modifyThe fun _ ↦ ⟨rfl, rfl⟩) fun _ ↦ .forM fun o _ ↦ sparing_recordEntry hsite _ o

@[grind ←] theorem sparing_blockAt (offset : Nat) : SparingAt fn x b site (blockAt offset) := by grind [blockAt]

@[grind ←] theorem sparing_unsupported (i : Instruction) (reason : String) :
    SparingAt fn x b site (unsupported i reason : Lower α) := by grind [unsupported]

theorem sparing_unsupported_bind (i : Instruction) (reason : String) (f : α → Lower β) :
    SparingAt fn x b site (unsupported i reason >>= f) := by
  intro s u a s' u' F he
  obtain ⟨_, _, _, h, -⟩ := Lowers.bind_iff.mp he
  cases h

@[grind ←] theorem sparing_slotNumbered (what : String) (slots : List Operand) (n : Int) :
    SparingAt fn x b site (slotNumbered what slots n) := by grind [slotNumbered]

@[grind ←] theorem sparing_push (v : Operand) : Sparing fn site.top x b (push v) := Sparing.modify fun _ ↦ ⟨rfl, rfl⟩

@[grind ←] theorem leaves_resolve (ask : Resolver → Except ResolutionError α × Resolver × List Resolver.Attempt) :
    Leaves fn (resolve ask) := fun _ ↦ spec_resolve ask

@[grind ←] theorem sparing_typeOperand (i : Instruction) : SparingAt fn x b site (typeOperand i) := by
  grind [typeOperand]

@[grind ←] theorem sparing_fieldOperand (hsite : site.Leaves fn) (i : Instruction) :
    SparingAt fn x b site (fieldOperand i) := by
  grind [fieldOperand]

@[grind ←] theorem sparing_operands (hsite : site.Leaves fn) : SparingAt fn x b site operands := by grind [operands]

@[grind ←] theorem sparing_arith (hsite : site.Leaves fn) (i : Instruction) (op : Arith) :
    SparingAt fn x b site (arith i op) := by
  have hemit : ∀ (code : Ssa.Op) (p : Operand × Operand), code.onlyReads = true → SparingAt fn x b site (do
      push ⟨p.2.type, ← emit (.binary code p.1.value p.2.value ""), false⟩) :=
    fun code p h ↦ SparingAt.bind (.lift (sparing_reads h)) fun _ ↦ .lift (sparing_push _)
  refine SparingAt.bind (sparing_operands hsite) fun p ↦ ?_
  dsimp only
  split
  · rw [pure_bind]
    exact hemit _ p (by cases op <;> rfl)
  · rw [pure_bind]
    exact hemit _ p (by cases op <;> rfl)
  · rw [pure_bind]
    exact hemit _ p (by cases op <;> rfl)
  · exact sparing_unsupported_bind _ _ _

@[grind ←] theorem sparing_compare (hsite : site.Leaves fn) (i : Instruction) (c : Comparison) :
    SparingAt fn x b site (compare i c) := by
  refine SparingAt.bind (sparing_operands hsite) fun p ↦ ?_
  dsimp only
  split
  · exact .lift (sparing_reads rfl)
  · exact .lift (sparing_reads rfl)
  · exact .lift (sparing_reads rfl)
  · exact .lift (sparing_reads rfl)
  · exact sparing_unsupported i _

@[grind ←] theorem sparing_truth (i : Instruction) (v : Operand) (want : Bool) :
    SparingAt fn x b site (truth i v want) := by
  unfold truth
  grind [Ssa.Op.onlyReads, Instr.icmp, Instr.fcmp]

@[grind ←] theorem sparing_branchOn (hsite : site.Leaves fn) (start : Nat) (i : Instruction) (c : Value) :
    SparingAt fn x b site (branchOn start i c) :=
  SparingAt.bind (sparing_flush hsite start _) fun _ ↦ .bind (sparing_blockAt _) fun _ ↦
    .bind (sparing_blockAt _) fun _ ↦ .bind (.lift (sparing_transfers rfl)) fun _ ↦ .pure _

@[grind ←] theorem sparing_returnFrom (hsite : site.Leaves fn) (start : Nat) : SparingAt fn x b site
    (returnFrom start) := by
  refine SparingAt.read_bind ?_
  dsimp only
  split
  · exact SparingAt.bind (sparing_flush hsite start _) fun _ ↦ .bind (.lift (sparing_transfers rfl)) fun _ ↦ .pure _
  · exact SparingAt.bind (sparing_pop hsite _) fun v ↦ .bind (sparing_flush hsite start _) fun _ ↦
      .bind (.lift (sparing_transfers rfl)) fun _ ↦ .pure _

@[grind ←] theorem sparing_convertTop (hsite : site.Leaves fn) (t : Ty) : SparingAt fn x b site (convertTop t) := by
  grind [convertTop]

@[grind ←] theorem sparing_convertTopUnsigned (hsite : site.Leaves fn) : SparingAt fn x b site convertTopUnsigned := by
  grind [convertTopUnsigned, Ssa.Op.isCast]

@[grind ←] theorem sparing_loadObject (hsite : site.Leaves fn) (t : Ty) : SparingAt fn x b site (loadObject t) := by
  grind [loadObject]

@[grind ←] theorem sparing_fieldPointer (hsite : site.Leaves fn) (f : Field) (index : Nat) :
    SparingAt fn x b site (fieldPointer f index) := by
  exact SparingAt.bind (sparing_popRaw hsite _) fun v ↦ .bind (sparing_address hsite v _) fun p ↦
    .bind (.compile leaves_get) fun u ↦ .lift (sparing_reads rfl)

/-- May write to a local or an argument, and settles all pending operands before. -/
def Action.settles : Action → Bool
  | .storeArg _ | .storeLocal _ | .storeThrough _ | .storeObject | .initObject | .storeField | .newObject | .call =>
  true
  | _ => false

/-- An instruction that does not settle the pending operands adds code that spares the slot. -/
theorem sparing_lower (hsite : site.Leaves fn) (start : Nat) (i : Instruction) (h : (action i).settles = false) :
    SparingAt fn x b site (lower start i) := by
  unfold lower
  split <;> (rename_i hi; rw [hi] at h)
  all_goals first | (cases h; done) | grind [argument, localSlot, Ssa.Op.onlyReads, Ssa.Op.transfers,
    Instr.select, Instr.br]

end

end CilSsa.Lowering

