import CilSsa.Proofs.OperandOrder
import CilSsa.Proofs.SoundUnits

namespace CilSsa.Ssa

def Ty.isHollow : Ty → Bool
  | .pointer t => t == .void || t.isHollow
  | _ => false

/-- The instruction makes a pointer that leads to nothing, or finds no member, or reads what has no value. -/
def Instr.isHollow (i : Instr) : Bool :=
  i.type.isHollow || (i.op == .gep && i.type == .void) || i.operands.any fun o ↦ o.any fun v ↦ v.type == .void

def Function.isHollow (f : Function) : Bool := f.instrs.any Instr.isHollow

/-- Values of the type can be kept in memory. -/
structure Module.Stores (m : Module) (t : Ty) : Prop where
  hasValue : t.hasValue = true
  kind : t.kind ≠ 7
  body : m.lacksBody t = false

theorem Module.Stores.mono {m m' : Module} {t : Ty} (h : m.Precedes m') (ht : m.Stores t) : m'.Stores t :=
  { ht with body := h.lacksBody ht.body }

section

variable {m : Module} {f g : Function} {i : Instr} {v w c : Value} {t : Ty} {k : Nat} {name : String}
  {op : Op} {p : Pred}

theorem Function.isHollow_iff : f.isHollow = true ↔ ∃ (k : Nat) (i : Instr), f.instrs[k]? = some i ∧
    i.isHollow = true := by
  rw [Function.isHollow, Array.any_eq_true]
  constructor
  · rintro ⟨k, hk, h⟩
    exact ⟨k, _, Array.getElem?_eq_getElem hk, h⟩
  · rintro ⟨k, i, hi, h⟩
    obtain ⟨hk, rfl⟩ := Array.getElem?_eq_some_iff.mp hi
    exact ⟨k, hk, h⟩

theorem Function.isHollow_mono (h : f.Earlier g) (hf : f.isHollow = true) : g.isHollow = true := by
  obtain ⟨k, i, hi, hhollow⟩ := Function.isHollow_iff.mp hf
  exact Function.isHollow_iff.mpr ⟨k, i, h k i hi, hhollow⟩

theorem Function.isHollow_append (b : Nat) (hi : i.isHollow = true) : (f.append b i).1.isHollow = true :=
  Function.isHollow_iff.mpr ⟨f.instrs.size, _, Lowering.append_found i, hi⟩

theorem Instr.isHollow_of_type (h : i.type.isHollow = true) : i.isHollow = true := by
  simp [Instr.isHollow, h]

theorem Instr.isHollow_of_operand (hv : some v ∈ i.operands) (h : v.type = .void) : i.isHollow = true := by
  unfold Instr.isHollow
  rw [Bool.or_eq_true, List.any_eq_true]
  exact .inr ⟨some v, hv, by simp [h]⟩

/-! ### Instructions that keep the rules -/

theorem fitting_alloca (name : String) (h : m.Stores t) : m.Fitting (.alloca t name) := by
  refine ⟨fun m' hm F ↦ ?_, nofun, rfl⟩
  simp [Module.checkInstr, Instr.alloca, when, h.hasValue, h.kind, hm.lacksBody h.body]

theorem fitting_arrayAlloca (name : String) (h : m.Stores t) (hv : v.type.isInt = true) :
    m.Fitting (.arrayAlloca t (some v) name) := by
  refine ⟨fun m' hm F ↦ ?_, values_one ?_, rfl⟩
  · simp [Module.checkInstr, Instr.arrayAlloca, when, h.hasValue, h.kind, hm.lacksBody h.body, hv]
  · cases hk : v.type <;> simp_all [Ty.isInt, Ty.hasValue]

theorem fitting_gep {id n : Nat} {struct : String} {body : List Ty} (name : String)
    (hv : v.type = .pointer (.struct id struct)) (hbody : m.fields? (.struct id struct) = some body)
    (hn : n < body.length) : m.Fitting (.gep (some body) v n name) := by
  refine ⟨fun m' hm F ↦ checkOperands_one (v := v) rfl ?_, values_one (by rw [hv]; rfl), rfl⟩
  have hle : ¬ (n : Int) < 0 := by omega
  rw [hv]
  simp only [Module.fields?_mono hbody hm, Instr.gep]
  simp [when, hn, hle]

theorem fitting_binary (name : String) (hop : op ∈ [Op.add, .sub, .mul] ∧ w.type.isInt = true ∨
    op ∈ [Op.fadd, .fsub, .fmul] ∧ w.type.isFloating = true) (hv : v.type = w.type) :
    m.Fitting (.binary op v w name) := by
  have hvalue : w.type.hasValue = true := by
    cases hk : w.type <;> simp_all [Ty.isInt, Ty.isFloating, Ty.hasValue]
  have hsame : ∀ {fits : Ty → Bool} {what : String}, fits w.type = true → sameTypes fits what v.type w.type = [] := by
    intro fits what hfits
    simp [sameTypes, when, hv, hfits]
  refine ⟨fun m' _ F ↦ ?_, values_two (hv ▸ hvalue) hvalue, ?_⟩
  · rcases hop with ⟨hop, hw⟩ | ⟨hop, hw⟩ <;> simp only [List.mem_cons, List.not_mem_nil, or_false] at hop <;>
      rcases hop with rfl | rfl | rfl <;> exact checkOperands_two (v := v) (w := w) rfl (hsame hw)
  · rcases hop with ⟨hop, -⟩ | ⟨hop, -⟩ <;> simp only [List.mem_cons, List.not_mem_nil, or_false] at hop <;>
      rcases hop with rfl | rfl | rfl <;> rfl

theorem fitting_icmp (name : String) (hp : p ≠ .other 0) (hf : p.isFloat = false) (hv : v.type = w.type)
    (hw : (w.type.isInt || w.type.isPointer) = true) : m.Fitting (.icmp p (some v) (some w) name) := by
  have hvalue : w.type.hasValue = true := by
    cases hk : w.type <;> simp_all [Ty.isInt, Ty.isPointer, Ty.hasValue]
  refine ⟨fun m' _ F ↦ checkOperands_two (v := v) (w := w) rfl ?_, values_two (hv ▸ hvalue) hvalue, rfl⟩
  simp only [sameTypes, hv, ne_eq, not_true_eq_false, if_false, Instr.icmp]
  simp [when, hw, hp, hf]

theorem fitting_fcmp (name : String) (hp : p.isFloat = true) (hv : v.type = w.type) (hw : w.type.isFloating = true) :
    m.Fitting (.fcmp p (some v) (some w) name) := by
  have hvalue : w.type.hasValue = true := by
    cases hk : w.type <;> simp_all [Ty.isFloating, Ty.hasValue]
  refine ⟨fun m' _ F ↦ checkOperands_two (v := v) (w := w) rfl ?_, values_two (hv ▸ hvalue) hvalue, rfl⟩
  simp only [sameTypes, hv, ne_eq, not_true_eq_false, if_false, Instr.fcmp]
  simp [when, hw, hp]

theorem fitting_select (name : String) (hc : c.type = .i1) (hv : v.type = w.type) (hw : w.type.hasValue = true) :
    m.Fitting (.select c v w name) := by
  refine ⟨fun m' _ F ↦ ?_, ?_, rfl⟩
  · have hchecked : ∀ check : List Ty → List Violation, check [c.type, v.type, w.type] = [] →
        Module.checkOperands 3 (.select c v w name) check = [] := by
      intro check h
      unfold Module.checkOperands operandTypes
      by_cases hu : w.type = .untyped
      · rw [hu] at hw
        cases hw
      · have hu' : c.type ≠ .untyped := by rw [hc]; exact Ty.noConfusion
        simpa [Instr.select, hu, hu', hv] using hv ▸ h
    exact hchecked _ (by simp [when, hc, hv, Instr.select])
  · rintro x (_ | ⟨_, _ | ⟨_, _ | ⟨_, ⟨⟩⟩⟩⟩)
    · rw [hc]
      rfl
    · exact hv ▸ hw
    · exact hw

end

end CilSsa.Ssa

namespace CilSsa.Lowering

open CilSsa.Bytecode CilSsa.Metadata
open CilSsa.Ssa (BlockId Const FuncId Function Instr Module Value)

/-- An operand is carried by a value as its type asks for; a slot is one of something. -/
structure Apt (u : CompilationUnit) (w : Operand) : Prop where
  stands : Stands u w.type w.value.type
  slot : w.slot = true → w.type.elem.isVoid = false

/-- Where block `b` of function `fn` is being lowered all pending operands are carried as their types ask for. -/
structure Laden (fn : FuncId) (b : Nat) (u : CompilationUnit) (s : Stage) : Prop where
  own : s.fn = fn
  block : s.block = b
  pending : ∀ w ∈ s.pending, Apt u w

/-- Lowering from the unit `u` that keeps operands apt, adds nothing but instructions that keep the rules of their
operations, and gives a value as `R` has it. -/
def Minding (world : Universe) (fn : FuncId) (b : Nat) {α : Type} (u : CompilationUnit) (c : Emit α)
    (R : α → CompilationUnit → Prop) : Prop :=
  ∀ s a s' u' F, Emits c s u a s' u' → Laden fn b u s → Houses fn F u → Sound world u →
    Laden fn b u' s' ∧ R a u' ∧ ∃ F', Gained (Sound world) fn b u F u' F'

/-- What is fixed for a body fits its types. -/
structure Site.Supplied (u : CompilationUnit) (site : Site) : Prop where
  converts : site.Converts
  slots : ∀ w ∈ site.args ++ site.locals, Apt u w
  locals : ∀ w ∈ site.locals, w.slot = true
  top : site.top.type = .pointer .bytePointer

section

variable {world : Universe} {fn : FuncId} {b n : Nat} {F F' : Function} {site : Site} {u u' : CompilationUnit}
  {s s' : Stage} {t : Ty} {v p : Value} {w : Operand} {e c : Ssa.Ty}

/-! ### Operands that are carried as they should be -/

theorem Apt.mono (h : Extended u u') (hw : Apt u w) : Apt u' w := ⟨hw.stands.mono h, hw.slot⟩

theorem Stands.apt (h : Stands u t v.type) : Apt u ⟨t, v, false⟩ := ⟨h, fun h ↦ absurd h Bool.false_ne_true⟩

/-- An operand that was brought to a type; a slot is one of that type already. -/
structure Brought (u : CompilationUnit) (t : Ty) (w : Operand) : Prop where
  type : w.type = t
  yields : Yields u t w.value.type
  slot : w.slot = true → t.elem.isVoid = false

theorem Brought.apt (h : Brought u t w) (ht : t.isVoid = false) : Apt u w :=
  ⟨h.type ▸ h.yields.stands ht, fun hslot ↦ h.type ▸ h.slot hslot⟩

theorem Laden.mono (h : Laden fn b u s) (hg : Extended u u') : Laden fn b u' s :=
  ⟨h.own, h.block, fun w hw ↦ (h.pending w hw).mono hg⟩

theorem Laden.pend (h : Laden fn b u s) (hfn : s'.fn = s.fn) (hb : s'.block = s.block)
    (hp : ∀ w ∈ s'.pending, Apt u w) : Laden fn b u s' := ⟨hfn.trans h.own, hb.trans h.block, hp⟩

theorem Laden.same (h : Laden fn b u s) (hfn : s'.fn = s.fn) (hb : s'.block = s.block) (hp : s'.pending = s.pending) :
    Laden fn b u s' := h.pend hfn hb fun w hw ↦ h.pending w (hp ▸ hw)

theorem Means.stores (hu : Typed world u) (h : Means u t c) (ht : t.isVoid = false) : u.module.Stores c := by
  refine ⟨h.hasValue ht, ?_, h.lacksBody hu⟩
  cases h with
  | scalar h => rename_i p; cases p <;> cases h <;> exact Nat.ne_of_beq_eq_false rfl
  | _ => exact Nat.ne_of_beq_eq_false rfl

theorem stores_pointer (m : Module) (t : Ssa.Ty) : m.Stores (.pointer t) := ⟨rfl, Nat.ne_of_beq_eq_false rfl, rfl⟩

theorem stores_i8 (m : Module) : m.Stores .i8 := ⟨rfl, Nat.ne_of_beq_eq_false rfl, rfl⟩

theorem Stands.stores (hu : Typed world u) (h : Stands u t c) : u.module.Stores c := by
  cases h with
  | byte => exact stores_i8 _
  | plain hv hm => exact hm.stores hu hv
  | address => exact stores_pointer _ _

theorem Means.not_hollow (h : Means u t c) (ht : t.isVoid = false) : c.isHollow = false := by
  induction h with
  | void => rfl
  | @scalar p c h => cases p <;> cases h <;> rfl
  | bytes => rfl
  | address _ _ hv hm ih => simp [Ssa.Ty.isHollow, ih hv, hm.ne_void hv]
  | aggregate => rfl

theorem Stands.not_hollow (h : Stands u t c) : c.isHollow = false ∧ c ≠ .void := by
  induction h with
  | byte => exact ⟨rfl, Ssa.Ty.noConfusion⟩
  | plain hv hm => exact ⟨hm.not_hollow hv, hm.ne_void hv⟩
  | address _ _ ih => exact ⟨by simp [Ssa.Ty.isHollow, ih.1, ih.2], Ssa.Ty.noConfusion⟩

theorem Site.Supplied.mono (h : Extended u u') (hsite : site.Supplied u) : site.Supplied u' :=
  ⟨hsite.converts, fun w hw ↦ (hsite.slots w hw).mono h, hsite.locals, hsite.top⟩

end

/-! ### Lowering with apt operands -/

section

variable {α β : Type} {world : Universe} {fn : FuncId} {b : Nat} {F : Function} {u u' : CompilationUnit}
  {R : α → CompilationUnit → Prop} {S : β → CompilationUnit → Prop} {T : α → β → CompilationUnit → Prop}

theorem Minding.bind {c : Emit α} {f : α → Emit β} (hc : Minding world fn b u c R)
    (hf : ∀ a u₁, Extended u u₁ → R a u₁ → Minding world fn b u₁ (f a) S) : Minding world fn b u (c >>= f) S := by
  intro s a s' u' F he hs hF hu
  obtain ⟨a₁, s₁, u₁, h₁, h₂⟩ := Emits.bind_iff.mp he
  obtain ⟨hs₁, hR, F₁, hgain⟩ := hc _ _ _ _ F h₁ hs hF hu
  obtain ⟨hs', hS, F', hgain'⟩ := hf a₁ u₁ hgain.grown hR _ _ _ _ F₁ h₂ hs₁ hgain.houses hgain.kept
  exact ⟨hs', hS, F', hgain.trans hgain'⟩

theorem Minding.pure {a : α} (h : R a u) : Minding world fn b u (pure a) R := by
  intro s a' s' u' F he hs hF hu
  obtain ⟨rfl, rfl, rfl⟩ := Emits.pure_iff.mp he
  exact ⟨hs, h, F, .refl hu hF⟩

theorem Minding.throw {e : CompileError} : Minding world fn b u (throw e : Emit α) R :=
  fun _ _ _ _ _ he ↦ absurd he Emits.throw_iff

theorem Minding.imp {c : Emit α} {R' : α → CompilationUnit → Prop} (h : Minding world fn b u c R)
    (hR : ∀ a u', Extended u u' → R a u' → R' a u') : Minding world fn b u c R' := by
  intro s a s' u' F he hs hF hu
  obtain ⟨hs', ha, F', hgain⟩ := h s a s' u' F he hs hF hu
  exact ⟨hs', hR a u' hgain.grown ha, F', hgain⟩

theorem Minding.assume {c : Emit α} (h : Sound world u → Minding world fn b u c R) : Minding world fn b u c R :=
  fun s a s' u' F he hs hF hu ↦ h hu s a s' u' F he hs hF hu

theorem Minding.of_casting {c : Emit α} (h : Casting (Sound world) fn b u c R) : Minding world fn b u c R := by
  intro s a s' u' F he hs hF hu
  obtain ⟨rfl, hR, F', hgain⟩ := h s a s' u' F he hs.own hs.block hF hu
  exact ⟨hs.mono hgain.grown, hR, F', hgain⟩

theorem Minding.within {part : Part} {c : Compile α} (h : Minding world fn b u (liftM c : Emit α) R) :
    Minding world fn b u (liftM (within part c) : Emit α) R := by
  intro s a s' u' F he hs hF hu
  obtain ⟨rfl, hc⟩ := Emits.lift_iff.mp he
  exact h s a s u' F (Emits.lift_iff.mpr ⟨rfl, Compiles.adapt_iff.mp hc⟩) hs hF hu

theorem Minding.of_same {c : Emit α}
    (h : ∀ s u a s' u', Emits c s u a s' u' → s'.fn = s.fn ∧ s'.block = s.block ∧ s'.pending = s.pending ∧
    u' = u ∧ R a u) : Minding world fn b u c R := by
  intro s a s' u' F he hs hF hu
  obtain ⟨hfn, hb, hp, rfl, hR⟩ := h s u a s' u' he
  exact ⟨hs.same hfn hb hp, hR, F, .refl hu hF⟩

theorem Minding.mapM {f : α → Emit β} {as : List α} (hT : ∀ {u u' a b}, Extended u u' → T a b u → T a b u')
    (hf : ∀ u' a, a ∈ as → Extended u u' → Minding world fn b u' (f a) (T a)) :
    Minding world fn b u (as.mapM f) fun bs u' ↦ List.Forall₂ (fun a b ↦ T a b u') as bs := by
  induction as generalizing u with
  | nil => exact .pure .nil
  | cons a as ih =>
    rw [List.mapM_cons]
    refine (hf u a List.mem_cons_self (.refl u)).bind fun x u₁ hg hx ↦ ?_
    refine (ih fun u' a ha hg' ↦ hf u' a (List.mem_cons_of_mem _ ha) (hg.trans hg')).bind fun xs u₂ hg' hxs ↦ ?_
    exact .pure (.cons (hT hg' hx) hxs)

end

section

variable {world : Universe} {fn : FuncId} {b : Nat} {F : Function} {u u' : CompilationUnit} {v p : Value} {w : Operand}
  {i : Instr} {t : Ty} {e : Ssa.Ty}

/-! ### Single instructions -/

theorem minding_constant (k : Const) : Minding world fn b u (constant k) fun v _ ↦ v.type = k.type := by
  refine .of_same fun s u v s' u' he ↦ ?_
  obtain ⟨h, rfl⟩ := Emits.modifyGet_iff.mp he
  cases h
  exact ⟨rfl, rfl, rfl, rfl, rfl⟩

theorem minding_intConst (t : Ssa.Ty) (n : Int) : Minding world fn b u (intConst t n) fun v _ ↦ v.type = t :=
  minding_constant _

theorem minding_emit (hi : u.module.Fitting i) : Minding world fn b u (emit i) fun v _ ↦ v.type = i.type :=
  .of_casting (casting_emit hi)

theorem minding_load (hp : p.type = .pointer e) (he : u.module.Stores e) :
    Minding world fn b u (load p) fun v _ ↦ v.type = e :=
  .of_casting (casting_load hp (by rintro rfl; cases he.hasValue) he.body)

theorem minding_store (hp : p.type = .pointer v.type) (hv : v.type.hasValue = true) :
    Minding world fn b u (store v p) fun _ _ ↦ True :=
  (minding_emit (Ssa.fitting_store hp hv)).bind fun _ _ _ _ ↦ .pure trivial

theorem minding_castTo {op : Ssa.Op} (h : Ssa.validCast op v.type e = true) :
    Minding world fn b u (castTo op v e) fun w _ ↦ w.type = e := .of_casting (casting_castTo h)

theorem minding_pointerTo (hv : v.type.isPointer = true) (he : e.isPointer = true) :
    Minding world fn b u (pointerTo v e) fun w _ ↦ w.type = e := .of_casting (casting_pointerTo hv he)

theorem minding_emitAt {c : Nat} (hc : c = b ∨ c = 0) (hi : u.module.Fitting i) :
    Minding world fn b u (emitAt c i) fun v _ ↦ v.type = i.type := .of_casting (casting_emitAt hc hi)

theorem minding_slotFor {name : String} (he : u.module.Stores e) :
    Minding world fn b u (slotFor e name) fun v _ ↦ v.type = .pointer e := minding_emitAt (.inr rfl)
    (Ssa.fitting_alloca name he)

theorem minding_clearAt (size : Int) (hv : v.type.isPointer = true) :
    Minding world fn b u (clearAt b v size) fun _ _ ↦ True := by
  intro s x s' u' F he hs hF hu
  have hblock := hs.block
  subst hblock
  obtain ⟨rfl, p, u₁, w, hcast, hcall⟩ := clearAt_inv he
  obtain ⟨hnum, ⟨-, g, hg, hname⟩, -, hkept⟩ := memset_spec hF.numbered s.fn
  have hgrown : Extended u { u with module := u.module.memset.1 } := ⟨precedes_memset _, fun _ _ _ h ↦ h⟩
  have hu₀ : Sound world { u with module := u.module.memset.1 } := (lasting_sound world).memset hu
  have hs₀ : Laden fn s.block { u with module := u.module.memset.1 } { s with constants := s.constants + 3 } :=
    (hs.mono hgrown).same rfl rfl rfl
  obtain ⟨hs₁, hp, F₁, hgain₁⟩ := minding_pointerTo (e := .bytePointer) hv rfl _ _ _ _ F hcast hs₀
    ⟨hnum, hkept _ _ hF.found⟩ hu₀
  obtain ⟨g', hg', -, -, hsig⟩ := hgain₁.grown.module.functions _ g hg
  have hdeclared : g'.signature = Ssa.memsetSignature := hsig.trans (hu₀.fills _ g hg hname)
  have hfits : u₁.module.Fitting (clearing u.module.memset.2 p (Number.wordOfInt size) s.constants) := by
    have hret : g'.ret = .void := by rw [Function.ret, hdeclared]; rfl
    have hcall : u₁.module.Fitting
      (.call u.module.memset.2 g'.ret (List.map some [p, .const (.ofInt .i8 0) (.made s.constants),
        .const (.ofInt .i64 (Number.wordOfInt size)) (.made (s.constants + 1)),
        .const (.ofInt .i1 0) (.made (s.constants + 2))])
        "") := Ssa.fitting_call "" hg' ?_ ?_
    rw [hret] at hcall
    exact hcall
    · rw [Function.paramTypes, hdeclared, List.map_cons, hp]
      rfl
    · rintro _ (_ | ⟨_, _ | ⟨_, _ | ⟨_, _ | ⟨_, ⟨⟩⟩⟩⟩⟩) <;> first | rfl | (rw [hp]; rfl)
  obtain ⟨hs₂, -, F₂, hgain₂⟩ := minding_emit hfits _ _ _ _ F₁ hcall hs₁ hgain₁.houses hgain₁.kept
  have hgain : Gained (Sound world) fn s.block u F _ F₂ :=
    ⟨hgain₂.kept, hgrown.trans (hgain₁.trans hgain₂).grown, hgain₂.houses, (hgain₁.trans hgain₂).code⟩
  exact ⟨hs₂, trivial, F₂, hgain⟩

/-! ### Operands -/

theorem minding_push (hw : Apt u w) : Minding world fn b u (push w) fun _ _ ↦ True := by
  intro s x s' u' F he hs hF hu
  obtain ⟨rfl, rfl⟩ := Emits.modify_iff.mp he
  exact ⟨hs.pend rfl rfl (List.forall_mem_cons.mpr ⟨hw, hs.pending⟩), trivial, F, .refl hu hF⟩

theorem minding_read {t : Ty} (ht : t.elem.isVoid = false ∨ t.isByRef = true) (hv : Stands u t v.type) :
    Minding world fn b u (load v) fun w u' ↦ Stands u' t.elem w.type := by
  have haddress : t.isAddress = true := ht.elim isAddress_of_elem fun h ↦ by rw [Ty.isAddress, h, Bool.true_or]
  obtain ⟨e, he, helem⟩ := hv.address_cases haddress
  refine .assume fun hu ↦ (minding_load he (helem.stores hu.typed)).imp fun w u' hg hw ↦ ?_
  exact hw ▸ helem.mono hg

theorem minding_materialize (hw : Apt u w) : Minding world fn b u (materialize w) fun x u' ↦ Apt u' x := by
  unfold materialize
  split
  · exact (minding_read (.inl (hw.slot ‹_›)) hw.stands).bind fun v u₁ _ hv ↦ .pure hv.apt
  · exact .pure hw

theorem minding_deref (hw : Apt u w) : Minding world fn b u (deref w) fun x u' ↦ Apt u' x := by
  refine (minding_materialize hw).bind fun x u₁ _ hx ↦ ?_
  split
  · exact (minding_read (.inr ‹_›) hx.stands).bind fun v u₂ _ hv ↦ .pure hv.apt
  · exact .pure hx

theorem minding_settle : Minding world fn b u settle fun _ _ ↦ True := by
  intro s x s' u' F he hs hF hu
  obtain ⟨_, _, _, hget, he⟩ := Emits.bind_iff.mp he
  obtain ⟨rfl, rfl, rfl⟩ := Emits.get_iff.mp hget
  obtain ⟨ws, s₁, u₁, hread, hset⟩ := Emits.bind_iff.mp he
  obtain ⟨rfl, rfl⟩ := Emits.modify_iff.mp hset
  have hall : Minding world fn b u (s.pending.reverse.mapM materialize) fun ws u' ↦ List.Forall₂ (fun _ w ↦ Apt u' w)
      s.pending.reverse ws := .mapM (T := fun _ w u ↦ Apt u w) (fun hg hw ↦ hw.mono hg) fun u' w hw hg ↦
    minding_materialize ((hs.pending w (List.mem_reverse.mp hw)).mono hg)
  obtain ⟨hs', hws, F', hgain⟩ := hall _ _ _ _ F hread hs hF hu
  refine ⟨hs'.pend rfl rfl fun w hw ↦ ?_, trivial, F', hgain⟩
  obtain ⟨_, -, h⟩ := exists_left_of_forall₂ hws (List.mem_reverse.mp hw)
  exact h

/-! ### The run-time stack -/

theorem minding_advance (n : Int) (hp : p.type.isPointer = true) :
    Minding world fn b u (advance p n) fun q _ ↦ q.type = .bytePointer := by
  refine (minding_castTo (e := .i64) (by rw [Ssa.validCast, hp]; rfl)).bind fun q u₁ _ hq ↦ ?_
  refine (minding_intConst _ _).bind fun k u₂ _ hk ↦ ?_
  refine (minding_emit (Ssa.fitting_binary "" (.inl ⟨by simp, ?_⟩) (hq.trans hk.symm))).bind fun r u₃ _ hr ↦
    minding_castTo ?_
  · rw [hk]
    rfl
  · rw [hr, Instr.binary, hq]
    rfl

theorem minding_pushBuffer (n : Int) (hp : p.type = .pointer .bytePointer) (hv : v.type.hasValue = true) :
    Minding world fn b u (pushBuffer p v n) fun _ _ ↦ True := by
  refine (minding_load hp (stores_pointer _ _)).bind fun top u₁ _ htop ↦ ?_
  have hptr : top.type.isPointer = true := by rw [htop]; rfl
  refine (minding_pointerTo hptr rfl).bind fun q u₂ _ hq ↦ (minding_store hq hv).bind fun _ u₃ _ _ ↦ ?_
  exact (minding_advance n hptr).bind fun r u₄ _ hr ↦ minding_store (by rw [hp, hr]) (by rw [hr]; rfl)

theorem minding_popBuffer (n : Int) (hp : p.type = .pointer .bytePointer) (he : u.module.Stores e) :
    Minding world fn b u (popBuffer p e n) fun v _ ↦ v.type = e := by
  refine (minding_load hp (stores_pointer _ _)).bind fun top u₁ hg₁ htop ↦ ?_
  refine (minding_advance _ (by rw [htop]; rfl)).bind fun q u₂ hg₂ hq ↦ ?_
  refine (minding_store (by rw [hp, hq]) (by rw [hq]; rfl)).bind fun _ u₃ hg₃ _ ↦ ?_
  refine (minding_pointerTo (e := .pointer e) (by rw [hq]; rfl) rfl).bind fun r u₄ hg₄ hr ↦ minding_load hr ?_
  exact he.mono ((hg₁.trans hg₂).trans (hg₃.trans hg₄)).module

theorem minding_takeEntry (hint : Option Ty) : Minding world fn b u (takeEntry hint) fun _ _ ↦ True := by
  refine .of_same fun s u t s' u' he ↦ ?_
  obtain ⟨rfl, ⟨rest, -, rfl⟩ | ⟨-, -, rfl⟩⟩ := takeEntry_inv he <;> exact ⟨rfl, rfl, rfl, rfl, trivial⟩

theorem minding_settleEntry (start : Nat) : Minding world fn b u (settleEntry start) fun _ _ ↦ True := by
  refine .of_same fun s u x s' u' he ↦ ?_
  obtain ⟨rfl, rfl⟩ := Emits.modify_iff.mp he
  refine ⟨?_, ?_, ?_, rfl, trivial⟩ <;> (split <;> rfl)

theorem minding_spilled (hw : Apt u w) : Minding world fn b u (spilled w) fun x u' ↦ Apt u' x := by
  refine (minding_materialize hw).bind fun x u₁ _ hx ↦ ?_
  split
  · refine .assume fun hu ↦ (minding_slotFor (hx.stands.stores hu.typed)).bind fun slot u₂ hg hslot ↦ ?_
    refine (minding_store hslot hx.stands.hasValue).bind fun _ u₃ hg' _ ↦ .pure (Stands.apt ?_)
    rw [hslot]
    exact .address rfl ((hx.stands.mono hg).mono hg')
  · exact .pure hx

theorem minding_size (e : Ssa.Ty) : Minding world fn b u (liftM (sizeOf e) : Emit Int) fun _ _ ↦ e ≠ .void := by
  intro s n s' u' F h hs hF hu
  have hcasting : Casting (Sound world) fn b u (liftM (sizeOf e) : Emit Int) fun _ _ ↦ True := by
    have := (lasting_sound world).total.stable
    exact .lift (leaves_sizeOf e) (spec_sizeOf e) ((spec_sizeOf e).imp (fun _ hu ↦ hu) fun _ _ hu ↦ ⟨trivial, hu⟩)
  obtain ⟨hs', -, hgain⟩ := Minding.of_casting hcasting s n s' u' F h hs hF hu
  refine ⟨hs', ?_, hgain⟩
  rintro rfl
  obtain ⟨-, hc⟩ := Emits.lift_iff.mp h
  unfold sizeOf layoutOf at hc
  simp only [Compiles.bind_iff, Compiles.get_iff] at hc
  obtain ⟨_, _, ⟨_, _, ⟨rfl, rfl⟩, _, _, -, hc⟩, -⟩ := hc
  split at hc
  · exact hu.measured.of_ne_ok u.module _ ‹_›
  · exact Compiles.throw_iff hc

end

/-! ### At a site -/

def MindingAt (site : Site) (fn : FuncId) (b : Nat) {α : Type} (u : CompilationUnit) (c : Lower α)
    (R : α → CompilationUnit → Prop) : Prop :=
  site.Supplied u → Minding site.world fn b u (c.run site) R

section

variable {α β : Type} {site : Site} {fn : FuncId} {b : Nat} {F : Function} {u u' : CompilationUnit}
  {R : α → CompilationUnit → Prop} {S : β → CompilationUnit → Prop} {T : α → β → CompilationUnit → Prop} {v p : Value}
  {w : Operand} {t : Ty} {e : Ssa.Ty}

theorem MindingAt.bind {c : Lower α} {f : α → Lower β} (hc : MindingAt site fn b u c R)
    (hf : ∀ a u₁, Extended u u₁ → R a u₁ → MindingAt site fn b u₁ (f a) S) : MindingAt site fn b u (c >>= f) S :=
  fun hsite ↦ (hc hsite).bind fun a u₁ hg hR ↦ hf a u₁ hg hR (hsite.mono hg)

theorem MindingAt.lift {c : Emit α} (h : Minding site.world fn b u c R) : MindingAt site fn b u (liftM c) R := fun _ ↦ h

theorem MindingAt.pure {a : α} (h : R a u) : MindingAt site fn b u (pure a) R := fun _ ↦ .pure h

theorem MindingAt.throw {e : CompileError} : MindingAt site fn b u (throw e : Lower α) R := fun _ ↦ .throw

theorem MindingAt.imp {c : Lower α} {R' : α → CompilationUnit → Prop} (h : MindingAt site fn b u c R)
    (hR : ∀ a u', Extended u u' → R a u' → R' a u') : MindingAt site fn b u c R' := fun hsite ↦ (h hsite).imp hR

theorem MindingAt.read_bind {f : Site → Lower β} (h : site.Supplied u → MindingAt site fn b u (f site) S) :
    MindingAt site fn b u (read >>= f) S := fun hsite ↦ h hsite hsite

theorem MindingAt.assume {c : Lower α} (h : site.Supplied u → Sound site.world u → MindingAt site fn b u c R) :
    MindingAt site fn b u c R := fun hsite ↦ .assume fun hu ↦ h hsite hu hsite

theorem MindingAt.of_casting {c : Lower α} (h : CastingAt (Sound site.world) site fn b u c R) :
    MindingAt site fn b u c R :=
  fun _ ↦ .of_casting h

theorem MindingAt.mapM {f : α → Lower β} {as : List α} (hT : ∀ {u u' a b}, Extended u u' → T a b u → T a b u')
    (hf : ∀ u' a, a ∈ as → Extended u u' → MindingAt site fn b u' (f a) (T a)) :
    MindingAt site fn b u (as.mapM f) fun bs u' ↦ List.Forall₂ (fun a b ↦ T a b u') as bs := by
  intro hsite
  rw [run_mapM]
  exact .mapM hT fun u' a ha hg ↦ hf u' a ha hg (hsite.mono hg)

theorem MindingAt.forM {f : α → Lower PUnit} {as : List α}
    (hf : ∀ u' a, a ∈ as → Extended u u' → MindingAt site fn b u' (f a) fun _ _ ↦ True) :
    MindingAt site fn b u (as.forM f) fun _ _ ↦ True := by
  induction as generalizing u with
  | nil => exact .pure trivial
  | cons a as ih =>
    exact (hf u a List.mem_cons_self (.refl u)).bind fun _ u₁ hg _ ↦
      ih fun u' a ha hg' ↦ hf u' a (List.mem_cons_of_mem _ ha) (hg.trans hg')

theorem minding_lowerWithin {part : Part} {c : Lower α} (h : MindingAt site fn b u c R) :
    MindingAt site fn b u (lowerWithin part c) R :=
  fun hsite s a s' u' F h' ↦ h hsite s a s' u' F (Compiles.adapt_iff.mp h')

theorem minding_during {i : Instruction} {c : Lower Unit} {R : Unit → CompilationUnit → Prop}
    (h : MindingAt site fn b u c R) : MindingAt site fn b u (during i c) R := fun hsite s a s' u' F h' ↦
    h hsite s a s' u' F (Lowers.during_iff.mp h')

theorem minding_unsupported (i : Instruction) (reason : String) : MindingAt site fn b u (unsupported i reason : Lower α)
    R :=
  .read_bind fun _ ↦ .throw

theorem minding_counterpart (t : Ty) : MindingAt site fn b u (counterpart t) fun c u' ↦ Means u' t c :=
  .of_casting (casting_counterpart t)

theorem minding_sizeOf (e : Ssa.Ty) : MindingAt site fn b u (sizeOf e : Lower Int) fun _ _ ↦ e ≠ .void :=
    fun _ ↦ minding_size e

theorem minding_operandSize (t : Ty) : MindingAt site fn b u (operandSize t) fun _ _ ↦ True :=
  (minding_counterpart t).bind fun c _ _ _ ↦ (minding_sizeOf c).imp fun _ _ _ _ ↦ trivial

/-! ### The operands of other blocks -/

theorem Means.not_void (h : Means u t e) (he : e ≠ .void) : t.isVoid = false :=
  Bool.eq_false_iff.mpr fun ht ↦ he (h.of_void ht)

theorem Means.stands (h : Means u t e) (he : e ≠ .void) : Stands u t e := .plain (h.not_void he) h

theorem minding_popRaw (hint : Option Ty) : MindingAt site fn b u (popRaw hint) fun w u' ↦ Apt u' w := by
  intro hsite s w s' u' F h hs hF hu
  obtain ⟨rest, hp, rfl, rfl⟩ | ⟨-, h⟩ := popRaw_cases h
  · have hpending := List.forall_mem_cons.mp (hp ▸ hs.pending)
    exact ⟨hs.pend rfl rfl hpending.2, hpending.1, F, .refl hu hF⟩
  · have htaken : MindingAt site fn b u (do
        let t ← takeEntry hint
        let code ← counterpart t
        let size ← sizeOf code
        return ⟨t, ← popBuffer (← read).top code size, false⟩ : Lower Operand) fun w u' ↦ Apt u' w := by
      refine MindingAt.bind (.lift (minding_takeEntry hint)) fun t u₁ _ _ ↦ ?_
      refine (minding_counterpart t).bind fun c u₂ _ hc ↦ ?_
      refine (minding_sizeOf c).bind fun n u₃ hg hne ↦ .read_bind fun hsite ↦ ?_
      have hstands := (hc.stands hne).mono hg
      refine .assume fun _ hu ↦ MindingAt.bind (.lift (minding_popBuffer n hsite.top (hstands.stores hu.typed)))
        fun v u₄ hg' hv ↦ ?_
      refine .pure (Stands.apt ?_)
      rw [hv]
      exact hstands.mono hg'
    exact htaken hsite _ _ _ _ F h hs hF hu

theorem minding_convert (hw : Apt u w) (t : Ty) : MindingAt site fn b u (convert w t) fun x u' ↦ Brought u' t x := by
  refine .assume fun hsite hu ↦ .of_casting ?_
  refine (casting_convertFrom hsite.converts w.type w.value w.slot hu (.inl hw.stands)).imp fun x u₂ _ hx ↦ ?_
  refine ⟨hx.1, hx.2.2, fun hslot ↦ ?_⟩
  obtain ⟨hslot, rfl⟩ := hx.2.1 hslot
  exact hw.slot hslot

theorem minding_pop (t : Ty) : MindingAt site fn b u (pop t) fun w u' ↦ Brought u' t w :=
  (minding_popRaw _).bind fun _ _ _ hw ↦ minding_convert hw t

theorem minding_sameShape (as bs : List Ty) : MindingAt site fn b u (sameShape as bs) fun _ _ ↦ True := by
  fun_induction sameShape as bs generalizing u with
  | case1 => exact .pure trivial
  | case2 a as b bs ih =>
    refine (minding_counterpart a).bind fun x u₁ _ _ ↦ (minding_counterpart b).bind fun y u₂ _ _ ↦ ?_
    split
    · exact ih
    · exact .pure trivial
  | case3 => exact .pure trivial

theorem minding_pushAll (depth : Int) (ws : List Operand) (hws : ∀ w ∈ ws, Apt u w) :
    MindingAt site fn b u (pushAll depth ws) fun _ _ ↦ True := by
  induction ws generalizing depth u with
  | nil => exact .pure trivial
  | cons w ws ih =>
    rw [List.forall_mem_cons] at hws
    refine .read_bind fun hsite ↦ MindingAt.bind (.lift (minding_spilled hws.1)) fun x u₁ hg₁ hx ↦ ?_
    refine (minding_sizeOf _).bind fun n u₂ hg₂ _ ↦ ?_
    have hrest : MindingAt site fn b u₂ (do
        pushBuffer site.top x.value n
        return x.type :: (← pushAll (depth + n) ws)) fun _ _ ↦ True := by
      refine MindingAt.bind (.lift (minding_pushBuffer n hsite.top hx.stands.hasValue)) fun _ u₃ hg₃ _ ↦ ?_
      exact (ih _ fun w hw ↦ (hws.2 w hw).mono ((hg₁.trans hg₂).trans hg₃)).bind fun _ _ _ _ ↦ .pure trivial
    dsimp only
    split
    · exact MindingAt.bind (R := fun _ _ ↦ False) .throw fun _ _ _ h ↦ h.elim
    · exact hrest

theorem minding_recordEntry (shape : List Ty) (o : Nat) : MindingAt site fn b u (recordEntry shape o)
    fun _ _ ↦ True := by
  intro hsite s x s' u' F h hs hF hu
  obtain ⟨_, _, _, hget, h⟩ := Lowers.bind_iff.mp h
  obtain ⟨rfl, rfl, rfl⟩ := Lowers.getThe_iff.mp hget
  split at h
  · obtain ⟨rfl, rfl⟩ := Lowers.set_iff.mp h
    exact ⟨hs.same rfl rfl rfl, trivial, F, .refl hu hF⟩
  · rename_i known _
    have hcompared : MindingAt site fn b u (do
        if !(← sameShape known shape) then throw (.shape shape known o) : Lower Unit) fun _ _ ↦ True := by
      refine (minding_sameShape known shape).bind fun same _ _ _ ↦ ?_
      cases same
      · exact .throw
      · exact .pure trivial
    exact hcompared hsite _ _ _ _ F h hs hF hu

/-- At the end of a block all that is pending has been moved to the run-time stack. -/
theorem minding_flush (start : Nat) (successors : List Nat) : MindingAt site fn b u (flush start successors)
    fun _ _ ↦ True := by
  intro hsite s x s' u' F h hs hF hu
  unfold flush at h
  obtain ⟨_, s₁, u₁, hsettle, h⟩ := Lowers.bind_iff.mp h
  obtain ⟨hs₁, -, F₁, hgain₁⟩ := minding_settleEntry start _ _ _ _ F hsettle hs hF hu
  obtain ⟨_, _, _, hget, h⟩ := Lowers.bind_iff.mp h
  obtain ⟨rfl, rfl, rfl⟩ := Lowers.getThe_iff.mp hget
  have hrest : MindingAt site fn b u₁ (do
      let sizes ← s₁.entry.reverse.mapM operandSize
      let above ← pushAll (sizes.foldr (· + ·) 0) s₁.pending.reverse
      modifyThe Stage fun s ↦ { s with pending := [] }
      successors.forM (recordEntry (s₁.entry.reverse ++ above))) fun _ _ ↦ True := by
    refine (MindingAt.mapM (T := fun _ _ _ ↦ True) (fun _ _ ↦ trivial) fun u' t _ _ ↦ minding_operandSize t).bind
      fun sizes u₂ hg _ ↦ ?_
    refine (minding_pushAll _ _ fun w hw ↦ (hs₁.pending w (List.mem_reverse.mp hw)).mono hg).bind fun above u₃ _ _ ↦ ?_
    refine MindingAt.bind (R := fun _ _ ↦ True) ?_ fun _ u₄ _ _ ↦ .forM fun u' o _ _ ↦ minding_recordEntry _ o
    intro _ s x s' u' F h hs hF hu
    obtain ⟨rfl, rfl⟩ := Lowers.modifyThe_iff.mp h
    exact ⟨hs.pend rfl rfl fun _ h ↦ absurd h List.not_mem_nil, trivial, F, .refl hu hF⟩
  obtain ⟨hs', -, F', hgain⟩ := hrest (hsite.mono hgain₁.grown) _ _ _ _ F₁ h hs₁ hgain₁.houses hgain₁.kept
  exact ⟨hs', trivial, F', hgain₁.trans hgain⟩

/-! ### Steps that only take operands as they are -/

theorem minding_slotNumbered {what : String} {slots : List Operand} (n : Int) :
    MindingAt site fn b u (slotNumbered what slots n) fun w _ ↦ w ∈ slots := by
  unfold slotNumbered
  dsimp only
  split
  · exact MindingAt.bind (R := fun _ _ ↦ False) .throw fun _ _ _ h ↦ h.elim
  · split
    · rename_i v hv
      exact .pure (List.mem_of_getElem? hv)
    · exact .throw

theorem minding_argument (n : Int) : MindingAt site fn b u (argument n) fun w u' ↦ Apt u' w :=
  .read_bind fun hsite ↦ (minding_slotNumbered n).imp fun w _ hg hw ↦
  (hsite.slots w (List.mem_append_left _ hw)).mono hg

theorem minding_localSlot (n : Int) : MindingAt site fn b u (localSlot n) fun w u' ↦ Apt u' w ∧ w.slot = true :=
  .read_bind fun hsite ↦ (minding_slotNumbered n).imp fun w _ hg hw ↦
    ⟨(hsite.slots w (List.mem_append_right _ hw)).mono hg, hsite.locals w hw⟩

theorem minding_storeSlot (hw : Apt u w) (hslot : w.slot = true) : MindingAt site fn b u (storeSlot w)
    fun _ _ ↦ True := by
  have helem := hw.slot hslot
  obtain ⟨e, he, hstands⟩ := hw.stands.address_cases (isAddress_of_elem helem)
  refine MindingAt.bind (.lift minding_settle) fun _ u₁ hg₁ _ ↦ (minding_pop _).bind fun v u₂ hg₂ hv ↦ ?_
  have hvalue := hv.yields.stands helem
  refine .lift (minding_store ?_ hvalue.hasValue)
  rw [he, (hstands.mono (hg₁.trans hg₂)).unique hvalue]

theorem minding_operands : MindingAt site fn b u operands fun p u' ↦
    Stands u' p.2.type p.2.value.type ∧ (p.1.value.type = p.2.value.type ∨ p.1.value.type = .void) := by
  refine (minding_popRaw none).bind fun r u₁ hg₁ hr ↦ (minding_popRaw none).bind fun l u₂ hg₂ hl ↦ ?_
  refine MindingAt.bind (.lift (minding_deref (hr.mono hg₂))) fun r' u₃ hg₃ hr' ↦ ?_
  refine MindingAt.bind (.lift (minding_deref (hl.mono hg₃))) fun l' u₄ hg₄ hl' ↦ ?_
  refine (minding_convert hl' _).bind fun x u₅ hg₅ hx ↦ ?_
  have hstands := (hr'.stands.mono hg₄).mono hg₅
  exact .pure ⟨hstands, hx.yields.imp (fun h ↦ h.unique hstands) fun h ↦ h.2⟩

theorem minding_pushed {c : Lower Value} {t : Ty} (hc : MindingAt site fn b u c fun v u' ↦ Stands u' t v.type) :
    MindingAt site fn b u (do push ⟨t, ← c, false⟩) fun _ _ ↦ True :=
  hc.bind fun _ _ _ hv ↦ .lift (minding_push hv.apt)

theorem stands_prim {k : Prim} {e : Ssa.Ty} (h : scalarType? k = some e) : Stands u (.prim k) e :=
    .plain rfl (.scalar h)

theorem minding_truth (i : Instruction) (w : Operand) (want : Bool) :
    MindingAt site fn b u (truth i w want) fun v _ ↦ v.type = .i1 := by
  unfold truth
  dsimp only
  have hints : ∀ {k : Value}, k.type = w.value.type → (w.value.type.isInt || w.value.type.isPointer) = true →
      ∀ u', Minding site.world fn b u' (emit (.icmp (if want then .ne else .eq) w.value k "")) fun v _ ↦
      v.type = .i1 := by
    intro k hk hw u'
    refine minding_emit (Ssa.fitting_icmp "" ?_ ?_ hk.symm (hk ▸ hw)) <;> cases want <;>
      first | rfl | exact Ssa.Pred.noConfusion
  have hfloats : ∀ {k : Value}, k.type = w.value.type → w.value.type.isFloating = true →
      ∀ u', Minding site.world fn b u' (emit (.fcmp (if want then .une else .oeq) w.value k "")) fun v _ ↦
      v.type = .i1 := by
    intro k hk hw u'
    exact minding_emit (Ssa.fitting_fcmp "" (by cases want <;> rfl) hk.symm (hk ▸ hw))
  split
  · rename_i n hn
    exact MindingAt.bind (.lift (minding_intConst _ _)) fun k u₁ _ hk ↦ .lift (hints hk (by rw [hn]; rfl) u₁)
  · rename_i e he
    exact MindingAt.bind (.lift (minding_constant _)) fun k u₁ _ hk ↦ .lift (hints hk (by rw [he]; rfl) u₁)
  · rename_i hf
    exact MindingAt.bind (.lift (minding_constant _)) fun k u₁ _ hk ↦
    .lift (hfloats (by rw [hk, hf]; rfl) (by rw [hf]; rfl) u₁)
  · rename_i hf
    exact MindingAt.bind (.lift (minding_constant _)) fun k u₁ _ hk ↦
    .lift (hfloats (by rw [hk, hf]; rfl) (by rw [hf]; rfl) u₁)
  · exact minding_unsupported _ _

theorem minding_blockAt (o : Nat) : MindingAt site fn b u (blockAt o) fun k _ ↦ k.fn = fn := by
  refine .read_bind fun _ ↦ MindingAt.bind (R := fun s _ ↦ s.fn = fn) ?_ fun _ _ _ h ↦ .pure h
  intro _ s x s' u' F h hs hF hu
  obtain ⟨rfl, rfl, rfl⟩ := Lowers.getThe_iff.mp h
  exact ⟨hs, hs.own, F, .refl hu hF⟩

theorem minding_convertTop {k : Prim} : MindingAt site fn b u (convertTop (.prim k)) fun _ _ ↦ True := by
  refine (minding_popRaw none).bind fun w u₁ _ hw ↦ ?_
  split
  · refine (minding_counterpart _).bind fun c u₂ hg hc ↦ minding_pushed (.assume fun hsite _ ↦ .of_casting ?_)
    refine (casting_convertValue hsite.converts (hw.stands.fits.mono hg) hc).imp fun v u₃ hg' hv ↦ ?_
    exact hv ▸ .plain rfl (hc.mono hg')
  · exact (minding_convert hw _).bind fun x u₂ _ hx ↦ .lift (minding_push (hx.apt rfl))

theorem minding_convertTopUnsigned : MindingAt site fn b u convertTopUnsigned fun _ _ ↦ True := by
  refine (minding_popRaw none).bind fun w u₁ _ hw ↦ MindingAt.bind (.lift (minding_deref hw)) fun x u₂ _ hx ↦ ?_
  split
  · refine minding_pushed (.lift ((minding_castTo (e := .double) ?_).imp fun v u₃ _ hv ↦ hv ▸ stands_prim rfl))
    rw [Ssa.validCast, ‹x.value.type.isInt = true›]
    rfl
  · refine (minding_convert hx _).bind fun y u₃ _ hy ↦ ?_
    exact .lift (minding_push (hy.apt rfl))

/-! ### What tokens name -/

theorem minding_resolve {γ : Type} {ask : Resolver → Except ResolutionError γ × Resolver × List Resolver.Attempt} :
    MindingAt site fn b u (resolve ask : Lower γ) fun _ _ ↦ True := by
  have := (lasting_sound site.world).total.stable
  refine .of_casting (.lift (leaves_resolve ask) (spec_resolve ask) ?_)
  exact (spec_resolve ask).imp (fun _ hu ↦ hu) fun _ _ hu ↦ ⟨trivial, hu⟩

theorem minding_typeOperand (i : Instruction) : MindingAt site fn b u (typeOperand i) fun _ _ ↦ True :=
  .read_bind fun _ ↦ minding_resolve

theorem minding_methodOperand (i : Instruction) :
    MindingAt site fn b u (methodOperand i) fun m _ ↦ ∃ id, site.world.method? id = some m := by
  refine .read_bind fun _ ↦ minding_resolve.bind fun id u₁ _ _ ↦ ?_
  split
  · exact .pure ⟨id, ‹_›⟩
  · exact .throw

theorem instanceFields_of_fieldIndex {world : Universe} {f : Field} {index : Nat} (h : world.fieldIndex f = .ok index) :
    (world.instanceFields f.owner)[index]? = some f := by
  unfold Universe.fieldIndex at h
  split at h
  · cases h
  · split at h
    · rename_i k hk
      cases h
      obtain ⟨hlt, hsame, -⟩ := List.findIdx?_eq_some_iff_getElem.mp hk
      exact List.getElem?_eq_some_iff.mpr ⟨hlt, eq_of_beq hsame⟩
    · cases h

theorem minding_fieldOperand (i : Instruction) : MindingAt site fn b u (fieldOperand i) fun p _ ↦
    (site.world.instanceFields p.1.owner)[p.2]? = some p.1 := by
  refine .read_bind fun _ ↦ minding_resolve.bind fun f u₁ _ _ ↦ ?_
  dsimp only
  split
  · exact MindingAt.bind (R := fun _ _ ↦ False) (minding_unsupported _ _) fun _ _ _ h ↦ h.elim
  · refine (minding_counterpart _).bind fun c u₂ _ _ ↦ ?_
    split
    · exact .pure (instanceFields_of_fieldIndex ‹_›)
    · exact .throw

theorem minding_compile {id : MethodId} {m : Method} (hm : site.world.method? id = some m) :
    MindingAt site fn b u (liftM (site.compile m) : Lower FuncId) fun f u' ↦ DeclaredFor u' m f :=
  .assume fun hsite _ ↦ .of_casting (casting_compile hsite.converts hm)

theorem minding_callArguments (m : Method) : MindingAt site fn b u (callArguments m) fun vs u' ↦
    List.Forall₂ (fun t v ↦ Fits u' t v.type) (m.params.map (·.type)) vs := by
  unfold callArguments
  refine MindingAt.bind (MindingAt.mapM (T := fun (p : Param × Nat) (v : Value) u ↦ Fits u p.1.type v.type)
    (fun hg h ↦ Fits.mono h hg) fun u' p _ _ ↦ ?_)
    fun vs u₁ _ hvs ↦ .pure ?_
  · exact (minding_lowerWithin (minding_pop _)).bind fun w u₂ _ hw ↦ .pure hw.yields.fits
  · rw [← List.reverse_reverse vs, List.forall₂_reverse_iff] at hvs
    rw [← List.zipIdx_map_fst 0 m.params, List.map_map, List.forall₂_map_left_iff]
    exact hvs

theorem minding_emitCall {m : Method} {f : FuncId} {vs : List Value} (hf : DeclaredFor u m f)
    (hvs : List.Forall₂ (fun t v ↦ Fits u t v.type) m.receives vs) :
    Minding site.world fn b u (emitCall f vs) fun v u' ↦ Means u' m.returnType v.type :=
    .of_casting (casting_emitCall hf hvs)

theorem MindingAt.stage_bind {f : Nat → Lower β} (h : MindingAt site fn b u (f b) S) :
    MindingAt site fn b u (do f (← getThe Stage).block) S := by
  intro hsite s x s' u' F h' hs hF hu
  obtain ⟨_, _, _, hget, h'⟩ := Lowers.bind_iff.mp h'
  obtain ⟨rfl, rfl, rfl⟩ := Lowers.getThe_iff.mp hget
  rw [hs.block] at h'
  exact h hsite _ _ _ _ F h' hs hF hu

theorem receives_of_owner {m : Method} (hm : m.isInstance = true) (ht : (m.owner.getD .missing).isVoid = false) :
    m.receives = .byref (m.owner.getD .missing) :: m.params.map (·.type) := by
  rw [Method.receives, hm]
  cases ho : m.owner with
  | none =>
    rw [ho] at ht
    cases ht
  | some t => rfl

theorem minding_newObject (i : Instruction) : MindingAt site fn b u (newObject i) fun _ _ ↦ True := by
  refine (minding_methodOperand i).bind fun m u₁ _ ⟨id, hm⟩ ↦ ?_
  have hrest : m.isCtor = true → MindingAt site fn b u₁ (do
      let t := m.owner.getD .missing
      settle
      let f ← (← read).compile m
      let code ← counterpart t
      let size ← sizeOf code
      let args ← callArguments m
      let object ← slotFor code "new"
      clearAt (← getThe Stage).block object size
      let _ ← emitCall f (object :: args)
      push ⟨.byref t, object, false⟩) fun _ _ ↦ True := by
    intro hctor
    refine MindingAt.bind (.lift minding_settle) fun _ u₂ _ _ ↦ .read_bind fun _ ↦ ?_
    refine (minding_compile hm).bind fun f u₃ _ hf ↦ (minding_counterpart _).bind fun c u₄ hg₄ hc ↦ ?_
    refine (minding_sizeOf c).bind fun n u₅ hg₅ hne ↦ (minding_callArguments m).bind fun vs u₆ hg₆ hvs ↦
      .assume fun _ hu ↦ ?_
    have hstands := (hc.stands hne).mono (hg₅.trans hg₆)
    refine MindingAt.bind (.lift (minding_slotFor (hstands.stores hu.typed))) fun object u₇ hg₇ hobject ↦ ?_
    refine .stage_bind (f := fun k ↦ do
      clearAt k object n
      let _ ← emitCall f (object :: vs)
      push ⟨.byref (m.owner.getD .missing), object, false⟩) ?_
    refine MindingAt.bind (.lift (minding_clearAt n (by rw [hobject]; rfl))) fun _ u₈ hg₈ _ ↦ ?_
    have hself : Stands u₈ (.byref (m.owner.getD .missing)) object.type :=
      hobject ▸ .address rfl (hstands.mono (hg₇.trans hg₈))
    refine MindingAt.bind (.lift (minding_emitCall (m := m) ?_ ?_)) fun _ u₉ hg₉ _ ↦ ?_
    · exact hf.mono (((hg₄.trans hg₅).trans hg₆).trans (hg₇.trans hg₈))
    · rw [receives_of_owner (by rw [Method.isInstance, hctor, Bool.true_or]) (hc.not_void hne)]
      exact .cons hself.fits (hvs.imp fun _ _ h ↦ h.mono (hg₇.trans hg₈))
    · exact .lift (minding_push (hself.mono hg₉).apt)
  dsimp only
  split
  · exact MindingAt.bind (R := fun _ _ ↦ False) .throw fun _ _ _ h ↦ h.elim
  · rename_i h
    exact hrest (by rwa [Bool.not_eq_true, Bool.not_eq_false'] at h)

end

end CilSsa.Lowering

