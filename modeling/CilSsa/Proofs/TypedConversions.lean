import CilSsa.Proofs.IntegerConversions
import CilSsa.Proofs.OtherFunctions
import CilSsa.Proofs.TypedUnits

namespace CilSsa.Ssa

variable {m m' : Module} {i : Instr} {v : Value} {t : Ty}

/-- In the module `m` and in all that grows out of it the instruction keeps the rules of its operation. What it takes
are values, and it ends no block. -/
structure Module.Fitting (m : Module) (i : Instr) : Prop where
  rules : ∀ m', m.Precedes m' → ∀ F, m'.checkInstr F i = []
  values : ∀ v, some v ∈ i.operands → v.type.hasValue = true
  stays : i.op.isTerminator = false

theorem Module.Fitting.mono (h : m.Precedes m') (hi : m.Fitting i) : m'.Fitting i :=
  { hi with rules := fun _ h' F ↦ hi.rules _ (h.trans h') F }

theorem Module.Fitting.placed {name : String} {home : Option BlockId} {number : Nat} (h : m.Fitting i) :
    m.Fitting { i with name, home, number } := ⟨h.rules, h.values, h.stays⟩

theorem checkOperands_one {check : List Ty → List Violation} (hi : i.operands = [some v]) (h : check [v.type] = []) :
    Module.checkOperands 1 i check = [] := by
  unfold Module.checkOperands operandTypes
  rw [hi]
  by_cases hv : v.type = .untyped
  · simp [hv]
  · simpa [hv] using h

theorem checkOperands_two {w : Value} {check : List Ty → List Violation} (hi : i.operands = [some v, some w])
    (h : check [v.type, w.type] = []) : Module.checkOperands 2 i check = [] := by
  unfold Module.checkOperands operandTypes
  rw [hi]
  by_cases hv : v.type = .untyped ∨ w.type = .untyped
  · simp [hv]
  · simpa [hv] using h

theorem values_one {P : Value → Prop} (hv : P v) : ∀ w, some w ∈ [some v] → P w := by
  rintro _ (_ | ⟨_, ⟨⟩⟩)
  exact hv

theorem values_two {P : Value → Prop} {w : Value} (hv : P v) (hw : P w) : ∀ x, some x ∈ [some v, some w] → P x := by
  rintro _ (_ | ⟨_, _ | ⟨_, ⟨⟩⟩⟩)
  · exact hv
  · exact hw

theorem hasValue_of_validCast {op : Op} (h : validCast op v.type t = true) : v.type.hasValue = true := by
  cases hv : v.type with
  | untyped => rw [hv] at h; cases op <;> cases h
  | void => rw [hv] at h; cases op <;> cases h
  | _ => rfl

theorem fitting_cast {op : Op} (name : String) (h : validCast op v.type t = true) :
    m.Fitting (.cast op (some v) t name) := by
  refine ⟨fun m' _ F ↦ ?_, values_one (hasValue_of_validCast h), ?_⟩
  · have hcheck : when (!validCast op v.type t) (.badCast op v.type t) = [] := by simp [when, h]
    cases op <;> first | exact checkOperands_one rfl hcheck | cases h
  · cases op <;> first | rfl | cases h

theorem fitting_load (name : String) (hv : v.type = .pointer t) (ht : t ≠ .void) (hbody : m.lacksBody t = false) :
    m.Fitting (.load v name) := by
  refine ⟨fun m' hm F ↦ checkOperands_one (v := v) rfl ?_, values_one (by rw [hv]; rfl), rfl⟩
  simp [hv, when, Instr.load, Ty.pointee, ht, hm.lacksBody hbody]

theorem fitting_store {p : Value} (hp : p.type = .pointer v.type) (hv : v.type.hasValue = true) :
    m.Fitting (.store (some v) (some p)) := by
  refine ⟨fun m' _ F ↦ checkOperands_two (v := v) (w := p) rfl ?_, values_two hv (by rw [hp]; rfl), rfl⟩
  simp [hp, when]

theorem fitting_call {f : FuncId} {F : Function} {args : List Value} (name : String) (hF : m.function? f = some F)
    (hparams : F.paramTypes = args.map Value.type) (hvalues : ∀ v ∈ args, v.type.hasValue = true) :
    m.Fitting (.call f F.ret (args.map some) name) := by
  refine ⟨fun m' hm G ↦ ?_, fun v hv ↦ hvalues v (by simpa [Instr.call] using hv), rfl⟩
  obtain ⟨F', hF', -, -, hsig⟩ := hm.functions f.index F hF
  have hF' : m'.function? f = some F' := hF'
  have hret : F'.ret = F.ret := by rw [Function.ret, Function.ret, hsig]
  have hparams' : F'.paramTypes = args.map Value.type :=
    by rw [← hparams, Function.paramTypes, Function.paramTypes, hsig]
  simp only [Module.checkInstr, Module.checkCall, Instr.call, Option.bind_some, hF', hparams', List.length_map, ne_eq,
    not_true_eq_false, if_false, hret, bne_self_eq_false, when, Bool.false_eq_true, List.append_nil, List.zip_map']
  simp only [List.flatMap_eq_nil_iff, List.zipIdx_map, List.mem_map]
  rintro _ ⟨⟨v, k⟩, -, rfl⟩
  simp

end CilSsa.Ssa

namespace CilSsa.Lowering

open CilSsa.Bytecode CilSsa.Metadata
open CilSsa.Ssa (FuncId Function Instr Module Value)

def PlainOperators (world : Universe) : Prop :=
  ∀ id m, world.method? id = some m → m.isConversion = true → m.isCtor = false

/-! ### Operands -/

/-- An operand of type `t` may be carried by a value of type `c`: its counterpart, or for a slot a pointer to the
counterpart of what the slot holds. -/
inductive CarriedBy (u : CompilationUnit) (t : Ty) : Bool → Ssa.Ty → Prop
  | value {c : Ssa.Ty} : Means u t c → CarriedBy u t false c
  | slot {c : Ssa.Ty} : t.elem.isVoid = false → Means u t.elem c → CarriedBy u t true (.pointer c)

/-- What carries an operand of type `t`, slots included, can be of type `c`. It is the counterpart of `t`, or an address
of what carries what `t` refers to; what a reference to nothing leads to is a byte. -/
inductive Stands (u : CompilationUnit) : Ty → Ssa.Ty → Prop
  | byte {t : Ty} : t.isVoid = true → Stands u t .i8
  | plain {t : Ty} {c : Ssa.Ty} : t.isVoid = false → Means u t c → Stands u t c
  | address {t : Ty} {c : Ssa.Ty} : t.isAddress = true → Stands u t.elem c → Stands u t (.pointer c)

/-- What is brought to type `t` can be of type `c`: as an operand of that type is, or without a value where `t` has
none. -/
def Yields (u : CompilationUnit) (t : Ty) (c : Ssa.Ty) : Prop := Stands u t c ∨ t.isVoid = true ∧ c = .void

def Fits (u : CompilationUnit) (t : Ty) (c : Ssa.Ty) : Prop := ∀ u' p, Extended u u' → Passes u' t p → p = c

section

variable {world : Universe} {u u' : CompilationUnit} {t : Ty} {c : Ssa.Ty} {slot : Bool}

theorem fits_of_void (ht : t.isVoid = true) : Fits u t c := fun _ _ _ hp ↦ absurd (hp.1.of_void ht) hp.2

theorem isAddress_of_elem (h : t.elem.isVoid = false) : t.isAddress = true := by
  cases t <;> first | rfl | cases h

theorem Ty.not_isAddress_of_isVoid (h : t.isVoid = true) : t.isAddress = false := by
  have hk : t.kind = .void := by simpa [Ty.isVoid] using h
  simp [Ty.isAddress, Ty.isByRef, Ty.isPointer, hk]

theorem CarriedBy.stands (h : CarriedBy u t slot c) (ht : t.isVoid = false) : Stands u t c := by
  cases h with
  | value h => exact .plain ht h
  | slot hv hc => exact .address (isAddress_of_elem hv) (.plain hv hc)

theorem Stands.mono (h : Extended u u') (hs : Stands u t c) : Stands u' t c := by
  induction hs with
  | byte hv => exact .byte hv
  | plain hv hm => exact .plain hv (hm.mono h)
  | address ha _ ih => exact .address ha ih

theorem Stands.of_void (h : Stands u t c) (ht : t.isVoid = true) : c = .i8 := by
  cases h with
  | byte => rfl
  | plain hv => rw [ht] at hv; cases hv
  | address ha => rw [Ty.not_isAddress_of_isVoid ht] at ha; cases ha

theorem Stands.address_cases (h : Stands u t c) (ht : t.isAddress = true) : ∃ e, c = .pointer e ∧
    Stands u t.elem e := by
  cases h with
  | byte hv => rw [Ty.not_isAddress_of_isVoid hv] at ht; cases ht
  | plain _ hm =>
    rcases hm.address_cases ht with ⟨hv, rfl⟩ | ⟨e, rfl, hv, he⟩
    · exact ⟨_, rfl, .byte hv⟩
    · exact ⟨e, rfl, .plain hv he⟩
  | address _ he => exact ⟨_, rfl, he⟩

theorem Stands.eq_of_means {c' : Ssa.Ty} (h : Stands u t c) (ht : t.isVoid = false) (hm : Means u t c') : c = c' := by
  induction hm generalizing c with
  | @void t hk => simp [Ty.isVoid, hk] at ht
  | bytes ha hv =>
    obtain ⟨e, rfl, he⟩ := h.address_cases ha
    rw [he.of_void hv]
    rfl
  | address ha _ hv _ ih =>
    obtain ⟨e, rfl, he⟩ := h.address_cases ha
    rw [ih he hv]
  | scalar hp =>
    cases h with
    | byte hv => cases hv
    | plain _ hm => exact hm.unique (.scalar hp)
    | address ha => cases ha
  | aggregate hk hl hc =>
    cases h with
    | byte hv => rw [ht] at hv; cases hv
    | plain _ hm => exact hm.unique (.aggregate hk hl hc)
    | address ha => simp [Ty.isAddress, Ty.isByRef, Ty.isPointer, hk] at ha

theorem Stands.unique {c' : Ssa.Ty} (h : Stands u t c) (h' : Stands u t c') : c = c' := by
  induction h generalizing c' with
  | byte hv => exact (h'.of_void hv).symm
  | plain hv hm => exact (h'.eq_of_means hv hm).symm
  | address ha _ ih =>
    obtain ⟨e, rfl, he⟩ := h'.address_cases ha
    exact congrArg _ (ih he)

theorem Stands.means {u₁ : CompilationUnit} {c₁ : Ssa.Ty} (h : Stands u t c) (ht : t.isVoid = false)
    (hm : Means u₁ t c₁) : Means u t c := by
  induction hm generalizing c with
  | @void t hk => simp [Ty.isVoid, hk] at ht
  | bytes ha hv =>
    obtain ⟨e, rfl, he⟩ := h.address_cases ha
    rw [he.of_void hv]
    exact .bytes ha hv
  | address ha hr hv _ ih =>
    obtain ⟨e, rfl, he⟩ := h.address_cases ha
    exact .address ha hr hv (ih he hv)
  | scalar =>
    cases h with
    | byte hv => cases hv
    | plain _ hm => exact hm
    | address ha => cases ha
  | aggregate hk =>
    cases h with
    | byte hv => rw [ht] at hv; cases hv
    | plain _ hm => exact hm
    | address ha => simp [Ty.isAddress, Ty.isByRef, Ty.isPointer, hk] at ha

theorem Stands.fits (h : Stands u t c) : Fits u t c := by
  intro u' p hg hp
  by_cases ht : t.isVoid = true
  · exact absurd (hp.1.of_void ht) hp.2
  · exact ((h.mono hg).eq_of_means (Bool.eq_false_iff.mpr ht) hp.1).symm

theorem Means.yields (h : Means u t c) : Yields u t c := by
  by_cases ht : t.isVoid = true
  · exact .inr ⟨ht, h.of_void ht⟩
  · exact .inl (.plain (Bool.eq_false_iff.mpr ht) h)

theorem Yields.stands (h : Yields u t c) (ht : t.isVoid = false) : Stands u t c :=
  h.resolve_right fun hno ↦ by rw [ht] at hno; exact Bool.false_ne_true hno.1

theorem Yields.fits (h : Yields u t c) : Fits u t c := h.elim Stands.fits fun h ↦ fits_of_void h.1

theorem Means.hasValue (h : Means u t c) (ht : t.isVoid = false) : c.hasValue = true := by
  have hne := h.ne_void ht
  cases h with
  | void => exact absurd rfl hne
  | scalar h => rename_i p; cases p <;> cases h <;> rfl
  | bytes => rfl
  | address => rfl
  | aggregate => rfl

theorem Stands.hasValue (h : Stands u t c) : c.hasValue = true := by
  cases h with
  | byte => rfl
  | plain hv hm => exact hm.hasValue hv
  | address => rfl

theorem Fits.mono (h : Fits u t c) (hg : Extended u u') : Fits u' t c := fun v p hg' ↦ h v p (hg.trans hg')

theorem Means.lacksBody (hu : Typed world u) (h : Means u t c) : u.module.lacksBody c = false := by
  cases h with
  | void => rfl
  | scalar h => rename_i p; cases p <;> cases h <;> rfl
  | bytes => rfl
  | address => rfl
  | aggregate _ hl hc => exact hu.bodies _ _ _ _ hl hc id

theorem Stands.stored (hu : Typed world u) (h : Stands u t c) : c ≠ .void ∧ u.module.lacksBody c = false := by
  cases h with
  | byte => exact ⟨Ssa.Ty.noConfusion, rfl⟩
  | plain hv hm => exact ⟨hm.ne_void hv, hm.lacksBody hu⟩
  | address => exact ⟨Ssa.Ty.noConfusion, rfl⟩

end

/-! ### Code that keeps the rules -/

/-- `F'` is `F` with instructions as `P` has them added to block `b` and to the first block. -/
inductive Collects (P : Instr → Prop) (b : Nat) (F : Function) : Function → Prop
  | refl : Collects P b F F
  | append {F' : Function} {c : Nat} {i : Instr} : Collects P b F F' → c = b ∨ c = 0 → P i →
      Collects P b F (F'.append c i).1

/-- The property `J` lasts, and where it holds the registry fits its types. -/
class Upholds (world : outParam Universe) (J : CompilationUnit → Prop) : Prop where
  typed : ∀ {u}, J u → Typed world u
  lasting : Lasting world J fun _ ↦ True

/-- In the unit `u'`, which grew out of `u`, function `fn` got instructions in block `b` and in the first block that
keep the rules of their operations, so that its code `F` became `F'`. -/
structure Gained (J : CompilationUnit → Prop) (fn : FuncId) (b : Nat) (u : CompilationUnit) (F : Function)
    (u' : CompilationUnit) (F' : Function) : Prop where
  kept : J u'
  grown : Extended u u'
  houses : Houses fn F' u'
  code : Collects u'.module.Fitting b F F'

/-- From the unit `u` lowering adds nothing to function `fn` but instructions in block `b` and in the first block that
keep the rules of their operations, and gives a value as `R` has it. -/
def Casting (J : CompilationUnit → Prop) (fn : FuncId) (b : Nat) {α : Type} (u : CompilationUnit) (c : Emit α)
    (R : α → CompilationUnit → Prop) : Prop :=
  ∀ s a s' u' F, Emits c s u a s' u' → s.fn = fn → s.block = b → Houses fn F u → J u →
    s' = s ∧ R a u' ∧ ∃ F', Gained J fn b u F u' F'

abbrev CastingAt (J : CompilationUnit → Prop) (site : Site) (fn : FuncId) (b : Nat) {α : Type}
    (u : CompilationUnit) (c : Lower α) (R : α → CompilationUnit → Prop) : Prop :=
  Casting J fn b u (c.run site) R

section

variable {α β : Type} {J : CompilationUnit → Prop} {fn : FuncId} {b : Nat} {u u₁ u' : CompilationUnit}
  {F F₁ F' : Function} {R : α → CompilationUnit → Prop} {S : β → CompilationUnit → Prop} {site : Site}

theorem Collects.trans {P : Instr → Prop} (h : Collects P b F F₁) (h' : Collects P b F₁ F') : Collects P b F F' := by
  induction h' with
  | refl => exact h
  | append _ hc hi ih => exact ih.append hc hi

theorem Collects.mono {P Q : Instr → Prop} (hPQ : ∀ i, P i → Q i) (h : Collects P b F F') : Collects Q b F F' := by
  induction h with
  | refl => exact .refl
  | append _ hc hi ih => exact ih.append hc (hPQ _ hi)

theorem Collects.earlier {P : Instr → Prop} (h : Collects P b F F') : F.Earlier F' := by
  induction h with
  | refl => exact .refl F
  | append _ _ _ ih => exact ih.trans (earlier_append _ _ _)

theorem Collects.appends {P : Instr → Prop} (h : Collects P b F F') (a : Nat) :
    ∃ ks, Appends (fun G k ↦ ∃ H c i, P i ∧ G.instrs[k]? = some (placed H c i)) a F F' ks := by
  induction h with
  | refl => exact ⟨[], .refl _ a F⟩
  | @append F' c i _ _ hi ih =>
    have hkeep : ∀ {G G' : Function} {k : Nat}, G.Earlier G' → (∃ H c i, P i ∧ G.instrs[k]? = some (placed H c i)) →
        ∃ H c i, P i ∧ G'.instrs[k]? = some (placed H c i) :=
      fun hG ⟨H, c, i, hi, hk⟩ ↦ ⟨H, c, i, hi, hG _ _ hk⟩
    obtain ⟨ks, happ⟩ := ih
    by_cases hc : c = a
    · subst hc
      exact ⟨_, happ.trans hkeep (appends_emitted ⟨F', c, i, hi, append_found i⟩)⟩
    · exact ⟨_, happ.trans hkeep (appends_elsewhere hc i)⟩

theorem Gained.refl (hu : J u) (hF : Houses fn F u) : Gained J fn b u F u F := ⟨hu, .refl u, hF, .refl⟩

theorem Gained.trans (h : Gained J fn b u F u₁ F₁) (h' : Gained J fn b u₁ F₁ u' F') : Gained J fn b u F u' F' :=
  ⟨h'.kept, h.grown.trans h'.grown, h'.houses, (h.code.mono fun _ hi ↦ hi.mono h'.grown.module).trans h'.code⟩

theorem Casting.bind {c : Emit α} {f : α → Emit β} (hc : Casting J fn b u c R)
    (hf : ∀ a u₁, Extended u u₁ → J u₁ → R a u₁ → Casting J fn b u₁ (f a) S) :
    Casting J fn b u (c >>= f) S := by
  intro s a s' u' F he hfn hb hF hu
  obtain ⟨a₁, s₁, u₁, h₁, h₂⟩ := Emits.bind_iff.mp he
  obtain ⟨rfl, hR, F₁, hgain⟩ := hc _ _ _ _ F h₁ hfn hb hF hu
  obtain ⟨hs, hS, F', hgain'⟩ := hf a₁ u₁ hgain.grown hgain.kept hR _ _ _ _ F₁ h₂ hfn hb hgain.houses hgain.kept
  exact ⟨hs, hS, F', hgain.trans hgain'⟩

theorem Casting.pure {a : α} (h : R a u) : Casting J fn b u (pure a) R := by
  intro s a' s' u' F he hfn hb hF hu
  obtain ⟨rfl, rfl, rfl⟩ := Emits.pure_iff.mp he
  exact ⟨rfl, h, F, .refl hu hF⟩

theorem Casting.throw {e : CompileError} : Casting J fn b u (throw e : Emit α) R :=
  fun _ _ _ _ _ he ↦ absurd he Emits.throw_iff

theorem Casting.imp {c : Emit α} {R' : α → CompilationUnit → Prop} (h : Casting J fn b u c R)
    (hR : ∀ a u', Extended u u' → R a u' → R' a u') : Casting J fn b u c R' := by
  intro s a s' u' F he hfn hb hF hu
  obtain ⟨hs, ha, F', hgain⟩ := h s a s' u' F he hfn hb hF hu
  exact ⟨hs, hR a u' hgain.grown ha, F', hgain⟩

theorem CastingAt.bind {c : Lower α} {f : α → Lower β} (hc : CastingAt J site fn b u c R)
    (hf : ∀ a u₁, Extended u u₁ → J u₁ → R a u₁ → CastingAt J site fn b u₁ (f a) S) :
    CastingAt J site fn b u (c >>= f) S := Casting.bind hc hf

theorem CastingAt.read_bind {f : Site → Lower β} (h : CastingAt J site fn b u (f site) S) :
    CastingAt J site fn b u (read >>= f) S := h

variable {world : Universe} [hJ : Upholds world J]

include hJ

theorem Casting.lift {c : Compile α} (hl : Leaves fn c) (hkeeps : Spec J c (fun _ ↦ J) fun _ ↦ True)
    (h : Spec (TypedSince world u fun _ ↦ False) c (fun a v ↦ R a v ∧ TypedSince world u (fun _ ↦ False) v) fun _ ↦
    True) : Casting J fn b u (liftM c : Emit α) R := by
  intro s a s' u' F he hfn hb hF hu
  obtain ⟨rfl, hc⟩ := Emits.lift_iff.mp he
  obtain ⟨ha, hsince⟩ := (h u (.start (hJ.typed hu))).1 a u' hc
  exact ⟨rfl, ha, F, (hkeeps u hu).1 a u' hc, hsince.grown, (hl F u hF).1 a u' hc, .refl⟩

theorem casting_emitAt {i : Instr} {c : Nat} (hc : c = b ∨ c = 0) (hi : u.module.Fitting i) :
    Casting J fn b u (emitAt c i) fun v _ ↦ v.type = i.type := by
  intro s v s' u' F he hfn hb hF hu
  subst hfn
  have hgrows := hJ.lasting.growable s.fn
  have hkept : Safe J (fun _ ↦ True) s.fn (emitAt c i) := Growable.safe_emitAt c i
  have hsafe : Safe (TypedSince world u fun _ ↦ False) (fun _ ↦ True) s.fn (emitAt c i) := Growable.safe_emitAt c i
  obtain ⟨-, hsince⟩ := (hsafe s rfl u (.start (hJ.typed hu))).1 _ _ he
  obtain ⟨-, hu'⟩ := (hkept s rfl u hu).1 _ _ he
  obtain ⟨rfl, rfl, hF'⟩ := emitAt_inv he hF
  exact ⟨rfl, rfl, _, hu', hsince.grown, hF', .append .refl hc (hi.mono hsince.grown.module)⟩

theorem casting_emit {i : Instr} (hi : u.module.Fitting i) :
    Casting J fn b u (emit i) fun v _ ↦ v.type = i.type := by
  intro s v s' u' F he hfn hb hF hu
  unfold emit at he
  simp only [Emits.bind_iff, Emits.get_iff] at he
  obtain ⟨_, _, _, ⟨rfl, rfl, rfl⟩, he⟩ := he
  rw [hb] at he
  exact casting_emitAt (.inl rfl) hi s v s' u' F he hfn hb hF hu

theorem casting_load {v : Value} {e : Ssa.Ty} (hv : v.type = .pointer e) (he : e ≠ .void)
    (hbody : u.module.lacksBody e = false) : Casting J fn b u (load v) fun w _ ↦ w.type = e := by
  refine (casting_emit (Ssa.fitting_load "" hv he hbody)).imp fun w _ _ hw ↦ hw.trans ?_
  rw [Instr.load, hv]
  rfl

theorem casting_castTo {op : Ssa.Op} {v : Value} {t : Ssa.Ty} (h : Ssa.validCast op v.type t = true) :
    Casting J fn b u (castTo op v t) fun w _ ↦ w.type = t := casting_emit (Ssa.fitting_cast "" h)

theorem casting_emitOr {v : Value} {o : Option Instr} {t : Ssa.Ty} (ht : (o.map (·.type)).getD v.type = t)
    (hfit : ∀ i ∈ o, u.module.Fitting i) : Casting J fn b u (emitOr v o) fun w _ ↦ w.type = t := by
  subst ht
  cases o with
  | none => exact .pure rfl
  | some i => exact casting_emit (hfit i rfl)

omit hJ in
theorem type_of_intCast {v : Value} {k n : Nat} {signed : Bool} (hv : v.type = .int k) :
    ((Instr.intCast? v (.int n) signed "").map (·.type)).getD v.type = .int n := by
  unfold Instr.intCast?
  rw [hv]
  split
  · rfl
  · split
    · rfl
    · rename_i h h'
      exact congrArg Ssa.Ty.int (Nat.le_antisymm (Nat.not_lt.mp h) (Nat.not_lt.mp h'))

omit hJ in
theorem type_of_floatCast {v : Value} {t : Ssa.Ty} : ((Instr.floatCast? v t "").map (·.type)).getD v.type = t := by
  unfold Instr.floatCast?
  split
  · assumption
  · split <;> rfl

omit hJ in
theorem type_of_pointerCast {v : Value} {t : Ssa.Ty} : ((Instr.pointerCast? v t "").map (·.type)).getD v.type = t := by
  unfold Instr.pointerCast?
  split
  · assumption
  · rfl

theorem casting_intCast {v : Value} {k n : Nat} (hv : v.type = .int k) (signed : Bool) :
    Casting J fn b u (emitOr v (Instr.intCast? v (.int n) signed "")) fun w _ ↦ w.type = .int n := by
  refine casting_emitOr (type_of_intCast hv) fun i hi ↦ ?_
  unfold Instr.intCast? at hi
  split at hi
  · rename_i h
    cases hi
    exact Ssa.fitting_cast "" (by simpa [Ssa.validCast, hv, Ssa.Ty.isInt] using h)
  · split at hi
    · rename_i h
      cases hi
      refine Ssa.fitting_cast "" ?_
      cases signed <;> simpa [Ssa.validCast, hv, Ssa.Ty.isInt] using h
    · cases hi

theorem casting_floatCast {v : Value} {t : Ssa.Ty} (hv : v.type.isFloating = true) (ht : t.isFloating = true) :
    Casting J fn b u (emitOr v (Instr.floatCast? v t "")) fun w _ ↦ w.type = t := by
  refine casting_emitOr type_of_floatCast fun i hi ↦ ?_
  unfold Instr.floatCast? at hi
  split at hi
  · cases hi
  · rename_i hne
    split at hi
    · rename_i h
      cases hi
      exact Ssa.fitting_cast "" (by simp [Ssa.validCast, h])
    · rename_i h
      cases hi
      refine Ssa.fitting_cast "" ?_
      cases hk : v.type <;> cases t <;> simp_all [Ssa.validCast, Ssa.Ty.isFloating]

theorem casting_pointerTo {v : Value} {t : Ssa.Ty} (hv : v.type.isPointer = true) (ht : t.isPointer = true) :
    Casting J fn b u (pointerTo v t) fun w _ ↦ w.type = t := by
  refine casting_emitOr type_of_pointerCast fun i hi ↦ ?_
  unfold Instr.pointerCast? at hi
  split at hi
  · cases hi
  · cases hi
    exact Ssa.fitting_cast "" (by simp [Ssa.validCast, hv, ht])

theorem casting_emitCall {m : Method} {f : FuncId} {args : List Value} (hf : DeclaredFor u m f)
    (hargs : List.Forall₂ (fun t v ↦ Fits u t v.type) m.receives args) :
    Casting J fn b u (emitCall f args) fun w u' ↦ Means u' m.returnType w.type := by
  refine Casting.bind (R := fun v u' ↦ v = u') (.lift leaves_get (.get fun _ hu ↦ hu) (.get fun _ hu ↦ ⟨rfl, hu⟩))
    fun u₁ u₂ hg hu₁ ↦ ?_
  rintro rfl
  obtain ⟨G, hG, ret, params, hsig, hmeans, hparams⟩ := hf.mono hg
  have hpassed : params = args.map Value.type ∧ ∀ v ∈ args, v.type.hasValue = true := by
    clear hsig
    generalize m.receives = ts at hargs hparams
    induction hparams generalizing args with
    | nil =>
      cases hargs
      exact ⟨rfl, nofun⟩
    | cons hp _ ih =>
      cases hargs with
      | cons hv hrest =>
        obtain ⟨hmap, hvalues⟩ := ih hrest
        have hfits := hv u₁ _ hg hp
        refine ⟨by rw [hmap, hfits, List.map_cons], List.forall_mem_cons.mpr ⟨hfits ▸ hp.1.hasValue ?_, hvalues⟩⟩
        exact Bool.eq_false_iff.mpr fun hvoid ↦ hp.2 (hp.1.of_void hvoid)
  have hparams : G.paramTypes = args.map Value.type := by rw [Function.paramTypes, hsig]; exact hpassed.1
  have hret : G.ret = ret := by rw [Function.ret, hsig]
  dsimp only
  rw [hG]
  refine (casting_emit (Ssa.fitting_call "" hG hparams hpassed.2)).imp fun w u' hg' hw ↦ ?_
  rw [hw]
  exact hret ▸ hmeans.mono hg'

end

/-! ### Conversions -/

theorem declared_of_conversion? {world : Universe} {src target : Ty} {m : Method}
    (hm : world.conversion? src target = some m) :
    (∃ id, world.method? id = some m) ∧ m.isConversion = true ∧ m.params.map (·.type) = [src] ∧ m.ret = target := by
  have hfits := List.find?_some hm
  simp only [Bool.and_eq_true, beq_iff_eq] at hfits
  refine ⟨?_, hfits.1.1, hfits.1.2, hfits.2⟩
  rcases List.mem_append.mp (List.mem_of_find?_eq_some hm) with h | h
  · obtain ⟨id, -, hid⟩ := List.mem_filterMap.mp h
    exact ⟨id, hid⟩
  · obtain ⟨id, -, hid⟩ := List.mem_filterMap.mp h
    exact ⟨id, hid⟩

/-- A conversion operator is a method that takes one value and gives another. -/
theorem exists_of_conversion? {world : Universe} (hplain : PlainOperators world) {src target : Ty} {m : Method}
    (hm : world.conversion? src target = some m) :
    (∃ id, world.method? id = some m) ∧ m.receives = [src] ∧ m.returnType.isVoid = target.isVoid ∧
      (target.isVoid = false → m.returnType = target) := by
  obtain ⟨⟨id, hid⟩, hconv, hparams, hret⟩ := declared_of_conversion? hm
  have hctor := hplain id m hid hconv
  have hstatic : m.isStatic = true := by
    simp only [Method.isConversion, Bool.and_eq_true] at hconv
    exact hconv.1.1
  refine ⟨⟨id, hid⟩, ?_, ?_, fun hvoid ↦ ?_⟩
  · simp [Method.receives, Method.isInstance, hctor, hstatic, hparams]
  · rw [← hret, Method.returnType, hctor]
    split
    · rename_i hmissing
      rw [Bool.false_or, beq_iff_eq] at hmissing
      rw [hmissing]
      rfl
    · rfl
  · have hne : m.ret ≠ .missing := by
      rintro hmissing
      rw [← hret, hmissing] at hvoid
      cases hvoid
    simp [Method.returnType, hctor, hret ▸ hne, hret]

theorem Means.isPointer {u : CompilationUnit} {target : Ty} {dst : Ssa.Ty} (h : Means u target dst)
    (ht : target.isAddress = true) : dst.isPointer = true := by
  rcases h.address_cases ht with ⟨-, rfl⟩ | ⟨e, rfl, -⟩ <;> rfl

/-- What a site needs so that the code of conversions keeps the rules. -/
structure Site.Converts (site : Site) : Prop where
  consistent : Consistent site.world
  plain : PlainOperators site.world
  compiles : ∃ fuel, site.compile = compileMethod site.world fuel

section

variable {J : CompilationUnit → Prop} {fn : FuncId} {b : Nat} {u : CompilationUnit} {site : Site}
  {v : Operand} {target : Ty} {dst : Ssa.Ty} [hJ : Upholds site.world J]

include hJ

theorem casting_counterpart (t : Ty) : CastingAt J site fn b u (counterpart t) fun c u' ↦ Means u' t c :=
  Casting.lift (leaves_codeType t) (hJ.lasting.codeType t) (spec_codeType_typed t)

theorem casting_compile (hsite : site.Converts) {id : MethodId} {m : Method} (hm : site.world.method? id = some m) :
    Casting J fn b u (liftM (site.compile m) : Emit FuncId) fun f u' ↦ DeclaredFor u' m f := by
  have hfound := hsite.consistent id m hm
  obtain ⟨fuel, hcompile⟩ := hsite.compiles
  rw [hcompile]
  exact .lift (leaves_compileMethod site.world fuel m) (hJ.lasting.methods hsite.consistent fuel hfound)
    (spec_compileMethod_typed hsite.consistent fuel hfound)

theorem casting_convertByOperator (hsite : site.Converts) (hv : Fits u v.type v.value.type)
    (hdst : Means u target dst) : CastingAt J site fn b u (convertByOperator v target) fun w _ ↦ w.type = dst := by
  refine CastingAt.read_bind ?_
  cases hm : site.world.conversion? v.type target with
  | none => exact .throw
  | some m =>
    obtain ⟨⟨id, hid⟩, hreceives, hvoid, hret⟩ := exists_of_conversion? hsite.plain hm
    refine CastingAt.bind (casting_compile hsite hid) fun f u₁ hg _ hf ↦ ?_
    refine (casting_emitCall hf (hreceives ▸ .cons (hv.mono hg) .nil)).imp fun w u₂ hg' hw ↦ ?_
    have hdst := (hdst.mono hg).mono hg'
    by_cases ht : target.isVoid = true
    · rw [hw.of_void (hvoid.trans ht), hdst.of_void ht]
    · exact (hret (Bool.eq_false_iff.mpr ht) ▸ hw).unique hdst

theorem casting_convertValue (hsite : site.Converts) (hv : Fits u v.type v.value.type)
    (hdst : Means u target dst) :
    CastingAt J site fn b u (convertValue v target dst) fun w _ ↦ w.type = dst := by
  unfold convertValue
  dsimp only
  split
  · exact Casting.pure ‹_›
  rename_i hne
  have hcast : ∀ {op : Ssa.Op}, Ssa.validCast op v.value.type dst = true →
      CastingAt J site fn b u (castTo op v.value dst) fun w _ ↦ w.type = dst := casting_castTo
  -- Through a number of 64 bits, where no single operation leads from one type to the other.
  have hthrough : ∀ {op op' : Ssa.Op}, Ssa.validCast op v.value.type .i64 = true → Ssa.validCast op' .i64 dst = true →
      CastingAt J site fn b u (do
        let n ← castTo op v.value .i64
        castTo op' n dst) fun w _ ↦ w.type = dst := by
    intro op op' h h'
    refine CastingAt.bind (casting_castTo h) fun n u₁ _ _ hn ↦ casting_castTo ?_
    rw [hn]
    exact h'
  split
  case h_1 | h_2 => exact casting_convertByOperator hsite hv hdst
  case h_3 hsrc => exact casting_intCast hsrc _
  case h_5 hsrc | h_6 hsrc | h_11 hsrc | h_12 hsrc => exact hcast (by rw [hsrc]; split <;> rfl)
  case h_4 hsrc | h_16 hsrc => exact hcast (by rw [hsrc]; rfl)
  case h_7 hsrc | h_8 hsrc | h_9 hsrc | h_10 hsrc => exact casting_floatCast (by rw [hsrc]; rfl) rfl
  case h_13 hsrc | h_14 hsrc => exact hthrough (by rw [hsrc]; split <;> rfl) rfl
  case h_15 hsrc => exact casting_pointerTo (by rw [hsrc]; rfl) rfl
  case h_17 hsrc | h_18 hsrc => exact hthrough (by rw [hsrc]; rfl) (by split <;> rfl)
  case h_19 => exact .throw

theorem casting_convertDirectly (hsite : site.Converts) (hv : Fits u v.type v.value.type) :
    CastingAt J site fn b u (convertDirectly v target)
      fun w u' ↦ w.type = target ∧ w.slot = false ∧ Means u' target w.value.type := by
  unfold convertDirectly
  split
  · rename_i h
    simp only [Bool.and_eq_true, Bool.or_eq_true, beq_iff_eq] at h
    obtain ⟨href, hnumber⟩ := h
    have hint : v.value.type.isInt = true := by
      rcases hnumber with ht | ht <;> rw [ht] at hv
      · rw [← hv u .i32 (.refl u) ⟨.scalar rfl, nofun⟩]
        rfl
      · rw [← hv u .i64 (.refl u) ⟨.scalar rfl, nofun⟩]
        rfl
    refine CastingAt.bind (casting_counterpart target) fun dst u₁ _ _ hdst ↦ ?_
    have hptr := hdst.isPointer (by rw [Ty.isAddress, href, Bool.true_or])
    refine CastingAt.bind (casting_castTo (by simp [Ssa.validCast, hint, hptr])) fun w u₂ hg _ hw ↦ ?_
    exact Casting.pure ⟨rfl, rfl, hw ▸ hdst.mono hg⟩
  · refine CastingAt.read_bind ?_
    split
    · exact CastingAt.bind (R := fun _ _ ↦ False) .throw fun _ _ _ _ h ↦ h.elim
    · refine CastingAt.bind (casting_counterpart target) fun dst u₁ hg _ hdst ↦ ?_
      refine CastingAt.bind (casting_convertValue hsite (hv.mono hg) hdst) fun w u₂ hg' _ hw ↦ ?_
      exact Casting.pure ⟨rfl, rfl, hw ▸ hdst.mono hg'⟩

/-- An operand is brought to a type. Where that has no values, what carried the operand is known. -/
theorem casting_convertFrom (hsite : site.Converts) (t : Ty) (v : Value) (slot : Bool) (hu : J u)
    (hv : Stands u t v.type ∨ t.isVoid = true ∧ target.isVoid = false) :
    CastingAt J site fn b u (convertFrom target t v slot) fun w u' ↦
      w.type = target ∧ (w.slot = true → slot = true ∧ t = target) ∧ Yields u' target w.value.type := by
  have hdirectly : ∀ {u t slot} {v : Value}, Stands u t v.type ∨ t.isVoid = true ∧ target.isVoid = false →
      CastingAt J site fn b u (convertDirectly ⟨t, v, slot⟩ target) fun w u' ↦ w.type = target ∧
        (w.slot = true → slot = true ∧ t = target) ∧ Yields u' target w.value.type := by
    intro u t slot v hv
    refine Casting.imp (casting_convertDirectly hsite (hv.elim Stands.fits fun h ↦ fits_of_void h.1))
      fun w u' _ hw ↦ ⟨hw.1, fun h ↦ ?_, hw.2.2.yields⟩
    rw [hw.2.1] at h
    cases h
  have hreference : ∀ {u e} {v : Value}, Stands u (.byref e) v.type ∨ (Ty.byref e).isVoid = true ∧
    target.isVoid = false →
      ∃ c, v.type = .pointer c ∧ Stands u e c := fun h ↦
    (h.resolve_right fun h ↦ Bool.false_ne_true h.1).address_cases rfl
  have hsame : ∀ {u} {v : Value}, Stands u target v.type ∨ target.isVoid = true ∧ target.isVoid = false →
      Yields u target v.type := fun h ↦ .inl (h.resolve_right fun h ↦ absurd (h.2.symm.trans h.1) Bool.false_ne_true)
  fun_induction convertFrom target t v slot generalizing u with
  | case1 e v slot heq => exact Casting.pure ⟨rfl, fun h ↦ ⟨h, heq⟩, hsame (heq ▸ hv)⟩
  | case2 e v slot _ h =>
    simp only [Bool.and_eq_true, Bool.not_eq_true', beq_iff_eq] at h
    obtain ⟨⟨rfl, haddr⟩, rfl⟩ := h
    obtain ⟨c, hc, he⟩ := hreference hv
    exact Casting.pure ⟨rfl, fun h ↦ absurd h Bool.false_ne_true, .inl (hc ▸ .address haddr he)⟩
  | case3 v slot =>
    obtain ⟨x, hx, he⟩ := hreference hv
    obtain ⟨hne, hbody⟩ := he.stored (hJ.typed hu)
    refine CastingAt.bind (casting_load hx hne hbody) fun w u₁ hg _ hw ↦ ?_
    exact Casting.pure ⟨rfl, fun h ↦ absurd h Bool.false_ne_true, .inl (hw ▸ he.mono hg)⟩
  | case4 e v slot _ _ _ ih =>
    obtain ⟨x, hx, he⟩ := hreference hv
    obtain ⟨hne, hbody⟩ := he.stored (hJ.typed hu)
    refine CastingAt.read_bind ?_
    split
    · refine CastingAt.bind (casting_load hx hne hbody) fun w u₁ hg hu₁ hw ↦ ?_
      refine (ih w hu₁ (.inl (hw ▸ he.mono hg))).imp fun r u' _ hr ↦
      ⟨hr.1, fun h ↦ absurd (hr.2.1 h).1 Bool.false_ne_true, hr.2.2⟩
    · exact hdirectly hv
  | case5 v slot => exact Casting.pure ⟨rfl, fun h ↦ ⟨h, rfl⟩, hsame hv⟩
  | case6 t v slot _ _ h =>
    simp only [Bool.and_eq_true, Bool.not_eq_true', beq_iff_eq] at h
    obtain ⟨⟨⟨rfl, haddr⟩, haddr'⟩, helem⟩ := h
    have hv := hv.resolve_right fun h ↦ by
      rw [Ty.not_isAddress_of_isVoid h.1] at haddr
      cases haddr
    obtain ⟨c, hc, he⟩ := hv.address_cases haddr
    exact Casting.pure ⟨rfl, fun h ↦ absurd h Bool.false_ne_true, .inl (hc ▸ .address haddr' (helem ▸ he))⟩
  | case7 t v slot => exact hdirectly hv

end

/-! ### Answers that are remembered -/

/-- Answers given so far: whether the first type converts to the second. -/
abbrev AnswerTable := List ((Ty × Ty) × Bool)

/-- The answer to a question, taken from before or else worked out and kept. -/
def remembered (src dst : Ty) (work : StateM AnswerTable Bool) : StateM AnswerTable Bool := do
  match (← get).lookup (src, dst) with
  | some ok => return ok
  | none =>
    let ok ← work
    modify (((src, dst), ok) :: ·)
    return ok

/-- Whether a type converts to `dst`, every answer on the way being kept. -/
def askConvertible (world : Universe) (dst : Ty) : Ty → StateM AnswerTable Bool
  | .byref e => remembered (.byref e) dst do
    if Ty.byref e = dst then return true
    if ← askConvertible world dst e then return true
    return numeric (.byref e) dst || world.hasConversion (.byref e) dst
  | t => remembered t dst do return t == dst || numeric t dst || world.hasConversion t dst

def Accurate (world : Universe) (as : AnswerTable) : Prop :=
  ∀ src dst ok, as.lookup (src, dst) = some ok → ok = convertible world dst src

section

variable {world : Universe} {src dst : Ty} {as : AnswerTable} {work : StateM AnswerTable Bool}

theorem accurate_nil (world : Universe) : Accurate world [] := nofun

theorem remembered_accurate (h : Accurate world as)
    (hwork : (work.run as).1 = convertible world dst src ∧ Accurate world (work.run as).2) :
    ((remembered src dst work).run as).1 = convertible world dst src ∧
      Accurate world ((remembered src dst work).run as).2 := by
  have hrun : (remembered src dst work).run as = match as.lookup (src, dst) with
      | some ok => (ok, as)
      | none => ((work.run as).1, ((src, dst), (work.run as).1) :: (work.run as).2) := by
    unfold remembered
    simp only [StateT.run_bind, StateT.run_get, pure_bind]
    cases as.lookup (src, dst) <;> rfl
  rw [hrun]
  split
  · exact ⟨h _ _ _ ‹_›, h⟩
  · refine ⟨hwork.1, fun src' dst' ok hl ↦ ?_⟩
    dsimp only at hl
    by_cases hq : (src', dst') = (src, dst)
    · cases hq
      rw [lookup_cons_same] at hl
      cases hl
      exact hwork.1
    · rw [lookup_cons_of_ne _ _ hq] at hl
      exact hwork.2 src' dst' ok hl

theorem run_or (work : StateM AnswerTable Bool) (ok : Bool) : (do
      if ← work then return true
      return ok : StateM AnswerTable Bool).run as = ((work.run as).1 || ok, (work.run as).2) := by
  rcases h : work.run as with ⟨_ | _, as'⟩ <;> simp only [StateT.run_bind, h] <;> rfl

theorem numeric_byref (e : Ty) : numeric (.byref e) dst = false := rfl

theorem askConvertible_accurate (h : Accurate world as) (src dst : Ty) :
    ((askConvertible world dst src).run as).1 = convertible world dst src ∧
      Accurate world ((askConvertible world dst src).run as).2 := by
  fun_induction convertible world dst src generalizing as with
  | case1 e ih =>
    rw [← convertible, askConvertible]
    refine remembered_accurate h ?_
    rw [convertible]
    by_cases heq : Ty.byref e = dst
    · rw [if_pos heq, beq_iff_eq.mpr heq]
      exact ⟨rfl, h⟩
    · rw [if_neg heq, beq_eq_false_iff_ne.mpr heq]
      obtain ⟨hanswer, haccurate⟩ := ih h
      rw [run_or, numeric_byref, hanswer]
      exact ⟨rfl, haccurate⟩
  | case2 t hne =>
    have hanswer : convertible world dst t = (t == dst || numeric t dst || world.hasConversion t dst) := by
      rw [convertible]
      exact hne
    rw [← hanswer, askConvertible]
    · exact remembered_accurate h ⟨hanswer.symm, h⟩
    · exact hne

end

/-! ### Any conversion -/

instance upholds_typed (world : Universe) : Upholds world (Typed world) := ⟨id, lasting_typed world⟩

def HasCounterpart (world : Universe) (t : Ty) (u : CompilationUnit) : Prop :=
  ∃ ct u', Compiles (compileType world world.nestingLimit t) u ct u'

/-- Units between requests, with whatever else was put into their code, have a registry that fits their types. From such
a unit a conversion that succeeds, of an operand carried by a value of the right type to a type that has values and a
counterpart, gives an operand of that type and a value of its counterpart, that which the unit gives when it is asked
for the type; it leads to such a unit again; and every instruction that it put at the end of the block keeps the rules
of its operation. Answers whether types convert stay right however many of them are remembered. -/
theorem conversions_keep_types {world : Universe} (hworld : Consistent world) (hplain : PlainOperators world) :
    (∀ (u : CompilationUnit) (m : Module), u.Reachable world → u.module.Precedes m →
    Typed world { u with module := m }) ∧
    (∀ (site : Site) (fuel : Nat) (s s' : Stage) (u u' : CompilationUnit) (F : Function) (v w : Operand) (target : Ty),
      site.world = world → site.compile = compileMethod world fuel → Typed world u → Houses s.fn F u →
      CarriedBy u v.type v.slot v.value.type → target.isVoid = false → HasCounterpart world target u →
      Lowers (convert v target) site s u w s' u' →
      w.type = target ∧ Means u' target w.value.type ∧
      (∀ limit ct u'', Compiles (compileType world limit target) u' ct u'' → w.value.type = ct.code) ∧
      s' = s ∧ Typed world u' ∧ Extended u u' ∧
      ∃ F' ks, Houses s.fn F' u' ∧
        Appends (fun G k ↦ ∃ i, G.instrs[k]? = some i ∧ u'.module.checkInstr G i = []) s.block F F' ks) ∧
    Accurate world [] ∧
    ∀ as, Accurate world as → ∀ src dst, ((askConvertible world dst src).run as).1 = convertible world dst src ∧
      Accurate world ((askConvertible world dst src).run as).2 := by
  refine ⟨fun u m hu hm ↦ (hu.typed hworld).of_module rfl rfl hm, ?_, accurate_nil world,
    fun as h src dst ↦ askConvertible_accurate h src dst⟩
  rintro site fuel s s' u u' F v w target rfl hcompile hu hF hv hvoid ⟨ct, u₁, hct⟩ hrun
  have hsite : site.Converts := ⟨hworld, hplain, fuel, hcompile⟩
  have hcarried : Stands u v.type v.value.type ∨ v.type.isVoid = true ∧ target.isVoid = false := by
    by_cases ht : v.type.isVoid = true
    · exact .inr ⟨ht, hvoid⟩
    · exact .inl (hv.stands (Bool.eq_false_iff.mpr ht))
  obtain ⟨hs, ⟨htype, -, hyields⟩, F', hgain⟩ :=
    casting_convertFrom (J := Typed site.world) hsite v.type v.value v.slot hu hcarried s w s' u' F hrun rfl rfl hF hu
  have hmeans :=
    (hyields.stands hvoid).means hvoid (((spec_compileType_typed _ u _ target) u (.start hu)).1 ct u₁ hct).1
  obtain ⟨ks, happ⟩ := hgain.code.appends s.block
  refine ⟨htype, hmeans, fun limit ct u'' hc ↦ ?_, hs, hgain.kept, hgain.grown, F', ks, hgain.houses, ?_⟩
  · obtain ⟨hmeans', hsince⟩ := ((spec_compileType_typed limit u' _ target) u' (.start hgain.kept)).1 ct u'' hc
    exact (hmeans.mono hsince.grown).unique hmeans'
  · refine ⟨happ.earlier, happ.block, fun k hk ↦ ?_⟩
    obtain ⟨H, c, i, hfit, hi⟩ := happ.each k hk
    exact ⟨_, hi, hfit.placed.rules _ (.refl _) F'⟩

def smallSite : Site := { bareSite with world := smallWorld, compile := compileMethod smallWorld smallWorld.nestingLimit }

theorem plainOperators_smallWorld : PlainOperators smallWorld := by
  intro id m hm hconv
  obtain ⟨row, hrow⟩ := method?_worldOf hm
  obtain _ | _ | row := row
  · cases hrow
    rfl
  · cases hrow
    rfl
  · simp at hrow

/-- A slot that holds a truth value is read and widened. -/
theorem conversions_keep_types_bool : Consistent smallWorld ∧ PlainOperators smallWorld ∧
    ∃ (s' : Stage) (u' : CompilationUnit) (w : Operand),
      Typed smallWorld (bareUnit (.pointer .i1)) ∧
      Houses ⟨0⟩ (bareFunction (.pointer .i1)) (bareUnit (.pointer .i1)) ∧
      CarriedBy (bareUnit (.pointer .i1)) (.byref (.prim .bool)) true (.pointer .i1) ∧
      HasCounterpart smallWorld (.prim .int64) (bareUnit (.pointer .i1)) ∧
      Lowers (convert ⟨.byref (.prim .bool), .param ⟨0⟩ 0 (.pointer .i1), true⟩ (.prim .int64)) smallSite { fn := ⟨0⟩ }
        (bareUnit (.pointer .i1)) w s' u' ∧
      w.type = .prim .int64 ∧ Means u' (.prim .int64) w.value.type ∧ Typed smallWorld u' := by
  have htyped : Typed smallWorld (bareUnit (.pointer .i1)) := by constructor <;> simp [bareUnit]
  have hhouses : Houses ⟨0⟩ (bareFunction (.pointer .i1)) (bareUnit (.pointer .i1)) := by
    refine ⟨⟨fun j g hg ↦ ?_, fun j hj ↦ ?_⟩, rfl⟩
    · obtain _ | j := j
      · cases hg
        rfl
      · simp [bareUnit] at hg
    · obtain rfl := List.mem_singleton.mp hj
      decide
  have hcarries : CarriedBy (bareUnit (.pointer .i1)) (.byref (.prim .bool)) true (.pointer .i1) :=
    .slot rfl (.scalar rfl)
  have hcompilable : HasCounterpart smallWorld (.prim .int64) (bareUnit (.pointer .i1)) := ⟨_, _, rfl⟩
  obtain ⟨w, s', u', hrun⟩ : ∃ w s' u', Lowers
      (convert ⟨.byref (.prim .bool), .param ⟨0⟩ 0 (.pointer .i1), true⟩ (.prim .int64)) smallSite { fn := ⟨0⟩ }
      (bareUnit (.pointer .i1)) w s' u' := ⟨_, _, _, rfl⟩
  obtain ⟨htype, hmeans, -, -, hu', -⟩ := (conversions_keep_types smallWorld_consistent plainOperators_smallWorld).2.1
    smallSite smallWorld.nestingLimit { fn := ⟨0⟩ } s' (bareUnit (.pointer .i1)) u' (bareFunction (.pointer .i1)) _
    w (.prim .int64)
    rfl rfl htyped hhouses hcarries rfl hcompilable hrun
  exact ⟨smallWorld_consistent, plainOperators_smallWorld, s', u', w, htyped, hhouses, hcarries,
    hcompilable, hrun, htype, hmeans, hu'⟩

end CilSsa.Lowering

