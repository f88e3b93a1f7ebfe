import CilSsa.Proofs.BlockExchanges
import CilSsa.Proofs.CursorCode
import CilSsa.Proofs.TypedSteps

namespace CilSsa.Lowering

open CilSsa.Bytecode CilSsa.Metadata
open CilSsa.Ssa (Const FuncId Function Instr Module Value)

/-- What carries an operand of type `t`, slots included, is of type `c`. It is the counterpart of `t`, an address of
what carries what `t` refers to, or no value. -/
inductive Bears (u : CompilationUnit) : Ty → Ssa.Ty → Prop
  | nothing {t : Ty} : Bears u t .void
  | byte {t : Ty} : t.isVoid = true → Bears u t .i8
  | plain {t : Ty} {c : Ssa.Ty} : Means u t c → Bears u t c
  | address {t : Ty} {c : Ssa.Ty} : t.isAddress = true → Bears u t.elem c → Bears u t (.pointer c)

/-- What carries an operand is not the slot `top`. A slot is the address of something. -/
structure Borne (u : CompilationUnit) (top : Value) (w : Operand) : Prop where
  bears : Bears u w.type w.value.type
  apart : w.value ≠ top
  slot : w.slot = true → w.type.isAddress = true

/-- Function `fn` has the code `F`, and its slot `top` has been set up. -/
structure Hosts (fn : FuncId) (top : Value) (F : Function) (u : CompilationUnit) : Prop extends Houses fn F u where
  slot : ∃ k t, top = .instr ⟨fn, k⟩ t ∧ k < F.instrs.size

/-- Where block `b` of function `fn` is being lowered the slots of the site and the pending operands are borne, and no
aggregate is on the run-time stack. -/
structure Laid (site : Site) (fn : FuncId) (b : Nat) (u : CompilationUnit) (s : Stage) : Prop where
  genuine : site.Genuine
  slots : ∀ w ∈ site.args ++ site.locals, Borne u site.top w
  own : s.fn = fn
  block : s.block = b
  pending : ∀ w ∈ s.pending, Borne u site.top w
  flat : ∀ t ∈ s.entry, t.kind ≠ .valueType

/-- The move takes the counterpart of the type `t` from the run-time stack. -/
def Fetches (u : CompilationUnit) (t : Ty) (d : Shift) : Prop := ∃ c n, d = .pop c n ∧ Means u t c ∧ c.width? = some n

/-- A value of the counterpart of the type `t`, which is no struct, takes `n` bytes. -/
def Weighs (u : CompilationUnit) (t : Ty) (n : Nat) : Prop := ∃ c, Means u t c ∧ c.width? = some n

/-- The size of operands of the type `t` is `n`, unless they are aggregates. -/
def Measures (u : CompilationUnit) (t : Ty) (n : Int) : Prop := t.kind ≠ .valueType → ∃ k : Nat, n = k ∧ Weighs u t k

/-- From the unit `u` and the stage `s` operands with the types `ts` were taken from the run-time stack. The code of
function `fn` got the moves `ds` for that in block `b`, and else only what does not touch the cursor. -/
structure Carried (site : Site) (fn : FuncId) (b : Nat) (u : CompilationUnit) (F : Function) (s : Stage) (ts : List Ty)
    (ds : List Shift) (u' : CompilationUnit) (F' : Function) (s' : Stage) : Prop where
  kept : Weighed site.world u'
  grown : Extended u u'
  hosts : Hosts fn site.top F' u'
  hands : Hands site s s' ts
  takes : List.Forall₂ (Fetches u') ts ds
  code : Gains fn site.top b F ds F'

/-- Lowering from the unit `u` that moves the cursor only where it takes operands from the run-time stack, keeps
operands borne, and gives a value as `R` has it. -/
def Carrying (site : Site) (fn : FuncId) (b : Nat) {α : Type} (u : CompilationUnit) (c : Emit α)
    (R : α → CompilationUnit → Prop) : Prop :=
  ∀ s a s' u' F, Emits c s u a s' u' → Laid site fn b u s → Hosts fn site.top F u → Weighed site.world u →
    Laid site fn b u' s' ∧ R a u' ∧ ∃ F' ts ds, Carried site fn b u F s ts ds u' F' s'

abbrev CarryingAt (site : Site) (fn : FuncId) (b : Nat) {α : Type} (u : CompilationUnit) (c : Lower α)
    (R : α → CompilationUnit → Prop) : Prop := Carrying site fn b u (c.run site) R

section

variable {world : Universe} {site : Site} {fn : FuncId} {b : Nat} {u u₁ u' : CompilationUnit} {F F₁ F' : Function}
  {s s₁ s' : Stage} {t t' : Ty} {c c' : Ssa.Ty} {top : Value} {w : Operand} {n n' : Nat}

/-! ### What carries operands -/

theorem Bears.mono (h : Extended u u') (hb : Bears u t c) : Bears u' t c := by
  induction hb with
  | nothing => exact .nothing
  | byte hv => exact .byte hv
  | plain hm => exact .plain (hm.mono h)
  | address ha _ ih => exact .address ha ih

theorem Bears.address_cases (h : Bears u t c) (ht : t.isAddress = true) : c = .void ∨ ∃ e, c = .pointer e ∧
    Bears u t.elem e := by
  cases h with
  | nothing => exact .inl rfl
  | byte hv => rw [Ty.not_isAddress_of_isVoid hv] at ht; cases ht
  | plain hm =>
    rcases hm.address_cases ht with ⟨hv, rfl⟩ | ⟨e, rfl, -, he⟩
    · exact .inr ⟨_, rfl, .byte hv⟩
    · exact .inr ⟨e, rfl, .plain he⟩
  | address _ he => exact .inr ⟨_, rfl, he⟩

theorem Bears.read (h : Bears u t c) (ht : t.isAddress = true) : Bears u t.elem c.pointee := by
  rcases h.address_cases ht with rfl | ⟨e, rfl, he⟩
  · exact .nothing
  · exact he

theorem Bears.retype (h : Bears u t c) (ht : t.isAddress = true) (ht' : t'.isAddress = true)
    (helem : t.elem = t'.elem) : Bears u t' c := by
  rcases h.address_cases ht with rfl | ⟨e, rfl, he⟩
  · exact .nothing
  · exact .address ht' (helem ▸ he)

theorem Bears.width (h : Bears u t c) (hm : Means u t c') (hc : c.width? = some n)
    (hc' : c'.width? = some n') : n = n' := by
  by_cases ht : t.isAddress = true
  · obtain ⟨e, rfl, -⟩ := (h.address_cases ht).resolve_left (by rintro rfl; cases hc)
    obtain ⟨e', rfl, -⟩ := ((Bears.plain hm).address_cases ht).resolve_left (by rintro rfl; cases hc')
    exact Option.some.inj (hc.symm.trans hc')
  · cases h with
    | nothing => cases hc
    | byte hv => rw [hm.of_void hv] at hc'; cases hc'
    | plain hm' => exact Option.some.inj (hc.symm.trans (hm'.unique hm ▸ hc'))
    | address ha => exact absurd ha ht

theorem Means.isStruct (h : Means u t c) (ht : t.kind ≠ .valueType) : c.isStruct = false := by
  cases h with
  | scalar hp => rename_i p; cases p <;> cases hp <;> rfl
  | aggregate hk => exact absurd hk ht
  | _ => rfl

theorem Bears.flat (h : Bears u t c) (hc : c.width? = some n) : t.kind ≠ .valueType := by
  intro hk
  cases h with
  | nothing => cases hc
  | byte hv => simp [Ty.isVoid, hk] at hv
  | plain hm =>
    cases hm with
    | void hv => cases hc
    | scalar hp => cases hk
    | bytes ha => simp [Ty.isAddress, Ty.isByRef, Ty.isPointer, hk] at ha
    | address ha => simp [Ty.isAddress, Ty.isByRef, Ty.isPointer, hk] at ha
    | aggregate => cases hc
  | address ha => simp [Ty.isAddress, Ty.isByRef, Ty.isPointer, hk] at ha

theorem Bears.stands {id : Nat} {name : String} (h : Bears u t (.struct id name)) : Stands u t (.struct id name) := by
  cases h with
  | plain hm => exact hm.stands Ssa.Ty.noConfusion

theorem Borne.mono (h : Extended u u') (hw : Borne u top w) : Borne u' top w := ⟨hw.bears.mono h, hw.apart, hw.slot⟩

theorem Fetches.mono {d : Shift} (h : Extended u u') : Fetches u t d → Fetches u' t d := fun ⟨c, n, hd, hm, hn⟩ ↦
    ⟨c, n, hd, hm.mono h, hn⟩

theorem Laid.mono (h : Extended u u') (hs : Laid site fn b u s) : Laid site fn b u' s :=
  { hs with slots := fun w hw ↦ (hs.slots w hw).mono h, pending := fun w hw ↦ (hs.pending w hw).mono h }

theorem Hosts.later (h : Hosts fn top F u) (hF : F.Earlier F') (hF' : Houses fn F' u') : Hosts fn top F' u' := by
  obtain ⟨k, t, htop, hk⟩ := h.slot
  exact ⟨hF', k, t, htop, (Array.getElem?_eq_some_iff.mp (hF k _ (Array.getElem?_eq_getElem hk))).1⟩

theorem Carried.refl (hu : Weighed site.world u) (hF : Hosts fn site.top F u) (hfn : s'.fn = s.fn)
    (hb : s'.block = s.block) (he : s'.entry = s.entry) (hi : s'.inferring = s.inferring)
    (hd : s'.inferred = s.inferred) (hE : s'.entries = s.entries) : Carried site fn b u F s [] [] u F s' :=
  ⟨hu, .refl u, hF, .same hfn hb he hi hd hE, .nil, .refl⟩

theorem Carried.trans {ts ts' : List Ty} {ds ds' : List Shift} (h : Carried site fn b u F s ts ds u₁ F₁ s₁)
    (h' : Carried site fn b u₁ F₁ s₁ ts' ds' u' F' s') : Carried site fn b u F s (ts ++ ts') (ds ++ ds') u' F' s' :=
  ⟨h'.kept, h.grown.trans h'.grown, h'.hosts, h.hands.trans h'.hands,
    List.rel_append (h.takes.imp fun _ _ ht ↦ ht.mono h'.grown) h'.takes, h.code.trans h'.code⟩

end

/-! ### Lowering with borne operands -/

section

variable {α β : Type} {site : Site} {fn : FuncId} {b : Nat} {F : Function} {u u' : CompilationUnit}
  {R : α → CompilationUnit → Prop} {S : β → CompilationUnit → Prop}

theorem Carrying.bind {c : Emit α} {f : α → Emit β} (hc : Carrying site fn b u c R)
    (hf : ∀ a u₁, Extended u u₁ → R a u₁ → Carrying site fn b u₁ (f a) S) : Carrying site fn b u (c >>= f) S := by
  intro s a s' u' F he hs hF hu
  obtain ⟨a₁, s₁, u₁, h₁, h₂⟩ := Emits.bind_iff.mp he
  obtain ⟨hs₁, hR, F₁, ts, ds, hcar⟩ := hc _ _ _ _ F h₁ hs hF hu
  obtain ⟨hs', hS, F', ts', ds', hcar'⟩ := hf a₁ u₁ hcar.grown hR _ _ _ _ F₁ h₂ hs₁ hcar.hosts hcar.kept
  exact ⟨hs', hS, F', _, _, hcar.trans hcar'⟩

theorem CarryingAt.bind {c : Lower α} {f : α → Lower β} (hc : CarryingAt site fn b u c R)
    (hf : ∀ a u₁, Extended u u₁ → R a u₁ → CarryingAt site fn b u₁ (f a) S) : CarryingAt site fn b u (c >>= f) S :=
    Carrying.bind hc hf

theorem CarryingAt.read_bind {f : Site → Lower β} (h : CarryingAt site fn b u (f site) S) :
    CarryingAt site fn b u (read >>= f) S := h

theorem Carrying.pure {a : α} (h : R a u) : Carrying site fn b u (pure a) R := by
  intro s a' s' u' F he hs hF hu
  obtain ⟨rfl, rfl, rfl⟩ := Emits.pure_iff.mp he
  exact ⟨hs, h, F, [], [], .refl hu hF rfl rfl rfl rfl rfl rfl⟩

theorem Carrying.throw {e : CompileError} : Carrying site fn b u (throw e : Emit α) R := fun _ _ _ _ _ he ↦
    absurd he Emits.throw_iff

theorem CarryingAt.throw {e : CompileError} : CarryingAt site fn b u (throw e : Lower α) R := Carrying.throw

theorem Carrying.imp {c : Emit α} {R' : α → CompilationUnit → Prop} (h : Carrying site fn b u c R)
    (hR : ∀ a u', Extended u u' → R a u' → R' a u') : Carrying site fn b u c R' := by
  intro s a s' u' F he hs hF hu
  obtain ⟨hs', ha, F', ts, ds, hcar⟩ := h s a s' u' F he hs hF hu
  exact ⟨hs', hR a u' hcar.grown ha, F', ts, ds, hcar⟩

theorem Carrying.assume {c : Emit α} (h : site.Genuine → (∀ w ∈ site.args ++ site.locals, Borne u site.top w) →
    Weighed site.world u → Carrying site fn b u c R) : Carrying site fn b u c R :=
  fun s a s' u' F he hs hF hu ↦ h hs.genuine hs.slots hu s a s' u' F he hs hF hu

theorem Carrying.quiet {c : Emit α} (h : ∀ s a s' u' F, Emits c s u a s' u' → s.fn = fn → s.block = b →
    Hosts fn site.top F u → Weighed site.world u → (∃ k, s' = { s with constants := k }) ∧ R a u' ∧
    Weighed site.world u' ∧ Extended u u' ∧
      ∃ F', Houses fn F' u' ∧ Gains fn site.top b F [] F') : Carrying site fn b u c R := by
  intro s a s' u' F he hs hF hu
  obtain ⟨⟨k, rfl⟩, hR, hu', hg, F', hF', hgains⟩ := h s a s' u' F he hs.own hs.block hF hu
  exact ⟨{ hs.mono hg with }, hR, F', [], [], hu', hg, hF.later hgains.earlier hF', .same rfl rfl rfl rfl rfl rfl, .nil,
    hgains⟩

theorem compiled_keeps {world : Universe} {c : Compile α} {a : α} (hl : Leaves fn c)
    (hkeeps : Spec (Weighed world) c (fun _ ↦ Weighed world) fun _ ↦ True)
    (h : Spec (TypedSince world u fun _ ↦ False) c (fun a v ↦ R a v ∧ TypedSince world u (fun _ ↦ False) v) fun _ ↦
    True) (hc : Compiles c u a u') (hF : Houses fn F u) (hu : Weighed world u) :
    R a u' ∧ Weighed world u' ∧ Extended u u' ∧ Houses fn F u' := by
  obtain ⟨ha, hsince⟩ := (h u (.start hu.typed)).1 a u' hc
  exact ⟨ha, (hkeeps u hu).1 a u' hc, hsince.grown, (hl F u hF).1 a u' hc⟩

theorem Carrying.compile {c : Compile α} (h : ∀ u' F a, Compiles c u a u' → Houses fn F u → Weighed site.world u →
    R a u' ∧ Weighed site.world u' ∧ Extended u u' ∧ Houses fn F u') : Carrying site fn b u (liftM c : Emit α) R := by
  refine .quiet fun s a s' u' F he hfn hb hF hu ↦ ?_
  obtain ⟨rfl, hc⟩ := Emits.lift_iff.mp he
  obtain ⟨hR, hu', hg, hF'⟩ := h u' F a hc hF.toHouses hu
  exact ⟨⟨_, rfl⟩, hR, hu', hg, F, hF', .refl⟩

theorem Carrying.mapM {T : α → β → CompilationUnit → Prop} {f : α → Emit β} {as : List α}
    (hT : ∀ {u u' a b}, Extended u u' → T a b u → T a b u')
    (hf : ∀ u' a, a ∈ as → Extended u u' → Carrying site fn b u' (f a) (T a)) :
    Carrying site fn b u (as.mapM f) fun bs u' ↦ List.Forall₂ (fun a b ↦ T a b u') as bs := by
  induction as generalizing u with
  | nil => exact .pure .nil
  | cons a as ih =>
    rw [List.mapM_cons]
    refine (hf u a List.mem_cons_self (.refl u)).bind fun x u₁ hg hx ↦ ?_
    refine (ih fun u' a ha hg' ↦ hf u' a (List.mem_cons_of_mem _ ha) (hg.trans hg')).bind fun xs u₂ hg' hxs ↦ ?_
    exact .pure (.cons (hT hg' hx) hxs)

theorem CarryingAt.mapM {T : α → β → CompilationUnit → Prop} {f : α → Lower β} {as : List α}
    (hT : ∀ {u u' a b}, Extended u u' → T a b u → T a b u')
    (hf : ∀ u' a, a ∈ as → Extended u u' → CarryingAt site fn b u' (f a) (T a)) :
    CarryingAt site fn b u (as.mapM f) fun bs u' ↦ List.Forall₂ (fun a b ↦ T a b u') as bs := by
  rw [CarryingAt, run_mapM]
  exact .mapM hT hf

theorem CarryingAt.forM {f : α → Lower PUnit} {as : List α}
    (hf : ∀ u' a, a ∈ as → CarryingAt site fn b u' (f a) fun _ _ ↦ True) :
    CarryingAt site fn b u (as.forM f) fun _ _ ↦ True := by
  induction as generalizing u with
  | nil => exact Carrying.pure trivial
  | cons a as ih =>
    exact CarryingAt.bind (hf u a List.mem_cons_self) fun _ _ _ _ ↦ ih fun u' a ha ↦ hf u' a (List.mem_cons_of_mem _ ha)

theorem carrying_lowerWithin {part : Part} {c : Lower α} (h : CarryingAt site fn b u c R) :
    CarryingAt site fn b u (lowerWithin part c) R :=
  fun s a s' u' F h' ↦ h s a s' u' F (Compiles.adapt_iff.mp h')

end

section

variable {site : Site} {fn : FuncId} {b : Nat} {F : Function} {u u' : CompilationUnit} {v p : Value}
  {w : Operand} {i : Instr} {t : Ty} {e : Ssa.Ty} {args : List Value}

/-! ### Single instructions -/

theorem carrying_emitAt {k : Nat} (hk : k = b ∨ k = 0) (hi : some site.top ∉ i.operands) :
    Carrying site fn b u (emitAt k i) fun v _ ↦ v.type = i.type ∧ v ≠ site.top := by
  refine .quiet fun s v s' u' F he hfn hb hF hu ↦ ?_
  obtain ⟨rfl, rfl, hu', hg, hF'⟩ := emitAt_keeps he hfn hF.toHouses hu
  refine ⟨⟨_, rfl⟩, ⟨rfl, fun heq ↦ ?_⟩, hu', hg, _, hF', .aside .refl hk (.inl hi)⟩
  obtain ⟨k, t, htop, hlt⟩ := hF.slot
  rw [htop] at heq
  cases heq
  exact absurd hlt (Nat.lt_irrefl _)

theorem carrying_emit (hi : some site.top ∉ i.operands) :
    Carrying site fn b u (emit i) fun v _ ↦ v.type = i.type ∧ v ≠ site.top := by
  intro s v s' u' F he hs hF hu
  obtain ⟨_, _, _, hget, he⟩ := Emits.bind_iff.mp he
  obtain ⟨rfl, rfl, rfl⟩ := Emits.get_iff.mp hget
  rw [hs.block] at he
  exact carrying_emitAt (.inl rfl) hi s v s' u' F he hs hF hu

theorem carrying_constant (k : Const) : Carrying site fn b u (constant k) fun v _ ↦ v.type = k.type ∧ v ≠ site.top := by
  refine .quiet fun s v s' u' F he hfn hb hF hu ↦ ?_
  obtain ⟨h, rfl⟩ := Emits.modifyGet_iff.mp he
  cases h
  obtain ⟨_, _, htop, -⟩ := hF.slot
  exact ⟨⟨_, rfl⟩, ⟨rfl, by rw [htop]; exact nofun⟩, hu, .refl _, F, hF.toHouses, .refl⟩

theorem carrying_intConst (t : Ssa.Ty) (n : Int) : Carrying site fn b u (intConst t n) fun v _ ↦
    v.type = t ∧ v ≠ site.top :=
  carrying_constant _

theorem aside_one (hv : v ≠ site.top) : some site.top ∉ [some v] := by simpa using hv.symm

theorem aside_two (hv : v ≠ site.top) (hp : p ≠ site.top) : some site.top ∉ [some v, some p] := by
  simpa using ⟨hv.symm, hp.symm⟩

theorem carrying_load (hp : p ≠ site.top) : Carrying site fn b u (load p) fun v _ ↦
    v.type = p.type.pointee ∧ v ≠ site.top :=
  carrying_emit (aside_one hp)

theorem carrying_store (hv : v ≠ site.top) (hp : p ≠ site.top) : Carrying site fn b u (store v p) fun _ _ ↦ True :=
  (carrying_emit (aside_two hv hp)).bind fun _ _ _ _ ↦ .pure trivial

theorem carrying_castTo {op : Ssa.Op} (hv : v ≠ site.top) :
    Carrying site fn b u (castTo op v e) fun w _ ↦ w.type = e ∧ w ≠ site.top := carrying_emit (aside_one hv)

theorem carrying_emitOr {o : Option Instr} (hv : v ≠ site.top) (ht : (o.map (·.type)).getD v.type = e)
    (ho : ∀ i ∈ o, i.operands = [some v]) : Carrying site fn b u (emitOr v o) fun w _ ↦ w.type = e ∧ w ≠ site.top := by
  subst ht
  cases o with
  | none => exact .pure ⟨rfl, hv⟩
  | some i => exact carrying_emit (ho i rfl ▸ aside_one hv)

theorem carrying_pointerTo (hv : v ≠ site.top) : Carrying site fn b u (pointerTo v e) fun w _ ↦
    w.type = e ∧ w ≠ site.top :=
  carrying_emitOr hv type_of_pointerCast fun i hi ↦ (made_pointerCast i hi).2

theorem carrying_slotFor (e : Ssa.Ty) (name : String) :
    Carrying site fn b u (slotFor e name) fun v _ ↦ v.type = .pointer e ∧ v ≠ site.top :=
    carrying_emitAt (.inr rfl) nofun

theorem carrying_unit : Carrying site fn b u (liftM (get : Compile CompilationUnit) : Emit CompilationUnit) fun v u' ↦
    v = u' :=
  .compile fun _ _ _ ↦ compiled_keeps leaves_get (.get fun _ hu ↦ hu) (.get fun _ hu ↦ ⟨rfl, hu⟩)

theorem carrying_emitCall {m : Method} {f : FuncId} (hf : DeclaredFor u m f) (hargs : ∀ v ∈ args, v ≠ site.top) :
    Carrying site fn b u (emitCall f args) fun v u' ↦ Means u' m.returnType v.type ∧ v ≠ site.top := by
  refine carrying_unit.bind ?_
  rintro _ u₁ hg rfl
  obtain ⟨G, hG, ret, params, hsig, hret, -⟩ := hf.mono hg
  refine (carrying_emit ?_).imp fun v u' hg' hv ↦ ⟨?_, hv.2⟩
  · simpa [Instr.call] using fun h ↦ hargs _ h rfl
  · rw [hv.1, Instr.call, hG, Option.map_some, Option.getD_some, Function.ret, hsig]
    exact hret.mono hg'

theorem carrying_clearAt (size : Int) (hv : v ≠ site.top) : Carrying site fn b u (clearAt b v size) fun _ _ ↦ True := by
  intro s x s' u' F he hs hF hu
  have hblock := hs.block
  subst hblock
  obtain ⟨rfl, p, u₁, w, hcast, hcall⟩ := clearAt_inv he
  obtain ⟨hnum, -, -, hkept⟩ := memset_spec hF.numbered s.fn
  have hgrown : Extended u { u with module := u.module.memset.1 } := ⟨precedes_memset _, fun _ _ _ h ↦ h⟩
  have hs₀ : Laid site fn s.block { u with module := u.module.memset.1 } { s with constants := s.constants + 3 } :=
    { hs.mono hgrown with }
  have hF₀ : Hosts fn site.top F { u with module := u.module.memset.1 } := ⟨⟨hnum, hkept _ _ hF.found⟩, hF.slot⟩
  obtain ⟨hs₁, hp, F₁, ts, ds, hcar⟩ := carrying_pointerTo hv _ _ _ _ F hcast hs₀ hF₀
    ((lasting_weighed site.world).memset hu)
  have hi : some site.top ∉ (clearing u.module.memset.2 p (Number.wordOfInt size) s.constants).operands := by
    obtain ⟨_, _, htop, -⟩ := hF.slot
    simpa [clearing, Instr.call, htop, eq_comm] using hp.2
  obtain ⟨hs₂, -, F₂, ts', ds', hcar'⟩ := carrying_emit hi _ _ _ _ F₁ hcall hs₁ hcar.hosts hcar.kept
  have hboth := hcar.trans hcar'
  have hhands : Hands site s { s with constants := s.constants + 3 } [] := .same rfl rfl rfl rfl rfl rfl
  exact ⟨hs₂, trivial, F₂, [] ++ (ts ++ ts'), _, ⟨hboth.kept, hgrown.trans hboth.grown, hboth.hosts,
    hhands.trans hboth.hands, hboth.takes, hboth.code⟩⟩

/-! ### Operands -/

theorem carrying_push (hw : Borne u site.top w) : Carrying site fn b u (push w) fun _ _ ↦ True := by
  intro s x s' u' F he hs hF hu
  obtain ⟨rfl, rfl⟩ := Emits.modify_iff.mp he
  exact ⟨{ hs with pending := List.forall_mem_cons.mpr ⟨hw, hs.pending⟩ }, trivial, F, [], [],
    .refl hu hF rfl rfl rfl rfl rfl rfl⟩

theorem carrying_read (hv : Bears u t v.type) (ht : t.isAddress = true) (hne : v ≠ site.top) :
    Carrying site fn b u (load v) fun x u' ↦ Borne u' site.top ⟨t.elem, x, false⟩ :=
  (carrying_load hne).imp fun _ _ hg hx ↦ ⟨hx.1 ▸ (hv.read ht).mono hg, hx.2, nofun⟩

theorem carrying_materialize (hw : Borne u site.top w) :
    Carrying site fn b u (materialize w) fun x u' ↦ Borne u' site.top x ∧ x.slot = false := by
  unfold materialize
  split
  · exact (carrying_read hw.bears (hw.slot ‹_›) hw.apart).bind fun _ _ _ hx ↦ .pure ⟨hx, rfl⟩
  · exact .pure ⟨hw, Bool.eq_false_iff.mpr ‹_›⟩

theorem carrying_deref (hw : Borne u site.top w) : Carrying site fn b u (deref w) fun x u' ↦ Borne u' site.top x := by
  refine (carrying_materialize hw).bind fun x u₁ _ hx ↦ ?_
  split
  · rename_i href
    exact (carrying_read hx.1.bears (by rw [Ty.isAddress, href, Bool.true_or]) hx.1.apart).bind fun _ _ _ hy ↦ .pure hy
  · exact .pure hx.1

theorem carrying_settle : Carrying site fn b u settle fun _ _ ↦ True := by
  intro s x s' u' F he hs hF hu
  obtain ⟨_, _, _, hget, he⟩ := Emits.bind_iff.mp he
  obtain ⟨rfl, rfl, rfl⟩ := Emits.get_iff.mp hget
  obtain ⟨ws, s₁, u₁, hread, hset⟩ := Emits.bind_iff.mp he
  obtain ⟨rfl, rfl⟩ := Emits.modify_iff.mp hset
  have hall : Carrying site fn b u (s.pending.reverse.mapM materialize) fun ws u' ↦
      List.Forall₂ (fun _ w ↦ Borne u' site.top w) s.pending.reverse ws :=
    .mapM (T := fun _ w u ↦ Borne u site.top w) (fun hg hw ↦ hw.mono hg) fun u' w hw hg ↦
      (carrying_materialize ((hs.pending w (List.mem_reverse.mp hw)).mono hg)).imp fun _ _ _ hx ↦ hx.1
  obtain ⟨hs', hws, F', ts, ds, hcar⟩ := hall _ _ _ _ F hread hs hF hu
  refine ⟨{ hs' with pending := fun w hw ↦ ?_ }, trivial, F', ts ++ [], ds ++ [], hcar.trans ?_⟩
  · exact (exists_left_of_forall₂ hws (List.mem_reverse.mp hw)).elim fun _ h ↦ h.2
  · exact .refl hcar.kept hcar.hosts rfl rfl rfl rfl rfl rfl

/-! ### The run-time stack -/

theorem counterpart_keeps {world : Universe} {c : Ssa.Ty} (hc : Compiles (codeType world t) u c u') (hF : Houses fn F u)
    (hu : Weighed world u) : Means u' t c ∧ Weighed world u' ∧ Extended u u' ∧ Houses fn F u' :=
  compiled_keeps (leaves_codeType t) ((lasting_weighed world).codeType t) (spec_codeType_typed t) hc hF hu

theorem sizeOf_keeps {world : Universe} {n : Int} (hc : Compiles (sizeOf e) u n u') (hF : Houses fn F u)
    (hu : Weighed world u) : (e.isStruct = false → ∃ k : Nat, n = k ∧ e.width? = some k) ∧ Weighed world u' ∧
    Extended u u' ∧ Houses fn F u' := by
  have := (lasting_weighed world).stable
  obtain ⟨-, hkept⟩ := compiled_keeps (R := fun _ _ ↦ True) (leaves_sizeOf e) (spec_sizeOf e)
    ((spec_sizeOf e).imp (fun _ hu ↦ hu) fun _ _ hu ↦ ⟨trivial, hu⟩) hc hF hu
  refine ⟨fun hstruct ↦ ?_, hkept⟩
  unfold sizeOf layoutOf at hc
  simp only [Compiles.bind_iff, Compiles.get_iff, Compiles.set_iff, Compiles.pure_iff] at hc
  obtain ⟨l, _, ⟨_, _, ⟨rfl, rfl⟩, _, _, -, hl⟩, rfl, -⟩ := hc
  have hnative := (hu.native.of u.module e).2 l hstruct
  split at hl
  · rename_i hok
    obtain ⟨rfl, -⟩ := Compiles.pure_iff.mp hl
    exact ⟨_, rfl, hnative hok⟩
  · exact absurd hl Compiles.throw_iff

theorem carrying_counterpart (t : Ty) : CarryingAt site fn b u (counterpart t) fun c u' ↦ Means u' t c :=
  .compile fun _ _ _ ↦ counterpart_keeps

theorem carrying_sizeOf (e : Ssa.Ty) : Carrying site fn b u (liftM (sizeOf e) : Emit Int) fun n _ ↦
    e.isStruct = false → ∃ k : Nat, n = k ∧ e.width? = some k :=
  .compile fun _ _ _ ↦ sizeOf_keeps

theorem carrying_operandSize (t : Ty) : CarryingAt site fn b u (operandSize t) fun n u' ↦ Measures u' t n := by
  refine CarryingAt.bind (carrying_counterpart t) fun c u₁ _ hc ↦ (carrying_sizeOf c).imp fun n u₂ hg hn ht ↦ ?_
  obtain ⟨k, rfl, hk⟩ := hn (hc.isStruct ht)
  exact ⟨k, rfl, c, hc.mono hg, hk⟩

theorem takeEntry_flat {hint : Option Ty} {s s' : Stage} (he : Emits (takeEntry hint) s u t s' u')
    (hs : ∀ t ∈ s.entry, t.kind ≠ .valueType) : t.kind ≠ .valueType ∧ ∀ t ∈ s'.entry, t.kind ≠ .valueType := by
  obtain ⟨rfl, ⟨rest, hentry, rfl⟩ | ⟨hentry, hinferring, rfl⟩⟩ := takeEntry_inv he
  · exact List.forall_mem_cons.mp (hentry ▸ hs)
  refine ⟨?_, hs⟩
  obtain ⟨_, _, _, hget, he⟩ := Emits.bind_iff.mp he
  obtain ⟨rfl, rfl, rfl⟩ := Emits.get_iff.mp hget
  dsimp only at he
  rw [hentry, hinferring] at he
  cases hint with
  | none => exact absurd he Emits.throw_iff
  | some hint =>
    obtain ⟨_, _, _, -, he⟩ := Emits.bind_iff.mp he
    obtain ⟨rfl, -, -⟩ := Emits.pure_iff.mp he
    split
    · exact Kind.noConfusion
    · assumption

/-- The top operand is one that the block pushed, or is taken from the run-time stack. -/
theorem carrying_popRaw (hint : Option Ty) : CarryingAt site fn b u (popRaw hint) fun w u' ↦ Borne u' site.top w := by
  intro s w s' u' F hpop hs hF hu
  obtain ⟨rest, hp, rfl, rfl⟩ | ⟨hp, h⟩ := popRaw_cases hpop
  · have hpending := List.forall_mem_cons.mp (hp ▸ hs.pending)
    exact ⟨{ hs with pending := hpending.2 }, hpending.1, F, [], [], .refl hu hF rfl rfl rfl rfl rfl rfl⟩
  · obtain ⟨t, s₁, u₀, htake, hrest⟩ := Lowers.bind_iff.mp h
    have htake := Lowers.emit_iff.mp htake
    obtain ⟨ht, hflat⟩ := takeEntry_flat htake hs.flat
    obtain ⟨hfn, hb, hpending, rfl⟩ : s₁.fn = s.fn ∧ s₁.block = s.block ∧ s₁.pending = s.pending ∧ u₀ = u := by
      obtain ⟨rfl, ⟨_, -, rfl⟩ | ⟨-, -, rfl⟩⟩ := takeEntry_inv htake <;> exact ⟨rfl, rfl, rfl, rfl⟩
    obtain ⟨c, _, u₁, hcounterpart, hrest⟩ := Lowers.bind_iff.mp hrest
    obtain ⟨rfl, hcode⟩ := Lowers.counterpart_iff.mp hcounterpart
    obtain ⟨hc, hu₁, hg₁, hF₁⟩ := counterpart_keeps hcode hF.toHouses hu
    obtain ⟨n, _, u₂, hmeasure, hrest⟩ := Lowers.bind_iff.mp hrest
    obtain ⟨rfl, hsize⟩ := Lowers.compile_iff.mp hmeasure
    obtain ⟨hn, hu₂, hg₂, hF₂⟩ := sizeOf_keeps hsize hF₁ hu₁
    obtain ⟨n, rfl, hwidth⟩ := hn (hc.isStruct ht)
    obtain ⟨_, _, _, hread, hrest⟩ := Lowers.bind_iff.mp hrest
    obtain ⟨rfl, rfl, rfl⟩ := Lowers.read_iff.mp hread
    obtain ⟨v, _, _, hv, hrest⟩ := Lowers.bind_iff.mp hrest
    obtain ⟨rfl, rfl, rfl⟩ := Lowers.pure_iff.mp hrest
    obtain ⟨⟨k, rfl⟩, hu', hg₃, F', lines, hF', hwrites, hvtype, ⟨i, hi⟩, hspelt⟩ :=
      writing_popBuffer site.top c n _ _ _ _ _ F (Lowers.emit_iff.mp hv) (hfn.trans hs.own) (hb.trans hs.block) hF₂ hu₂
    have hg := (hg₁.trans hg₂).trans hg₃
    have hc' := (hc.mono hg₂).mono hg₃
    have hcode : Gains fn site.top b F [.pop c n] F' := .shift .refl hspelt hwrites
    refine ⟨?_, ⟨.plain (hvtype ▸ hc'), ?_, nofun⟩, F', [t], [.pop c n], hu', hg,
      hF.later hcode.earlier hF', .taken hp hpop, .cons ⟨c, n, rfl, hc', hwidth⟩ .nil, hcode⟩
    · exact { hs.mono hg with
        own := hfn.trans hs.own
        block := hb.trans hs.block
        pending := fun w hw ↦ (hs.pending w (hpending ▸ hw)).mono hg
        flat := hflat }
    · obtain ⟨_, _, htop, hk⟩ := hF.slot
      exact htop ▸ hwrites.apart hk _ hi

/-! ### Conversions -/

variable {v : Operand} {x : Value} {target : Ty} {dst : Ssa.Ty} {slot : Bool}

theorem carrying_method (hsite : site.Genuine) {id : MethodId} {m : Method} (hm : site.world.method? id = some m) :
    CarryingAt site fn b u (liftM (site.compile m) : Lower FuncId) fun f u' ↦ DeclaredFor u' m f := by
  have hfound := hsite.consistent id m hm
  obtain ⟨fuel, hcompile⟩ := hsite.compiles
  rw [hcompile]
  exact .compile fun _ _ _ ↦ compiled_keeps (leaves_compileMethod site.world fuel m)
    ((lasting_weighed site.world).methods hsite.consistent fuel hfound)
    (spec_compileMethod_typed hsite.consistent fuel hfound)

theorem carrying_convertByOperator (hv : v.value ≠ site.top) :
    CarryingAt site fn b u (convertByOperator v target) fun w u' ↦ Borne u' site.top ⟨target, w, false⟩ := by
  refine .assume fun hsite _ _ ↦ CarryingAt.read_bind ?_
  cases hm : site.world.conversion? v.type target with
  | none => exact CarryingAt.throw
  | some m =>
    obtain ⟨⟨id, hid⟩, -, -, hret⟩ := declared_of_conversion? hm
    refine CarryingAt.bind (carrying_method hsite hid) fun f u₁ _ hf ↦
      (carrying_emitCall hf (List.forall_mem_singleton.mpr hv)).imp fun w u₂ _ hw ↦ ⟨?_, hw.2, nofun⟩
    obtain ⟨hmeans, -⟩ := hw
    unfold Method.returnType at hmeans
    split at hmeans
    · exact hmeans.of_void rfl ▸ .nothing
    · exact hret ▸ .plain hmeans

theorem carrying_convertValue (hv : v.value ≠ site.top) (hdst : Means u target dst) :
    CarryingAt site fn b u (convertValue v target dst) fun w u' ↦ Borne u' site.top ⟨target, w, false⟩ := by
  have hgives : ∀ {u₁} {c : Emit Value}, Extended u u₁ →
    Carrying site fn b u₁ c (fun w _ ↦ w.type = dst ∧ w ≠ site.top) →
      Carrying site fn b u₁ c fun w u' ↦ Borne u' site.top ⟨target, w, false⟩ :=
    fun hg h ↦ h.imp fun _ _ hg' hw ↦ ⟨hw.1 ▸ .plain ((hdst.mono hg).mono hg'), hw.2, nofun⟩
  have htwice : ∀ (op op' : Ssa.Op) (mid : Ssa.Ty), CarryingAt site fn b u (do
      let n ← castTo op v.value mid
      castTo op' n dst : Lower Value) fun w u' ↦ Borne u' site.top ⟨target, w, false⟩ := fun op op' mid ↦
    CarryingAt.bind (carrying_castTo hv) fun n u₁ hg hn ↦ hgives hg (carrying_castTo hn.2)
  unfold convertValue
  dsimp only
  split
  · rename_i heq
    exact Carrying.pure ⟨heq ▸ .plain hdst, hv, nofun⟩
  rename_i hne
  split
  case h_1 | h_2 => exact carrying_convertByOperator hv
  case h_3 hsrc => exact hgives (.refl u) (carrying_emitOr hv (type_of_intCast hsrc) fun i hi ↦ (made_intCast i hi).2)
  case h_7 | h_8 | h_9 | h_10 =>
    exact hgives (.refl u) (carrying_emitOr hv type_of_floatCast fun i hi ↦ (made_floatCast i hi).2)
  case h_13 | h_14 | h_17 | h_18 => exact htwice _ _ _
  case h_15 => exact hgives (.refl u) (carrying_pointerTo hv)
  case h_19 => exact CarryingAt.throw
  all_goals exact hgives (.refl u) (carrying_castTo hv)

theorem carrying_convertDirectly (hv : v.value ≠ site.top) :
    CarryingAt site fn b u (convertDirectly v target) fun w u' ↦ w.type = target ∧ Borne u' site.top w := by
  unfold convertDirectly
  split
  · refine CarryingAt.bind (carrying_counterpart target) fun c u₁ _ hc ↦ ?_
    exact CarryingAt.bind (carrying_castTo hv) fun w u₂ hg hw ↦
    Carrying.pure ⟨rfl, hw.1 ▸ .plain (hc.mono hg), hw.2, nofun⟩
  · refine CarryingAt.read_bind ?_
    split
    · exact CarryingAt.bind (R := fun _ _ ↦ False) .throw fun _ _ _ h ↦ h.elim
    · refine CarryingAt.bind (carrying_counterpart target) fun c u₁ _ hc ↦ ?_
      exact CarryingAt.bind (carrying_convertValue hv hc) fun w u₂ _ hw ↦ Carrying.pure ⟨rfl, hw⟩

theorem carrying_convertFrom (hw : Borne u site.top ⟨t, x, slot⟩) :
    CarryingAt site fn b u (convertFrom target t x slot) fun w u' ↦ w.type = target ∧ Borne u' site.top w := by
  fun_induction convertFrom target t x slot generalizing u with
  | case1 _ _ _ heq => exact Carrying.pure ⟨rfl, heq ▸ hw⟩
  | case2 _ _ _ _ h =>
    simp only [Bool.and_eq_true, beq_iff_eq] at h
    exact Carrying.pure ⟨rfl, hw.bears.retype rfl h.1.2 h.2, hw.apart, fun h ↦ absurd h Bool.false_ne_true⟩
  | case3 => exact CarryingAt.bind (carrying_read hw.bears rfl hw.apart) fun _ _ _ hx ↦ Carrying.pure ⟨rfl, hx⟩
  | case4 _ _ _ _ _ _ ih =>
    refine CarryingAt.read_bind ?_
    split
    · exact CarryingAt.bind (carrying_read hw.bears rfl hw.apart) fun y _ _ hy ↦ ih y hy
    · exact carrying_convertDirectly hw.apart
  | case5 => exact Carrying.pure ⟨rfl, hw⟩
  | case6 _ _ _ _ _ h =>
    simp only [Bool.and_eq_true, beq_iff_eq] at h
    exact Carrying.pure ⟨rfl, hw.bears.retype h.1.1.2 h.1.2 h.2, hw.apart, fun h ↦ absurd h Bool.false_ne_true⟩
  | case7 => exact carrying_convertDirectly hw.apart

theorem carrying_convert (hw : Borne u site.top w) (t : Ty) :
    CarryingAt site fn b u (convert w t) fun x u' ↦ x.type = t ∧ Borne u' site.top x := carrying_convertFrom hw

theorem carrying_pop (t : Ty) : CarryingAt site fn b u (pop t) fun w u' ↦ w.type = t ∧ Borne u' site.top w :=
  CarryingAt.bind (carrying_popRaw _) fun _ _ _ hw ↦ carrying_convert hw t

theorem carrying_address (t : Ty) (hw : Borne u site.top w) :
    CarryingAt site fn b u (address w t) fun p u' ↦ Borne u' site.top ⟨.byref t, p, false⟩ := by
  refine CarryingAt.bind (carrying_counterpart t) fun c u₁ hg hc ↦ ?_
  have hend : ∀ {u₂} {d : Emit Value}, Extended u₁ u₂ →
    Carrying site fn b u₂ d (fun p _ ↦ p.type = .pointer c ∧ p ≠ site.top) →
      Carrying site fn b u₂ d fun p u' ↦ Borne u' site.top ⟨.byref t, p, false⟩ :=
    fun hg h ↦ h.imp fun _ _ hg' hp ↦ ⟨hp.1 ▸ .address rfl (.plain ((hc.mono hg).mono hg')), hp.2, nofun⟩
  dsimp only
  split
  · rename_i h
    simp only [Bool.and_eq_true, beq_iff_eq] at h
    exact Carrying.pure ⟨(hw.bears.mono hg).retype (hw.slot h.1) rfl h.2, hw.apart, nofun⟩
  refine CarryingAt.bind (carrying_materialize (hw.mono hg)) fun x u₂ hg₂ hx ↦ ?_
  split
  · exact hend hg₂ (carrying_pointerTo hx.1.apart)
  · refine CarryingAt.bind (carrying_slotFor x.value.type "spill") fun p u₃ hg₃ hp ↦ ?_
    refine CarryingAt.bind (carrying_store hx.1.apart hp.2) fun _ u₄ hg₄ _ ↦ ?_
    exact hend ((hg₂.trans hg₃).trans hg₄) (carrying_pointerTo hp.2)
  · exact hend hg₂ (carrying_castTo hx.1.apart)
  · exact CarryingAt.throw

/-! ### Steps -/

variable {k : Prim}

theorem borne_prim (h : scalarType? k = some e) (hx : x.type = e ∧ x ≠ site.top) :
    Borne u site.top ⟨.prim k, x, false⟩ :=
  ⟨hx.1 ▸ .plain (.scalar h), hx.2, nofun⟩

theorem carrying_unsupported {α : Type} {R : α → CompilationUnit → Prop} (i : Instruction) (reason : String) :
    CarryingAt site fn b u (unsupported i reason : Lower α) R := CarryingAt.read_bind CarryingAt.throw

theorem carrying_slotNumbered {what : String} {slots : List Operand} (n : Int) (h : ∀ w ∈ slots, Borne u site.top w) :
    CarryingAt site fn b u (slotNumbered what slots n) fun w u' ↦ Borne u' site.top w := by
  unfold slotNumbered
  dsimp only
  split
  · exact CarryingAt.bind (R := fun _ _ ↦ False) .throw fun _ _ _ h ↦ h.elim
  · split
    · exact Carrying.pure (h _ (List.mem_of_getElem? ‹_›))
    · exact CarryingAt.throw

theorem carrying_argument (n : Int) : CarryingAt site fn b u (argument n) fun w u' ↦ Borne u' site.top w :=
  .assume fun _ hslots _ ↦
  CarryingAt.read_bind (carrying_slotNumbered n fun w hw ↦ hslots w (List.mem_append_left _ hw))

theorem carrying_localSlot (n : Int) : CarryingAt site fn b u (localSlot n) fun w u' ↦ Borne u' site.top w :=
  .assume fun _ hslots _ ↦
  CarryingAt.read_bind (carrying_slotNumbered n fun w hw ↦ hslots w (List.mem_append_right _ hw))

theorem carrying_storeSlot (hw : w.value ≠ site.top) : CarryingAt site fn b u (storeSlot w) fun _ _ ↦ True :=
  CarryingAt.bind carrying_settle fun _ _ _ _ ↦ CarryingAt.bind (carrying_pop _) fun _ _ _ hv ↦
  carrying_store hv.2.apart hw

theorem carrying_operands : CarryingAt site fn b u operands fun p u' ↦
    p.1.type = p.2.type ∧ Borne u' site.top p.1 ∧ Borne u' site.top p.2 := by
  refine CarryingAt.bind (carrying_popRaw none) fun r u₁ _ hr ↦ ?_
  refine CarryingAt.bind (carrying_popRaw none) fun l u₂ hg₂ hl ↦ ?_
  refine CarryingAt.bind (carrying_deref (hr.mono hg₂)) fun r' u₃ hg₃ hr' ↦ ?_
  refine CarryingAt.bind (carrying_deref (hl.mono hg₃)) fun l' u₄ hg₄ hl' ↦ ?_
  refine CarryingAt.bind (carrying_convert hl' _) fun y u₅ hg₅ hy ↦ Carrying.pure ⟨hy.1, hy.2, (hr'.mono hg₄).mono hg₅⟩

theorem carrying_pushed {c : Lower Value} (hc : CarryingAt site fn b u c fun x u' ↦ Borne u' site.top ⟨t, x, false⟩) :
    CarryingAt site fn b u (do push ⟨t, ← c, false⟩) fun _ _ ↦ True :=
  CarryingAt.bind hc fun _ _ _ hx ↦ carrying_push hx

theorem carrying_pushInt (n : Int) (m : Nat) (h : scalarType? k = some (.int m)) :
    CarryingAt site fn b u (do push ⟨.prim k, ← intConst (.int m) n, false⟩ : Lower Unit) fun _ _ ↦ True :=
  carrying_pushed ((carrying_intConst _ n).imp fun _ _ _ hx ↦ borne_prim h hx)

theorem carrying_arith (i : Instruction) (op : Arith) : CarryingAt site fn b u (arith i op) fun _ _ ↦ True := by
  refine CarryingAt.bind carrying_operands fun q u₁ _ ⟨ht, hl, hr⟩ ↦ ?_
  have hemit : ∀ code, CarryingAt site fn b u₁ (do
      push ⟨q.2.type, ← emit (.binary code q.1.value q.2.value ""), false⟩ : Lower Unit) fun _ _ ↦ True := fun code ↦
    carrying_pushed ((carrying_emit (i := .binary code q.1.value q.2.value "") (aside_two hl.apart hr.apart)).imp
      fun x u' hg hx ↦ ⟨hx.1 ▸ ht ▸ hl.bears.mono hg, hx.2, nofun⟩)
  dsimp only
  split
  · exact hemit op.intOp
  · exact hemit op.floatOp
  · exact hemit op.floatOp
  · exact CarryingAt.bind (R := fun _ _ ↦ False) (carrying_unsupported _ _) fun _ _ _ h ↦ h.elim

theorem carrying_compare (i : Instruction) (c : Comparison) :
    CarryingAt site fn b u (compare i c) fun x _ ↦ x ≠ site.top := by
  refine CarryingAt.bind carrying_operands fun q u₁ _ ⟨_, hl, hr⟩ ↦ ?_
  have hemit : ∀ j : Instr, j.operands = [some q.1.value, some q.2.value] →
      Carrying site fn b u₁ (emit j) fun x _ ↦ x ≠ site.top := fun j hj ↦
    (carrying_emit (hj ▸ aside_two hl.apart hr.apart)).imp fun _ _ _ hx ↦ hx.2
  dsimp only
  split
  · exact hemit (.icmp c.ints q.1.value q.2.value "") rfl
  · exact hemit (.icmp c.ints q.1.value q.2.value "") rfl
  · exact hemit (.fcmp c.floats q.1.value q.2.value "") rfl
  · exact hemit (.fcmp c.floats q.1.value q.2.value "") rfl
  · exact carrying_unsupported _ _

theorem carrying_truth (i : Instruction) (hw : w.value ≠ site.top) (want : Bool) :
    CarryingAt site fn b u (truth i w want) fun _ _ ↦ True := by
  unfold truth
  dsimp only
  have hemit : ∀ (c : Const) (f : Value → Instr), (∀ y, (f y).operands = [some w.value, some y]) →
      CarryingAt site fn b u (do emit (f (← constant c)) : Lower Value) fun _ _ ↦ True := fun c f hf ↦
    CarryingAt.bind (carrying_constant c) fun y _ _ hy ↦ (carrying_emit (hf y ▸ aside_two hw hy.2)).imp fun _ _ _ _ ↦
      trivial
  split
  · exact hemit _ (.icmp _ w.value · "") fun _ ↦ rfl
  · exact hemit _ (.icmp _ w.value · "") fun _ ↦ rfl
  · exact hemit _ (.fcmp _ w.value · "") fun _ ↦ rfl
  · exact hemit _ (.fcmp _ w.value · "") fun _ ↦ rfl
  · exact carrying_unsupported _ _

theorem carrying_convertTop (target : Ty) : CarryingAt site fn b u (convertTop target) fun _ _ ↦ True := by
  refine CarryingAt.bind (carrying_popRaw none) fun w u₁ _ hw ↦ ?_
  split
  · exact CarryingAt.bind (carrying_counterpart target) fun c u₂ _ hc ↦
      carrying_pushed (carrying_convertValue hw.apart hc)
  · exact CarryingAt.bind (carrying_convert hw target) fun y _ _ hy ↦ carrying_push hy.2

theorem carrying_convertTopUnsigned : CarryingAt site fn b u convertTopUnsigned fun _ _ ↦ True := by
  refine CarryingAt.bind (carrying_popRaw none) fun w u₁ _ hw ↦ CarryingAt.bind (carrying_deref hw) fun y u₂ _ hy ↦ ?_
  split
  · exact carrying_pushed ((carrying_castTo hy.apart).imp fun _ _ _ hx ↦ borne_prim rfl hx)
  · exact CarryingAt.bind (carrying_convert hy float64) fun z _ _ hz ↦ carrying_push hz.2

theorem carrying_loadObject (t : Ty) : CarryingAt site fn b u (loadObject t) fun _ _ ↦ True :=
  CarryingAt.bind (carrying_popRaw _) fun _ _ _ hw ↦ CarryingAt.bind (carrying_address t hw) fun _ _ _ hp ↦
    carrying_pushed (carrying_read hp.bears rfl hp.apart)

theorem carrying_storeObject (t : Ty) : CarryingAt site fn b u (storeObject t) fun _ _ ↦ True :=
  CarryingAt.bind carrying_settle fun _ _ _ _ ↦ CarryingAt.bind (carrying_pop t) fun _ _ _ hv ↦
    CarryingAt.bind (carrying_popRaw _) fun _ _ _ hw ↦ CarryingAt.bind (carrying_address t hw) fun _ _ _ hp ↦
      carrying_store hv.2.apart hp.apart

theorem CarryingAt.stage_bind {β : Type} {f : Nat → Lower β} {S : β → CompilationUnit → Prop}
    (h : CarryingAt site fn b u (f b) S) : CarryingAt site fn b u (do f (← getThe Stage).block) S := by
  intro s x s' u' F h' hs hF hu
  obtain ⟨_, _, _, hget, h'⟩ := Lowers.bind_iff.mp h'
  obtain ⟨rfl, rfl, rfl⟩ := Lowers.getThe_iff.mp hget
  rw [hs.block] at h'
  exact h _ _ _ _ F h' hs hF hu

theorem carrying_clearObject (t : Ty) : CarryingAt site fn b u (clearObject t) fun _ _ ↦ True :=
  CarryingAt.bind carrying_settle fun _ _ _ _ ↦ CarryingAt.bind (carrying_popRaw _) fun _ _ _ hw ↦
    CarryingAt.bind (carrying_address t hw) fun p _ _ hp ↦ CarryingAt.bind (carrying_operandSize t) fun n _ _ _ ↦
      .stage_bind (f := fun k ↦ liftM (clearAt k p n)) (carrying_clearAt n hp.apart)

/-! ### What tokens name -/

theorem carrying_resolve {γ : Type} {ask : Resolver → Except ResolutionError γ × Resolver × List Resolver.Attempt} :
    CarryingAt site fn b u (resolve ask : Lower γ) fun _ _ ↦ True := by
  have := (lasting_weighed site.world).stable
  exact .compile fun _ _ _ ↦ compiled_keeps (leaves_resolve ask) (spec_resolve ask)
    ((spec_resolve ask).imp (fun _ hu ↦ hu) fun _ _ hu ↦ ⟨trivial, hu⟩)

theorem carrying_typeOperand (i : Instruction) : CarryingAt site fn b u (typeOperand i) fun _ _ ↦ True :=
  CarryingAt.read_bind carrying_resolve

theorem carrying_methodOperand (i : Instruction) :
    CarryingAt site fn b u (methodOperand i) fun m _ ↦ ∃ id, site.world.method? id = some m := by
  refine CarryingAt.read_bind (CarryingAt.bind carrying_resolve fun id u₁ _ _ ↦ ?_)
  split
  · exact Carrying.pure ⟨id, ‹_›⟩
  · exact CarryingAt.throw

theorem carrying_fieldOperand (i : Instruction) : CarryingAt site fn b u (fieldOperand i) fun p _ ↦
    (site.world.instanceFields p.1.owner)[p.2]? = some p.1 := by
  refine CarryingAt.read_bind (CarryingAt.bind carrying_resolve fun f u₁ _ _ ↦ ?_)
  dsimp only
  split
  · exact CarryingAt.bind (R := fun _ _ ↦ False) (carrying_unsupported _ _) fun _ _ _ h ↦ h.elim
  · refine CarryingAt.bind (carrying_counterpart _) fun c u₂ _ _ ↦ ?_
    split
    · exact Carrying.pure (instanceFields_of_fieldIndex ‹_›)
    · exact CarryingAt.throw

/-- The address of a field is the address of what carries operands of its type, or there is no such member. -/
theorem carrying_fieldPointer {f : Field} {index : Nat} (hf : (site.world.instanceFields f.owner)[index]? = some f) :
    CarryingAt site fn b u (fieldPointer f index) fun p u' ↦ Borne u' site.top ⟨.byref f.type, p, false⟩ := by
  refine CarryingAt.bind (carrying_popRaw _) fun w u₁ _ hw ↦ CarryingAt.bind (carrying_address _ hw) fun p u₂ _ hp ↦ ?_
  have hunit : CarryingAt site fn b u₂ (getThe CompilationUnit) fun v u' ↦ v = u' := carrying_unit
  refine CarryingAt.bind hunit fun u₃ u₄ hg hsame ↦ ?_
  subst hsame
  refine .assume fun _ _ hu ↦
    (carrying_emit (i := .gep (u₃.module.fields? p.type.pointee) p index "") (aside_one hp.apart)).imp
    fun v u' hg' hv ↦ ⟨?_, hv.2, nofun⟩
  rw [hv.1]
  dsimp only [Instr.gep]
  cases hbody : u₃.module.fields? p.type.pointee with
  | none => exact .nothing
  | some body =>
    have hbears : Bears u₃ f.owner p.type.pointee := (hp.bears.read rfl).mono hg
    cases hc : p.type.pointee with
    | struct id name =>
      rw [hc] at hbody hbears
      obtain ⟨e, he, hpasses⟩ := hu.toSound.member hf hbears.stands hbody
      have hle : ¬ (index : Int) < 0 := by omega
      simpa [he, hle] using Bears.address (t := .byref f.type) rfl (.plain (hpasses.1.mono hg'))
    | _ => rw [hc] at hbody; cases hbody

theorem carrying_callArguments (m : Method) : CarryingAt site fn b u (callArguments m) fun vs _ ↦ ∀ v ∈ vs,
    v ≠ site.top := by
  have hall : CarryingAt site fn b u ((m.params.zipIdx).reverse.mapM fun p ↦ do
      let v ← lowerWithin (.argument p.2 m.text) (pop p.1.type)
      return v.value) fun vs _ ↦ List.Forall₂ (fun _ v ↦ v ≠ site.top) (m.params.zipIdx).reverse vs :=
    .mapM (T := fun _ v _ ↦ v ≠ site.top) (fun _ h ↦ h) fun u' p _ _ ↦
      CarryingAt.bind (carrying_lowerWithin (carrying_pop _)) fun w _ _ hw ↦ Carrying.pure hw.2.apart
  refine CarryingAt.bind hall fun vs _ _ hvs ↦ Carrying.pure fun v hv ↦ ?_
  exact (exists_left_of_forall₂ hvs (List.mem_reverse.mp hv)).elim fun _ h ↦ h.2

theorem carrying_newObject (i : Instruction) : CarryingAt site fn b u (newObject i) fun _ _ ↦ True := by
  refine CarryingAt.bind (carrying_methodOperand i) fun m u₁ _ ⟨id, hm⟩ ↦ ?_
  have hrest : CarryingAt site fn b u₁ (do
      let t := m.owner.getD .missing
      settle
      let f ← (← read).compile m
      let code ← counterpart t
      let size ← sizeOf code
      let args ← callArguments m
      let object ← slotFor code "new"
      clearAt (← getThe Stage).block object size
      let _ ← emitCall f (object :: args)
      push ⟨.byref t, object, false⟩) fun _ _ ↦ True := by
    refine .assume fun hsite _ _ ↦ CarryingAt.bind carrying_settle fun _ u₂ _ _ ↦ CarryingAt.read_bind ?_
    refine CarryingAt.bind (carrying_method hsite hm) fun f u₃ _ hf ↦ CarryingAt.bind (carrying_counterpart _)
      fun c u₄ hg₄ hc ↦ ?_
    refine CarryingAt.bind (carrying_sizeOf c) fun n u₅ hg₅ _ ↦ CarryingAt.bind (carrying_callArguments m)
      fun vs u₆ hg₆ hvs ↦ ?_
    refine CarryingAt.bind (carrying_slotFor c "new") fun object u₇ hg₇ hobject ↦ ?_
    refine .stage_bind (f := fun k ↦ do
      clearAt k object n
      let _ ← emitCall f (object :: vs)
      push ⟨.byref (m.owner.getD .missing), object, false⟩) ?_
    refine CarryingAt.bind (carrying_clearAt n hobject.2) fun _ u₈ hg₈ _ ↦ ?_
    have hg := ((hg₅.trans hg₆).trans hg₇).trans hg₈
    refine CarryingAt.bind (carrying_emitCall (hf.mono (hg₄.trans hg)) (List.forall_mem_cons.mpr ⟨hobject.2, hvs⟩))
      fun _ u₉ hg₉ _ ↦ ?_
    exact carrying_push ⟨hobject.1 ▸ .address rfl (.plain (hc.mono (hg.trans hg₉))), hobject.2, nofun⟩
  dsimp only
  split
  · exact CarryingAt.bind (R := fun _ _ ↦ False) .throw fun _ _ _ h ↦ h.elim
  · exact hrest

theorem carrying_call (i : Instruction) : CarryingAt site fn b u (call i) fun _ _ ↦ True := by
  refine .assume fun hsite _ _ ↦ CarryingAt.bind (carrying_methodOperand i) fun m u₁ _ ⟨id, hm⟩ ↦ ?_
  refine CarryingAt.bind carrying_settle fun _ u₂ _ _ ↦ CarryingAt.read_bind ?_
  refine CarryingAt.bind (carrying_method hsite hm) fun f u₃ _ hf ↦ CarryingAt.bind (carrying_callArguments m)
    fun vs u₄ hg₄ hvs ↦ ?_
  have hfinish : ∀ receiver u', Extended u₄ u' → (∀ v ∈ receiver, v ≠ site.top) → CarryingAt site fn b u' (do
      let r ← emitCall f (receiver ++ vs)
      if !m.returnType.isVoid then push ⟨m.returnType, r, false⟩ : Lower Unit) fun _ _ ↦ True := by
    intro receiver u' hg hreceiver
    refine CarryingAt.bind (carrying_emitCall (hf.mono (hg₄.trans hg)) (List.forall_mem_append.mpr ⟨hreceiver, hvs⟩))
      fun r _ _ hr ↦ ?_
    split
    · exact carrying_push ⟨.plain hr.1, hr.2, nofun⟩
    · exact Carrying.pure trivial
  dsimp only
  split
  · refine CarryingAt.bind (carrying_popRaw _) fun w u₅ hg₅ hw ↦
      CarryingAt.bind (carrying_lowerWithin (carrying_address _ hw)) fun p u₆ hg₆ hp ↦ ?_
    exact hfinish [p] u₆ (hg₅.trans hg₆) (List.forall_mem_singleton.mpr hp.apart)
  · exact hfinish [] u₄ (.refl _) nofun

/-! ### Instructions of a body -/

/-- An instruction that does not end its block moves the cursor only where it takes operands. -/
theorem carrying_lower (start : Nat) {i : Instruction} (hends : i.endsBlock = false) :
    CarryingAt site fn b u (lower start i) fun _ _ ↦ True := by
  unfold lower
  cases hi : action i with
  | nothing => exact Carrying.pure trivial
  | loadArg n => exact CarryingAt.bind (carrying_argument n) fun _ _ _ ha ↦ carrying_push ha
  | argAddress n =>
    refine CarryingAt.bind (carrying_argument n) fun _ _ _ ha ↦ ?_
    split
    · exact carrying_push ⟨ha.bears, ha.apart, nofun⟩
    · exact carrying_unsupported _ _
  | storeArg n =>
    refine CarryingAt.bind (carrying_argument n) fun _ _ _ ha ↦ ?_
    split
    · exact carrying_storeSlot ha.apart
    · exact carrying_unsupported _ _
  | loadLocal n => exact CarryingAt.bind (carrying_localSlot n) fun _ _ _ ha ↦ carrying_push ha
  | localAddress n =>
    exact CarryingAt.bind (carrying_localSlot n) fun _ _ _ ha ↦ carrying_push ⟨ha.bears, ha.apart, nofun⟩
  | storeLocal n => exact CarryingAt.bind (carrying_localSlot n) fun _ _ _ ha ↦ carrying_storeSlot ha.apart
  | int32 n => exact carrying_pushInt (k := .int32) n 32 rfl
  | int64 n => exact carrying_pushInt (k := .int64) n 64 rfl
  | float32 d => exact carrying_pushed ((carrying_constant _).imp fun _ _ _ hx ↦ borne_prim rfl hx)
  | float64 d => exact carrying_pushed ((carrying_constant _).imp fun _ _ _ hx ↦ borne_prim rfl hx)
  | dup =>
    refine CarryingAt.bind (carrying_popRaw none) fun _ _ _ hv ↦ CarryingAt.bind (carrying_push hv) fun _ _ hg _ ↦ ?_
    exact carrying_push (hv.mono hg)
  | pop => exact CarryingAt.bind (carrying_popRaw none) fun _ _ _ _ ↦ Carrying.pure trivial
  | arith op => exact carrying_arith i op
  | compare c =>
    refine CarryingAt.bind (carrying_compare i c) fun x _ _ hx ↦ ?_
    refine CarryingAt.bind (carrying_intConst _ _) fun one _ _ hone ↦ ?_
    refine CarryingAt.bind (carrying_intConst _ _) fun zero _ _ hzero ↦ carrying_pushed ?_
    refine (carrying_emit (i := .select x one zero "") ?_).imp fun y _ _ hy ↦ borne_prim rfl ⟨hy.1.trans hone.1, hy.2⟩
    simpa [Instr.select] using ⟨hx.symm, hone.2.symm, hzero.2.symm⟩
  | convert p => exact carrying_convertTop _
  | convertUnsigned => exact carrying_convertTopUnsigned
  | loadThrough p => exact carrying_loadObject _
  | storeThrough p => exact carrying_storeObject _
  | loadObject => exact CarryingAt.bind (carrying_typeOperand i) fun t _ _ _ ↦ carrying_loadObject t
  | storeObject => exact CarryingAt.bind (carrying_typeOperand i) fun t _ _ _ ↦ carrying_storeObject t
  | sizeOf =>
    refine CarryingAt.bind (carrying_typeOperand i) fun t _ _ _ ↦ ?_
    refine CarryingAt.bind (carrying_operandSize t) fun n _ _ _ ↦ ?_
    exact carrying_pushInt (k := .int64) n 64 rfl
  | initObject => exact CarryingAt.bind (carrying_typeOperand i) fun t _ _ _ ↦ carrying_clearObject t
  | loadField =>
    refine CarryingAt.bind (carrying_fieldOperand i) fun _ _ _ hf ↦ ?_
    refine CarryingAt.bind (carrying_fieldPointer hf) fun _ _ _ hp ↦ ?_
    exact carrying_pushed (carrying_read hp.bears rfl hp.apart)
  | fieldAddress =>
    exact CarryingAt.bind (carrying_fieldOperand i) fun _ _ _ hf ↦ carrying_pushed (carrying_fieldPointer hf)
  | storeField =>
    refine CarryingAt.bind (carrying_fieldOperand i) fun _ _ _ hf ↦ CarryingAt.bind carrying_settle fun _ _ _ _ ↦ ?_
    refine CarryingAt.bind (carrying_pop _) fun _ _ _ hv ↦ CarryingAt.bind (carrying_fieldPointer hf) fun _ _ _ hp ↦ ?_
    exact carrying_store hv.2.apart hp.apart
  | newObject => exact carrying_newObject i
  | call => exact carrying_call i
  | unsupported => exact carrying_unsupported _ _
  | ret | jump | jumpIf | jumpCompare =>
    rcases endsBlock_of_takes?_eq_none (i := i) (by rw [hi]; rfl) with h | h | h | h <;>
      first | (rw [hi] at h; cases h) | (rw [hends] at h; cases h)

/-- What is lowered of an instruction that ends its block takes its operands, up to the end itself. -/
theorem carrying_ending (i : Instruction) : CarryingAt site fn b u (ending i) fun _ _ ↦ True := by
  unfold ending
  split
  · refine CarryingAt.read_bind ?_
    dsimp only
    split
    · exact Carrying.pure trivial
    · exact CarryingAt.bind (carrying_pop _) fun _ _ _ _ ↦ Carrying.pure trivial
  · refine CarryingAt.bind (carrying_popRaw none) fun w _ _ hw ↦ CarryingAt.bind (carrying_deref hw) fun x _ _ hx ↦ ?_
    exact CarryingAt.bind (carrying_truth i hx.apart _) fun _ _ _ _ ↦ Carrying.pure trivial
  · exact CarryingAt.bind (carrying_compare i _) fun _ _ _ _ ↦ Carrying.pure trivial
  · exact Carrying.pure trivial

theorem carrying_lowerUpTo {sp : Bytecode.Span} (htiles : Tiles site.spans sp) :
    CarryingAt site fn b u (lowerUpTo sp) fun _ _ ↦ True := by
  obtain ⟨init, last, hinstrs, hinit, hlast⟩ := htiles.ends
  unfold lowerUpTo
  rw [hinstrs, List.dropLast_concat, List.getLast?_concat]
  refine CarryingAt.bind (.forM fun u' i hi ↦ carrying_lower _ (hinit i hi)) fun _ u₁ _ _ ↦ ?_
  dsimp only
  split
  · rename_i hfalls
    rw [hfalls] at hlast
    exact carrying_lower _ hlast
  · exact carrying_ending last

/-! ### Lowering that takes nothing -/

theorem CarryingAt.idle {α : Type} {R : α → CompilationUnit → Prop} {c : Lower α} {a : α} {s s' : Stage}
    (hc : CarryingAt site fn b u c R) (hidle : Idle site c) (he : Lowers c site s u a s' u') (hs : Laid site fn b u s)
    (hi : s.inferring = false) (hF : Hosts fn site.top F u) (hu : Weighed site.world u) :
    (∃ k, s' = { s with constants := k }) ∧ R a u' ∧ Weighed site.world u' ∧ Extended u u' ∧
      ∃ F', Hosts fn site.top F' u' ∧ Gains fn site.top b F [] F' := by
  obtain ⟨k, rfl⟩ := hidle _ _ _ _ _ he
  obtain ⟨-, ha, F', ts, ds, hcar⟩ := hc _ _ _ _ F he hs hF hu
  obtain rfl : ts = [] :=
    List.append_cancel_right (show ts ++ s.entry = [] ++ s.entry from (hcar.hands.spec.2.2.2.2.1 hi).symm)
  obtain rfl := List.forall₂_nil_left_iff.mp hcar.takes
  exact ⟨⟨k, rfl⟩, ha, hcar.kept, hcar.grown, F', hcar.hosts, hcar.code⟩

theorem carrying_spilled (hw : Borne u site.top w) :
    Carrying site fn b u (spilled w) fun x u' ↦ Borne u' site.top x ∧ x.value.type.isStruct = false := by
  refine (carrying_materialize hw).bind fun x u₁ _ hx ↦ ?_
  split
  · refine (carrying_slotFor x.value.type "spill").bind fun p u₂ hg hp ↦ ?_
    refine (carrying_store hx.1.apart hp.2).bind fun _ u₃ hg' _ ↦ .pure ⟨⟨?_, hp.2, nofun⟩, hp.1 ▸ rfl⟩
    exact hp.1 ▸ .address rfl (hx.1.bears.mono (hg.trans hg'))
  · exact .pure ⟨hx.1, Bool.eq_false_iff.mpr ‹_›⟩

theorem carrying_sameShape (as bs : List Ty) : CarryingAt site fn b u (sameShape as bs) fun _ _ ↦ True := by
  induction as, bs using sameShape.induct generalizing u with
  | case1 => exact Carrying.pure trivial
  | case2 a as c bs ih =>
    refine CarryingAt.bind (carrying_counterpart a) fun _ _ _ _ ↦ ?_
    refine CarryingAt.bind (carrying_counterpart c) fun _ _ _ _ ↦ ?_
    split
    · exact ih
    · exact Carrying.pure trivial
  | case3 as bs h₁ h₂ =>
    rw [sameShape]
    · exact Carrying.pure trivial
    · exact h₁
    · exact h₂

end

end CilSsa.Lowering

