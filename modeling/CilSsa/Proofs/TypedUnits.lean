import CilSsa.Proofs.Counterparts

namespace CilSsa.Ssa.Module

theorem Precedes.lacksBody {m m' : Module} (h : m.Precedes m') {t : Ty} (ht : m.lacksBody t = false) :
    m'.lacksBody t = false := by
  cases t with
  | struct id name =>
    simp only [Module.lacksBody, Module.fields?, Ty.isStruct, Bool.true_and, Option.isNone_eq_false_iff,
      Option.isSome_bind, Option.any_eq_true] at ht ⊢
    obtain ⟨d, hd, hbody⟩ := ht
    obtain ⟨ts, hts⟩ := Option.isSome_iff_exists.mp hbody
    obtain ⟨d', hd', -, hkeep⟩ := h.structs id d hd
    exact ⟨d', hd', by rw [hkeep ts hts]; rfl⟩
  | _ => rfl

end CilSsa.Ssa.Module

namespace CilSsa.Metadata.Method

def receives (m : Method) : List Ty :=
  (if m.isInstance then (m.owner.map Ty.byref).toList else []) ++ m.params.map (·.type)

end CilSsa.Metadata.Method

namespace CilSsa.Lowering

open CilSsa.Bytecode CilSsa.Metadata
open CilSsa.Ssa (FuncId Function Instr Module)

/-- In the unit `u` the counterpart of the type `t` is `c`: that of a scalar is fixed, that of a reference or pointer
follows from what it leads to, and that of an aggregate is the struct registered for it. -/
inductive Means (u : CompilationUnit) : Ty → Ssa.Ty → Prop
  | void {t : Ty} : t.kind = .void → Means u t .void
  | scalar {p : Prim} {c : Ssa.Ty} : scalarType? p = some c → Means u (.prim p) c
  | bytes {t : Ty} : t.isAddress = true → t.elem.isVoid = true → Means u t .bytePointer
  | address {t : Ty} {c : Ssa.Ty} : t.isAddress = true → t.elem.isByRef = false → t.elem.isVoid = false →
      Means u t.elem c → Means u t (.pointer c)
  | aggregate {t : Ty} {ct : CompiledType} {id : Nat} {name : String} : t.kind = .valueType →
      u.types.lookup t = some ct → ct.code = .struct id name → Means u t (.struct id name)

/-- What stays as a unit grows: its code, and the structs of its aggregates. -/
structure Extended (b u : CompilationUnit) : Prop where
  module : b.module.Precedes u.module
  aggregates : ∀ t ct, t.kind = .valueType → b.types.lookup t = some ct → u.types.lookup t = some ct

def Passes (u : CompilationUnit) (t : Ty) (c : Ssa.Ty) : Prop := Means u t c ∧ c ≠ .void

/-- In the unit `u`, `sig` is the signature that a method's function has. -/
def Declares (u : CompilationUnit) (m : Method) (sig : Ssa.Ty) : Prop :=
  ∃ ret params, sig = .func ret params ∧ Means u m.returnType ret ∧ List.Forall₂ (Passes u) m.receives params

def DeclaredFor (u : CompilationUnit) (m : Method) (f : FuncId) : Prop :=
  ∃ F, u.module.function? f = some F ∧ Declares u m F.signature

/-- The registry of a unit fits its types, but for the structs in `S`, which may still lack their bodies. -/
structure TypedBut (world : Universe) (S : Nat → Prop) (u : CompilationUnit) : Prop where
  types : ∀ t ct, u.types.lookup t = some ct → Means u t ct.code
  bodies : ∀ t ct id name, u.types.lookup t = some ct → ct.code = .struct id name → ¬ S id →
    u.module.lacksBody (.struct id name) = false
  methods : ∀ m f, Found world m → u.methods.lookup m.id = some f → DeclaredFor u m f

abbrev Typed (world : Universe) (u : CompilationUnit) : Prop := TypedBut world (fun _ ↦ False) u

/-- A unit whose registry fits its types and that grew out of the unit `b`. -/
structure TypedSince (world : Universe) (b : CompilationUnit) (S : Nat → Prop) (u : CompilationUnit) : Prop
    extends TypedBut world S u where
  grown : Extended b u

section

variable {world : Universe} {b u u' v : CompilationUnit} {S : Nat → Prop} {t t' : Ty} {c c' : Ssa.Ty}

/-! ### Counterparts -/

theorem Means.ne_void (h : Means u t c) (ht : t.isVoid = false) : c ≠ .void := by
  cases h with
  | void hk => simp [Ty.isVoid, hk] at ht
  | @scalar p c hp => rintro rfl; cases p <;> cases hp
  | bytes => intro hc; cases hc
  | address => intro hc; cases hc
  | aggregate => intro hc; cases hc

theorem Means.of_void (h : Means u t c) (ht : t.isVoid = true) : c = .void := by
  have hk : t.kind = .void := by simpa [Ty.isVoid] using ht
  cases h with
  | void => rfl
  | scalar => cases hk
  | bytes ha => simp [Ty.isAddress, Ty.isByRef, Ty.isPointer, hk] at ha
  | address ha => simp [Ty.isAddress, Ty.isByRef, Ty.isPointer, hk] at ha
  | aggregate hv => rw [hk] at hv; cases hv

theorem Means.address_cases (h : Means u t c) (ht : t.isAddress = true) : (t.elem.isVoid = true ∧ c = .bytePointer) ∨
    ∃ e, c = .pointer e ∧ t.elem.isVoid = false ∧ Means u t.elem e := by
  cases h with
  | void hk => simp [Ty.isAddress, Ty.isByRef, Ty.isPointer, hk] at ht
  | scalar => cases ht
  | bytes _ hv => exact .inl ⟨hv, rfl⟩
  | address _ _ hv hc => exact .inr ⟨_, rfl, hv, hc⟩
  | aggregate hv => simp [Ty.isAddress, Ty.isByRef, Ty.isPointer, hv] at ht

theorem Means.prim_iff {p : Prim} : Means u (.prim p) c ↔ scalarType? p = some c := by
  refine ⟨fun h ↦ ?_, .scalar⟩
  cases h with
  | void h => cases h
  | scalar h => exact h
  | bytes h => cases h
  | address h => cases h
  | aggregate h => cases h

theorem Means.unique (h : Means u t c) (h' : Means u t c') : c = c' := by
  induction h generalizing c' with
  | @void t hk => exact (h'.of_void (by simp [Ty.isVoid, hk])).symm
  | scalar hp => exact Option.some_inj.mp (hp.symm.trans (prim_iff.mp h'))
  | bytes ha hv =>
    rcases h'.address_cases ha with ⟨-, rfl⟩ | ⟨e, -, hv', -⟩
    · rfl
    · rw [hv] at hv'; cases hv'
  | address ha hr hv _ ih =>
    rcases h'.address_cases ha with ⟨hv', -⟩ | ⟨e, rfl, -, he⟩
    · rw [hv] at hv'; cases hv'
    · rw [ih he]
  | @aggregate t ct id name hk hl hc =>
    cases h' with
    | void hk' => rw [hk] at hk'; cases hk'
    | scalar => cases hk
    | bytes ha => simp [Ty.isAddress, Ty.isByRef, Ty.isPointer, hk] at ha
    | address ha => simp [Ty.isAddress, Ty.isByRef, Ty.isPointer, hk] at ha
    | aggregate _ hl' hc' =>
      cases hl.symm.trans hl'
      exact hc.symm.trans hc'

/-! ### Growth -/

theorem Extended.refl (u : CompilationUnit) : Extended u u := ⟨.refl _, fun _ _ _ h ↦ h⟩

theorem Extended.trans (h : Extended b u) (h' : Extended u v) : Extended b v :=
  ⟨h.module.trans h'.module, fun t ct hk hl ↦ h'.aggregates t ct hk (h.aggregates t ct hk hl)⟩

theorem Means.mono (h : Extended u u') (hm : Means u t c) : Means u' t c := by
  induction hm with
  | void hk => exact .void hk
  | scalar hp => exact .scalar hp
  | bytes ha hv => exact .bytes ha hv
  | address ha hr hv _ ih => exact .address ha hr hv ih
  | aggregate hk hl hc => exact .aggregate hk (h.aggregates _ _ hk hl) hc

theorem Passes.mono (h : Extended u u') (hp : Passes u t c) : Passes u' t c := ⟨hp.1.mono h, hp.2⟩

theorem DeclaredFor.mono {m : Method} {f : FuncId} (h : Extended u u') (hd : DeclaredFor u m f) :
    DeclaredFor u' m f := by
  obtain ⟨F, hF, ret, params, hsig, hret, hparams⟩ := hd
  obtain ⟨F', hF', -, -, hsig'⟩ := h.module.functions _ F hF
  exact ⟨F', hF', ret, params, hsig'.trans hsig, hret.mono h, hparams.imp fun _ _ hp ↦ hp.mono h⟩

theorem TypedBut.of_module (h : TypedBut world S u) (ht : u'.types = u.types) (hm : u'.methods = u.methods)
    (hmodule : u.module.Precedes u'.module) : TypedBut world S u' := by
  have hgrown : Extended u u' := ⟨hmodule, fun t ct _ hl ↦ ht ▸ hl⟩
  refine ⟨fun t ct hl ↦ (h.types t ct (ht ▸ hl)).mono hgrown, fun t ct id name hl hc hS ↦ ?_, fun m f hf hl ↦ ?_⟩
  · exact hmodule.lacksBody (h.bodies t ct id name (ht ▸ hl) hc hS)
  · exact (h.methods m f hf (hm ▸ hl)).mono hgrown

theorem TypedSince.of_module (h : TypedSince world b S u) (ht : u'.types = u.types) (hm : u'.methods = u.methods)
    (hmodule : u.module.Precedes u'.module) : TypedSince world b S u' :=
  ⟨h.toTypedBut.of_module ht hm hmodule, h.grown.trans ⟨hmodule, fun _ _ _ hl ↦ ht ▸ hl⟩⟩

theorem TypedSince.start (h : TypedBut world S u) : TypedSince world u S u := ⟨h, .refl u⟩

theorem TypedBut.weaken {S' : Nat → Prop} (h : TypedBut world S u) (hS : ∀ i, S i → S' i) : TypedBut world S' u :=
  ⟨h.types, fun t ct id name hl hc hno ↦ h.bodies t ct id name hl hc fun hi ↦ hno (hS id hi), h.methods⟩

theorem precedes_memset (m : Module) : m.Precedes m.memset.1 := by
  rcases memset_cases m with hms | ⟨-, g, -, -, -, hms⟩ <;> rw [hms]
  · exact .refl m
  · exact precedes_withFunction m g

theorem precedes_addBlock (m : Module) (fn : FuncId) (name : String) : m.Precedes (m.addBlock fn name).1 := by
  unfold Module.addBlock
  cases hF : m.function? fn with
  | none => exact .refl m
  | some F =>
    obtain ⟨-, -, hid, hname, hsig, -⟩ := uniqueName_kept F (if name = "" then "bb" else name)
    exact precedes_modify hF hid hname hsig

theorem Spec.carry {α : Type} {c : Compile α} {Q : α → CompilationUnit → Prop} {R : CompilationUnit → Prop}
    (hR : ∀ {u u'}, Extended u u' → R u → R u')
    (h : ∀ b, Spec (TypedSince world b S) c (fun a u ↦ Q a u ∧ TypedSince world b S u) fun _ ↦ True) :
    Spec (fun u ↦ R u ∧ TypedSince world b S u) c (fun a u ↦ R u ∧ Q a u ∧ TypedSince world b S u) fun _ ↦ True := by
  refine fun u hu ↦ ⟨fun a u' hc ↦ ?_, fun _ _ _ ↦ trivial⟩
  obtain ⟨hQ, hsince⟩ := (h u u (.start hu.2.toTypedBut)).1 a u' hc
  exact ⟨hR hsince.grown hu.1, hQ, hsince.toTypedBut, hu.2.grown.trans hsince.grown⟩

/-! ### Types -/

def GivesMeanings (world : Universe) (compile : Ty → Compile CompiledType) : Prop :=
  ∀ b S t, Spec (TypedSince world b S) (compile t) (fun ct u ↦ Means u t ct.code ∧ TypedSince world b S u) fun _ ↦ True

theorem lookup_cons_of_ne {α β : Type} [BEq α] [LawfulBEq α] {a a' : α} (y : β) (l : List (α × β)) (h : a ≠ a') :
    ((a', y) :: l).lookup a = l.lookup a := by
  rw [List.lookup_cons, beq_eq_false_iff_ne.mpr h]

theorem lookup_cons_same {α β : Type} [BEq α] [LawfulBEq α] (a : α) (y : β) (l : List (α × β)) :
    ((a, y) :: l).lookup a = some y := by
  rw [List.lookup_cons, beq_self_eq_true]

theorem lookup_cons_cases {α β : Type} [DecidableEq α] {a a' : α} {y z : β} {l : List (α × β)}
    (h : ((a', y) :: l).lookup a = some z) : a = a' ∧ z = y ∨ l.lookup a = some z := by
  by_cases ha : a = a'
  · subst ha
    exact .inl ⟨rfl, (Option.some.inj ((lookup_cons_same _ _ _).symm.trans h)).symm⟩
  · exact .inr ((lookup_cons_of_ne _ _ ha).symm.trans h)

theorem TypedSince.remember (h : TypedSince world b S u) (ct : CompiledType) (j : Journal)
    (hnew : ct.source.kind = .valueType → u.types.lookup ct.source = none)
    (hmeans : Means { u with types := (ct.source, ct) :: u.types, journal := j } ct.source ct.code)
    (hbody : ∀ id name, ct.code = .struct id name → ¬ S id → u.module.lacksBody (.struct id name) = false) :
    TypedSince world b S { u with types := (ct.source, ct) :: u.types, journal := j } := by
  have hgrown : Extended u { u with types := (ct.source, ct) :: u.types, journal := j } := by
    refine ⟨.refl _, fun t ct' hk hl ↦ ?_⟩
    by_cases ht : t = ct.source
    · subst ht
      rw [hnew hk] at hl
      cases hl
    · exact (lookup_cons_of_ne _ _ ht).trans hl
  refine ⟨⟨fun t ct' hl ↦ ?_, fun t ct' id name hl hc hS ↦ ?_, fun m f hm hl ↦ (h.methods m f hm hl).mono hgrown⟩,
    h.grown.trans hgrown⟩
  · rcases lookup_cons_cases hl with ⟨rfl, rfl⟩ | hl
    · exact hmeans
    · exact (h.types t ct' hl).mono hgrown
  · rcases lookup_cons_cases hl with ⟨rfl, rfl⟩ | hl
    · exact hbody id name hc hS
    · exact h.bodies t ct' id name hl hc hS

variable {compile : Ty → Compile CompiledType}

theorem TypedSince.withStruct (h : TypedSince world b S u) (hk : t.kind = .valueType) (hnew : u.types.lookup t = none)
    (name : String) (members : List Field) (j : Journal) :
    TypedSince world b (fun i ↦ i = u.module.structs.size ∨ S i) { u with
      module := withStruct u.module name
      types := (t, ⟨t, .struct u.module.structs.size name, members⟩) :: u.types
      journal := j } := by
  have hstep : TypedSince world b (fun i ↦ i = u.module.structs.size ∨ S i)
      { u with module := Lowering.withStruct u.module name } :=
    ⟨(h.toTypedBut.weaken fun _ hi ↦ .inr hi).of_module rfl rfl (precedes_withStruct _ name),
      h.grown.trans ⟨precedes_withStruct _ name, fun _ _ _ hl ↦ hl⟩⟩
  refine hstep.remember ⟨t, .struct u.module.structs.size name, members⟩ j (fun _ ↦ hnew) ?_ ?_
  · exact .aggregate hk (lookup_cons_same _ _ _) rfl
  · intro id n hc hno
    cases hc
    exact absurd (.inl rfl) hno

theorem TypedSince.setBody {id : Nat} (h : TypedSince world b (fun i ↦ i = id ∨ S i) u) {body : List Ssa.Ty}
    (hnone : (u.module.structs[id]?).bind (·.body) = none) (hsome : (u.module.structs[id]?).isSome = true) :
    TypedSince world b S { u with module := withBody u.module id body } := by
  have hpre := precedes_setBody body hnone
  have hstep : TypedSince world b (fun i ↦ i = id ∨ S i) { u with module := withBody u.module id body } :=
    h.of_module rfl rfl hpre
  refine ⟨⟨hstep.types, fun t ct i name hl hc hS ↦ ?_, hstep.methods⟩, hstep.grown⟩
  by_cases hi : i = id
  · subst hi
    obtain ⟨d, hd⟩ := Option.isSome_iff_exists.mp hsome
    simp [Module.lacksBody, Module.fields?, Ssa.Ty.isStruct, getElem?_withBody, hd]
  · exact hstep.bodies t ct i name hl hc fun hor ↦ hor.elim hi hS

theorem spec_compileAggregate_typed (hcompile : GivesMeanings world compile) (hk : t.kind = .valueType)
    (hnew : v.types.lookup t = none) (hv : TypedSince world b S v) :
    Spec (· = v) (compileAggregate world compile t) (fun ct u ↦ Means u t ct.code ∧ TypedSince world b S u)
      fun _ ↦ True := by
  -- Once it is registered the struct is the one of the aggregate, whatever else is.
  let R : String → CompilationUnit → Prop := fun name u ↦ Means u t (.struct v.module.structs.size name) ∧
    (u.module.structs[v.module.structs.size]?).isSome = true
  have hR : ∀ {name u u'}, Extended u u' → R name u → R name u' := by
    rintro name u u' h ⟨hm, hsome⟩
    obtain ⟨d, hd⟩ := Option.isSome_iff_exists.mp hsome
    obtain ⟨d', hd', -⟩ := h.module.structs _ d hd
    exact ⟨hm.mono h, hd' ▸ rfl⟩
  let S' : Nat → Prop := fun i ↦ i = v.module.structs.size ∨ S i
  refine (spec_compileAggregate_of (K := fun name u ↦ R name u ∧ TypedSince world b S' u)
    (M := fun name _ u ↦ R name u ∧ TypedSince world b S' u) (J := fun name u ↦ R name u ∧
    TypedSince world b S u) trivial
    (fun name _ _ ↦ ?_) (fun name ↦ ?_) (fun _ _ _ _ ↦ trivial) (fun name body u hu hnone ↦ ?_)
      (fun name u layouts hu ↦ ?_)
    (fun _ _ _ ↦ trivial) fun _ _ ↦ trivial).imp (fun _ hu ↦ hu) fun _ _ ⟨_, hct, hR, hu⟩ ↦ ⟨hct ▸ hR.1, hu⟩
  · have hu := (hv.withStruct hk hnew name (world.instanceFields t) { v.journal with types := t :: v.journal.types })
    exact ⟨⟨.aggregate hk (lookup_cons_same _ _ _) rfl, by simp [withStruct]⟩, hu.of_module rfl rfl (.refl _)⟩
  · refine (Spec.carry (Q := fun _ _ ↦ True) hR fun b ↦ ?_).imp (fun _ h ↦ h) fun _ _ hu ↦ ⟨hu.1, hu.2.2⟩
    exact (spec_compileMembers_keeps (fun t ↦ (hcompile b S' t).imp (fun _ h ↦ h) fun _ _ hu ↦ hu.2) (fun _ _ ↦
    trivial) t _).imp
      (fun _ h ↦ h) fun _ _ hu ↦ ⟨trivial, hu⟩
  · have hgrown : Extended u
      { u with module := withBody u.module v.module.structs.size body, building := u.building - 1 } :=
      ⟨precedes_setBody body hnone, fun _ _ _ hl ↦ hl⟩
    exact ⟨hR hgrown hu.1, (hu.2.setBody hnone hu.1.2).of_module rfl rfl (.refl _)⟩
  · exact ⟨hR (u := u) ⟨.refl _, fun _ _ _ hl ↦ hl⟩ hu.1, hu.2.of_module rfl rfl (.refl _)⟩

theorem PlainCode.means (h : PlainCode (Means u) t c) (hg : Extended u u') : Means u' t c := by
  cases h with
  | void hk => exact .void hk
  | scalar hc => exact .scalar hc
  | bytes ha hv => exact .bytes ha hv
  | address ha hr hv hm => exact .address ha hr hv (hm.mono hg)

theorem TypedSince.withPlain (h : TypedSince world b S u) (hc : PlainCode (Means u) t c) :
    Means (u.withPlain t c) t c ∧ TypedSince world b S (u.withPlain t c) := by
  have hmeans : Means (u.withPlain t c) t c := hc.means ⟨.refl _, fun t' _ hk hl ↦
    (lookup_cons_of_ne _ _ (by rintro rfl; exact hc.kind_ne hk)).trans hl⟩
  refine ⟨hmeans, h.remember ⟨t, c, []⟩ _ (fun hk ↦ absurd hk hc.kind_ne) hmeans fun id name hcode ↦ ?_⟩
  have := hc.isStruct
  cases hcode
  cases this

theorem spec_compileType_typed (fuel : Nat) : GivesMeanings world (compileType world fuel) := fun b S ↦
  spec_compileType_of (J := fun i : CompilationUnit × (Nat → Prop) ↦ TypedSince world i.1 i.2) (fun _ ↦ trivial)
    (fun hu hl ↦ hu.types _ _ hl) (fun h ↦ h.of_void rfl ▸ .void rfl) (fun _ _ hc hu ↦ hu.withPlain hc)
    (fun hcompile hk hl hu ↦ spec_compileAggregate_typed (fun b S ↦ hcompile (b, S)) hk hl hu) fuel (b, S)

/-! ### Methods -/

theorem spec_mapM_passes {α : Type} {f : α → Compile Ssa.Ty} {g : α → Ty}
    (h : ∀ a b, Spec (TypedSince world b S) (f a) (fun c u ↦ Passes u (g a) c ∧ TypedSince world b S u) fun _ ↦ True)
    (as : List α) : Spec (TypedSince world b S) (as.mapM f)
      (fun cs u ↦ List.Forall₂ (Passes u) (as.map g) cs ∧ TypedSince world b S u) fun _ ↦ True := by
  induction as generalizing b with
  | nil => exact .pure fun _ hu ↦ ⟨.nil, hu⟩
  | cons a as ih =>
    rw [List.mapM_cons]
    refine (h a b).bind fun c ↦ ?_
    refine (Spec.carry (R := fun u ↦ Passes u (g a) c) (fun hg hp ↦ hp.mono hg) fun _ ↦ ih).bind fun cs ↦ ?_
    exact .pure fun _ hu ↦ ⟨.cons hu.1 hu.2.1, hu.2.2⟩

theorem spec_codeType_typed (t : Ty) : Spec (TypedSince world b S) (codeType world t)
    (fun c u ↦ Means u t c ∧ TypedSince world b S u) fun _ ↦ True :=
  (spec_compileType_typed _ b S t).bind fun _ ↦ .pure fun _ hu ↦ hu

theorem spec_signature_typed (m : Method) (args : List Ty) :
    Spec (TypedSince world b S) (signature world m args) (fun sig u ↦ (∃ ret params, sig = .func ret params ∧
      Means u m.returnType ret ∧ List.Forall₂ (Passes u) args params) ∧ TypedSince world b S u) fun _ ↦ True := by
  unfold signature
  refine Spec.bind (Q := fun params u ↦ List.Forall₂ (Passes u) args params ∧ TypedSince world b S u) ?_ fun params ↦ ?_
  · have hfst : args.zipIdx.map Prod.fst = args := List.zipIdx_map_fst ..
    refine Spec.imp (spec_mapM_passes (g := Prod.fst) (fun p b ↦ ?_) args.zipIdx) (fun _ hu ↦ hu) fun _ _ hu ↦ hfst ▸ hu
    refine (spec_codeType_typed p.1).adapt.bind fun code ↦ ?_
    split
    · exact .throw_bind fun _ _ ↦ trivial
    · exact .pure fun _ hu ↦ ⟨⟨hu.1, ‹_›⟩, hu.2⟩
  · refine (Spec.carry (R := fun u ↦ List.Forall₂ (Passes u) args params)
      (fun hg h ↦ h.imp fun _ _ hp ↦ hp.mono hg) fun _ ↦ (spec_codeType_typed m.returnType).adapt).bind fun ret ↦ ?_
    exact .pure fun _ hu ↦ ⟨⟨ret, params, rfl, hu.2.1, hu.1⟩, hu.2.2⟩

theorem spec_argumentTypes_receives {P : CompilationUnit → Prop} (m : Method) : Spec P (argumentTypes m)
    (fun args u ↦ args = m.receives ∧ P u) fun _ ↦ True := by
  unfold argumentTypes Method.receives
  dsimp only
  split
  · split
    · rename_i t ht
      exact .pure fun _ hu ↦ ⟨by rw [ht]; rfl, hu⟩
    · exact .throw fun _ _ ↦ trivial
  · exact .pure fun _ hu ↦ ⟨rfl, hu⟩

theorem TypedSince.register {m : Method} (h : TypedSince world b S u) (hm : Found world m) {g : Function}
    (hd : Declares u m g.signature) (hid : g.id = ⟨u.module.functions.size⟩) (j : Journal) :
    DeclaredFor { u with module := withFunction u.module g, methods := (m.id, g.id) :: u.methods, journal := j } m
    g.id ∧
    TypedSince world b S
      { u with module := withFunction u.module g, methods := (m.id, g.id) :: u.methods, journal := j } := by
  have hpre := precedes_withFunction u.module g
  have hgrown : Extended u { u with
      module := withFunction u.module g
      methods := (m.id, g.id) :: u.methods
      journal := j } := ⟨hpre, fun _ _ _ hl ↦ hl⟩
  have hnew : DeclaredFor { u with
      module := withFunction u.module g
      methods := (m.id, g.id) :: u.methods
      journal := j } m g.id := by
    obtain ⟨ret, params, hsig, hret, hparams⟩ := hd
    refine ⟨g, ?_, ret, params, hsig, hret.mono hgrown, hparams.imp fun _ _ hp ↦ hp.mono hgrown⟩
    rw [hid]
    simp [Module.function?, withFunction]
  have hstep : TypedSince world b S { u with module := withFunction u.module g } := h.of_module rfl rfl hpre
  refine ⟨hnew, ⟨fun t ct hl ↦ (h.types t ct hl).mono hgrown, hstep.bodies, fun m' f hm' hl ↦ ?_⟩, h.grown.trans hgrown⟩
  by_cases hid' : m'.id = m.id
  · obtain rfl : m' = m := by
      unfold Found at hm hm'
      rw [hid', hm] at hm'
      exact (Option.some_inj.mp hm').symm
    cases (lookup_cons_same _ _ _).symm.trans hl
    exact hnew
  · exact (h.methods m' f hm' ((lookup_cons_of_ne _ _ hid').symm.trans hl)).mono hgrown

theorem spec_register_typed {m : Method} (hm : Found world m) (sig : Ssa.Ty) :
    Spec (fun u ↦ Declares u m sig ∧ TypedSince world b S u) (register m sig)
      (fun f u ↦ DeclaredFor u m f ∧ TypedSince world b S u) fun _ ↦ True := by
  exact spec_register_of (fun _ _ ↦ trivial) fun u _ _ _ j hu _ _ ↦ hu.2.register hm hu.1 rfl j

theorem spec_declare_typed {m : Method} (hm : Found world m) : Spec (TypedSince world b S) (declare world m)
    (fun af u ↦ af.1 = m.receives ∧ DeclaredFor u m af.2 ∧ TypedSince world b S u) fun _ ↦ True := by
  refine (spec_argumentTypes_receives m).bind fun args ↦ .of_and ?_
  rintro rfl
  exact (spec_signature_typed m _).bind fun sig ↦ (spec_register_typed hm sig).bind fun f ↦ .pure fun _ hu ↦ ⟨rfl, hu⟩

theorem lasting_typedSince (world : Universe) (b : CompilationUnit) (S : Nat → Prop) :
    Lasting world (TypedSince world b S) fun _ ↦ True where
  fails _ := trivial
  same h hs := h.of_module hs.types hs.methods (hs.module ▸ .refl _)
  sameFailed _ _ := trivial
  types t := (spec_compileType_typed _ b S t).imp (fun _ hu ↦ hu) fun _ _ hu ↦ hu.2
  declares hm := (spec_declare_typed hm).imp (fun _ hu ↦ hu) fun _ _ hu ↦ hu.2.2
  rewrites h hF hid hname hsig := h.of_module rfl rfl (precedes_modify hF hid hname hsig)
  memset h := h.of_module rfl rfl (precedes_memset _)

instance stable_typedSince : Stable (TypedSince world b S) fun _ ↦ True := (lasting_typedSince world b S).stable

instance growable_typedSince (fn : FuncId) : Growable (TypedSince world b S) (fun _ ↦ True) fn :=
  (lasting_typedSince world b S).growable fn

theorem lasting_typed (world : Universe) : Lasting world (Typed world) fun _ ↦ True where
  fails _ := trivial
  same h hs := h.of_module hs.types hs.methods (hs.module ▸ .refl _)
  sameFailed _ _ := trivial
  types t u hu := ⟨fun ct u' hc ↦ ((spec_compileType_typed _ u _ t u (.start hu)).1 ct u' hc).2.toTypedBut,
    fun _ _ _ ↦ trivial⟩
  declares hm u hu := ⟨fun af u' hc ↦ ((spec_declare_typed hm u (.start hu)).1 af u' hc).2.2.toTypedBut,
    fun _ _ _ ↦ trivial⟩
  rewrites h hF hid hname hsig := h.of_module rfl rfl (precedes_modify hF hid hname hsig)
  memset h := h.of_module rfl rfl (precedes_memset _)

/-- Every method that is compiled gets a function declared for it, and the registry still fits its types. -/
theorem spec_compileMethod_typed (hworld : Consistent world) (fuel : Nat) {m : Method} (hm : Found world m) :
    Spec (TypedSince world b S) (compileMethod world fuel m) (fun f u ↦ DeclaredFor u m f ∧ TypedSince world b S u)
      fun _ ↦ True := by
  cases fuel with
  | zero => exact .throw fun _ _ ↦ trivial
  | succ fuel =>
    have hbody : ∀ (body : Body) (args : List Ty) (f : FuncId) b, Spec (TypedSince world b S)
        (buildBody world (compileMethod world fuel) m body args f) (fun _ u ↦ True ∧ TypedSince world b S u) fun _ ↦
        True :=
      fun body args f b ↦
        have hlasting := lasting_typedSince world b S
        (hlasting.buildBody (fun id m hm ↦ hlasting.methods hworld fuel (hworld id m hm)) m body args f).imp
          (fun _ hu ↦ hu) fun _ _ hu ↦ ⟨trivial, hu⟩
    rw [compileMethod_succ]
    refine .of_get fun v ↦ ?_
    split
    · rename_i f hl
      exact .pure fun u hu ↦ ⟨hu.1 ▸ hu.2.methods m f hm hl, hu.1 ▸ hu.2⟩
    · refine .forget fun _ ↦ (spec_declare_typed hm).bind fun af ↦ ?_
      dsimp only
      split
      · exact .pure fun _ hu ↦ hu.2
      · refine .of_and fun _ ↦ (Spec.carry (fun hg hd ↦ hd.mono hg) (hbody _ af.1 af.2)).bind fun _ ↦ ?_
        exact .pure fun _ hu ↦ ⟨hu.1, hu.2.2⟩

/-! ### Between requests -/

theorem RolledBack.typed (h : RolledBack u v) (hu : Typed world u) : Typed world v := by
  refine hu.of_module h.types h.methods ⟨fun i g hg ↦ ⟨g, h.functions i g hg, rfl, rfl, rfl⟩, fun i d hd ↦ ?_⟩
  exact ⟨d, h.structs i d hd, rfl, fun _ hts ↦ hts⟩

theorem CompilationUnit.Reachable.typed (hworld : Consistent world) (h : u.Reachable world) : Typed world u := by
  refine h.lasting (lasting_typed world) hworld (fun _ ht hm _ ↦ ?_) fun hu _ hrolled ↦ hrolled.typed hu
  constructor <;> simp [ht, hm]

end

end CilSsa.Lowering

