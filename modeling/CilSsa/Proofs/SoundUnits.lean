import CilSsa.Proofs.TypeGraph
import CilSsa.Proofs.TypedConversions

namespace CilSsa.Ssa

/-- What is called like the function that fills memory is declared like it. -/
def Module.Fills (m : Module) : Prop :=
  ∀ (j : Nat) (F : Function), m.functions[j]? = some F → F.name = memsetName → F.signature = memsetSignature

namespace Layouts

variable {s : Layouts} {t : Ty}

def Measured (s : Layouts) : Prop := ∀ l, s.memo.lookup .void ≠ some (.ok l)

theorem Measured.remember (h : s.Measured) {a : Except LayoutError Layout} (ha : t = .void → ∀ l, a ≠ .ok l) :
    (s.remember t a).Measured := by
  intro l hl
  rcases lookup_remember hl with ⟨rfl, rfl, -⟩ | hl
  · exact ha rfl l rfl
  · exact h l hl

theorem walk_measured (m : Module) : Walk m Measured (fun t a ↦ t = .void → ∀ l, a ≠ .ok l) fun _ _ _ ↦ True where
  exhausted _ _ _ := nofun
  known hs hl := by
    rintro rfl l rfl
    exact hs l hl
  cyclic _ _ _ _ := nofun
  plain _ _ _ := by
    rintro rfl _ ⟨⟩
  bodyless _ _ _ _ _ := nofun
  deeper _ _ _ _ := trivial
  struct hfields _ := by
    rintro rfl
    cases hfields
  failed _ _ _ _ _ := nofun
  remember _ _ hs ha := hs.remember ha

theorem Measured.of_ne_ok (h : s.Measured) (m : Module) (l : Layout) : (s.of m .void).1 ≠ .ok l := by
  unfold Layouts.of compute
  split
  · rename_i a ha
    intro hok
    exact h l (by rw [ha]; exact congrArg some hok)
  · rw [List.contains_nil]
    rintro ⟨⟩

end Layouts

end CilSsa.Ssa

namespace CilSsa.Lowering

open CilSsa.Bytecode CilSsa.Metadata
open CilSsa.Ssa (FuncId Function Instr Module memsetName)

/-- The structs of a unit's aggregates are their own, and have the counterparts of their members. -/
structure Mirrored (world : Universe) (u : CompilationUnit) : Prop where
  below : ∀ t ct id name, u.types.lookup t = some ct → ct.code = .struct id name → id < u.module.structs.size
  own : ∀ t ct t' ct' id name name', u.types.lookup t = some ct → ct.code = .struct id name →
    u.types.lookup t' = some ct' → ct'.code = .struct id name' → t = t'
  members : ∀ t ct body, u.types.lookup t = some ct → u.module.fields? ct.code = some body →
    List.Forall₂ (fun f c ↦ Passes u f.type c) (world.instanceFields t) body

/-- What is called like the function that fills memory is that function, and nothing has a size that has no values. -/
structure Provisioned (u : CompilationUnit) : Prop where
  fills : u.module.Fills
  measured : u.engine.layouts.Measured

/-- A unit in which lowered code finds what it counts on. -/
structure Sound (world : Universe) (u : CompilationUnit) : Prop extends Provisioned u where
  typed : Typed world u
  mirrored : Mirrored world u

/-- A unit whose registry fits its types and their members, and that grew out of the unit `b`. -/
structure MirroredSince (world : Universe) (b : CompilationUnit) (S : Nat → Prop) (u : CompilationUnit) : Prop where
  typed : TypedSince world b S u
  mirrored : Mirrored world u

section

variable {α : Type} {world : Universe} {b u u' v : CompilationUnit} {S : Nat → Prop} {t : Ty} {m : Method}

/-! ### The structs of aggregates -/

theorem Mirrored.of_module (h : Mirrored world u) (ht : u'.types = u.types) (hs : u'.module.structs = u.module.structs)
    (hmodule : u.module.Precedes u'.module) : Mirrored world u' := by
  have hgrown : Extended u u' := ⟨hmodule, fun t ct _ hl ↦ ht ▸ hl⟩
  have hfields : ∀ c, u'.module.fields? c = u.module.fields? c := by
    intro c
    unfold Module.fields?
    rw [hs]
  refine ⟨?_, ?_, fun t ct body hl hbody ↦ ?_⟩
  · rw [ht, hs]
    exact h.below
  · rw [ht]
    exact h.own
  · rw [ht] at hl
    rw [hfields] at hbody
    exact (h.members t ct body hl hbody).imp fun _ _ hp ↦ hp.mono hgrown

theorem Mirrored.withPlain (h : Mirrored world u) {K : Ty → Ssa.Ty → Prop} {c : Ssa.Ty} (hplain : PlainCode K t c) :
    Mirrored world (u.withPlain t c) := by
  have hgrown : Extended u (u.withPlain t c) :=
    ⟨.refl _, fun t _ hk hl ↦ (lookup_cons_of_ne _ _ (by rintro rfl; exact hplain.kind_ne hk)).trans hl⟩
  have hold : ∀ {t' ct' id name}, (u.withPlain t c).types.lookup t' = some ct' → ct'.code = .struct id name →
      u.types.lookup t' = some ct' := by
    intro t' ct' id name hl hc
    refine (lookup_cons_cases hl).resolve_left ?_
    rintro ⟨-, rfl⟩
    have := hplain.isStruct
    cases hc
    cases this
  refine ⟨fun t ct' id name hl hc ↦ h.below t ct' id name (hold hl hc) hc,
    fun t ct' t' ct'' id name name' hl hc hl' hc' ↦ h.own t ct' t' ct'' id name name' (hold hl hc) hc
    (hold hl' hc') hc',
    fun t ct' body hl hbody ↦ ?_⟩
  obtain ⟨id, name, hc⟩ : ∃ id name, ct'.code = .struct id name := by
    have hstruct := Ssa.Module.isStruct_of_fields? hbody
    cases hc : ct'.code with
    | struct id name => exact ⟨id, name, rfl⟩
    | _ => rw [hc] at hstruct; cases hstruct
  exact (h.members t ct' body (hold hl hc) hbody).imp fun _ _ hp ↦ hp.mono hgrown

theorem Mirrored.withStruct (h : Mirrored world u) (hnew : u.types.lookup t = none) (name : String)
    (members : List Field) (j : Journal) : Mirrored world { u with
      module := withStruct u.module name
      types := (t, ⟨t, .struct u.module.structs.size name, members⟩) :: u.types
      journal := j } := by
  have hgrown : Extended u { u with
      module := Lowering.withStruct u.module name
      types := (t, ⟨t, .struct u.module.structs.size name, members⟩) :: u.types
      journal := j } := by
    refine ⟨precedes_withStruct _ name, fun t' ct hk hl ↦ (lookup_cons_of_ne _ _ ?_).trans hl⟩
    rintro rfl
    rw [hnew] at hl
    cases hl
  have hsize : (Lowering.withStruct u.module name).structs.size = u.module.structs.size + 1 := Array.size_push ..
  refine ⟨fun t' ct id n hl hc ↦ ?_, fun t₁ ct₁ t₂ ct₂ id n₁ n₂ hl₁ hc₁ hl₂ hc₂ ↦ ?_, fun t' ct body hl hbody ↦ ?_⟩
  · dsimp only
    rw [hsize]
    rcases lookup_cons_cases hl with ⟨-, rfl⟩ | hl
    · cases hc
      exact Nat.lt_succ_self _
    · exact Nat.lt_succ_of_lt (h.below t' ct id n hl hc)
  · rcases lookup_cons_cases hl₁ with ⟨rfl, rfl⟩ | hold₁ <;> rcases lookup_cons_cases hl₂ with ⟨rfl, rfl⟩ | hold₂
    · rfl
    · cases hc₁
      exact absurd (h.below t₂ ct₂ _ n₂ hold₂ hc₂) (Nat.lt_irrefl _)
    · cases hc₂
      exact absurd (h.below t₁ ct₁ _ n₁ hold₁ hc₁) (Nat.lt_irrefl _)
    · exact h.own t₁ ct₁ t₂ ct₂ id n₁ n₂ hold₁ hc₁ hold₂ hc₂
  · dsimp only at hbody
    rw [fields?_withStruct] at hbody
    rcases lookup_cons_cases hl with ⟨-, rfl⟩ | hl
    · simp [Module.fields?] at hbody
    · exact (h.members t' ct body hl hbody).imp fun _ _ hp ↦ hp.mono hgrown

theorem Mirrored.setBody (h : Mirrored world u) {ct : CompiledType} {id : Nat} {name : String}
    (hl : u.types.lookup t = some ct) (hc : ct.code = .struct id name) {body : List Ssa.Ty}
    (hnone : (u.module.structs[id]?).bind (·.body) = none)
    (hbody : List.Forall₂ (fun f c ↦ Passes u f.type c) (world.instanceFields t) body) :
    Mirrored world { u with module := withBody u.module id body } := by
  have hgrown : Extended u { u with module := withBody u.module id body } :=
    ⟨precedes_setBody body hnone, fun _ _ _ hl ↦ hl⟩
  refine ⟨fun t' ct' i n hl' hc' ↦ ?_, h.own, fun t' ct' body' hl' hbody' ↦ ?_⟩
  · dsimp only
    rw [withBody, Array.size_modify]
    exact h.below t' ct' i n hl' hc'
  · cases hcode : ct'.code with
    | struct i n =>
      simp only [hcode, Module.fields?, getElem?_withBody] at hbody'
      by_cases hi : id = i
      · subst hi
        obtain rfl := h.own t ct t' ct' id name n hl hc hl' hcode
        obtain ⟨d, hd⟩ : ∃ d, u.module.structs[id]? = some d :=
          ⟨_, Array.getElem?_eq_getElem (h.below t ct id name hl hc)⟩
        simp only [hd, if_true, Option.map_some, Option.bind_some, Option.some.injEq] at hbody'
        subst hbody'
        exact hbody.imp fun _ _ hp ↦ hp.mono hgrown
      · rw [if_neg hi] at hbody'
        refine (h.members t' ct' body' hl' ?_).imp fun _ _ hp ↦ hp.mono hgrown
        rw [hcode]
        exact hbody'
    | _ =>
      rw [hcode] at hbody'
      cases hbody'

/-! ### Types -/

theorem MirroredSince.of_module (h : MirroredSince world b S u) (ht : u'.types = u.types) (hm : u'.methods = u.methods)
    (hs : u'.module.structs = u.module.structs) (hmodule : u.module.Precedes u'.module) : MirroredSince world b S u' :=
  ⟨h.typed.of_module ht hm hmodule, h.mirrored.of_module ht hs hmodule⟩

theorem Spec.carryMirrored {c : Compile α} {Q : α → CompilationUnit → Prop} {R : CompilationUnit → Prop}
    (hR : ∀ {u u'}, Extended u u' → R u → R u')
    (h : ∀ b, Spec (MirroredSince world b S) c (fun a u ↦ Q a u ∧ MirroredSince world b S u) fun _ ↦ True) :
    Spec (fun u ↦ R u ∧ MirroredSince world b S u) c (fun a u ↦ R u ∧ Q a u ∧ MirroredSince world b S u)
    fun _ ↦ True := by
  refine fun u hu ↦ ⟨fun a u' hc ↦ ?_, fun _ _ _ ↦ trivial⟩
  obtain ⟨hQ, hsince⟩ := (h u u ⟨.start hu.2.typed.toTypedBut, hu.2.mirrored⟩).1 a u' hc
  have hgrown := hsince.typed.grown
  exact ⟨hR hgrown hu.1, hQ, ⟨hsince.typed.toTypedBut, hu.2.typed.grown.trans hgrown⟩, hsince.mirrored⟩

/-- A compilation of types that gives their counterparts and keeps structs in step with aggregates. -/
def GivesMirrors (world : Universe) (compile : Ty → Compile CompiledType) : Prop :=
  ∀ b S t, Spec (MirroredSince world b S) (compile t) (fun ct u ↦ Means u t ct.code ∧ MirroredSince world b S u) fun _ ↦
  True

theorem spec_compileMembers_mirrored {compile : Ty → Compile CompiledType} (hcompile : GivesMirrors world compile)
    (owner : Ty) (fs : List Field) : Spec (MirroredSince world b S) (compileMembers compile owner fs)
      (fun body u ↦ List.Forall₂ (fun f c ↦ Passes u f.type c) fs body ∧ MirroredSince world b S u) fun _ ↦ True := by
  unfold compileMembers
  induction fs generalizing b with
  | nil => exact .pure fun _ hu ↦ ⟨.nil, hu⟩
  | cons f fs ih =>
    rw [List.mapM_cons]
    refine Spec.bind (Q := fun c u ↦ Passes u f.type c ∧ MirroredSince world b S u) ?_ fun c ↦ ?_
    · refine (hcompile b S f.type).adapt.bind fun ct ↦ ?_
      split
      · exact .throw_bind fun _ _ ↦ trivial
      · exact .pure fun _ hu ↦ ⟨⟨hu.1, ‹_›⟩, hu.2⟩
    · refine (Spec.carryMirrored (R := fun u ↦ Passes u f.type c) (fun hg hp ↦ hp.mono hg) fun _ ↦ ih).bind fun cs ↦ ?_
      exact .pure fun _ hu ↦ ⟨.cons hu.1 hu.2.1, hu.2.2⟩

theorem spec_compileAggregate_mirrored {compile : Ty → Compile CompiledType} (hcompile : GivesMirrors world compile)
    (hk : t.kind = .valueType) (hnew : v.types.lookup t = none) (hv : MirroredSince world b S v) :
    Spec (· = v) (compileAggregate world compile t) (fun _ ↦ Mirrored world) fun _ ↦ True := by
  -- Once it is registered the struct is the one of the aggregate, whatever else is.
  let id := v.module.structs.size
  let R : String → CompilationUnit → Prop := fun name u ↦ ∃ ct, u.types.lookup t = some ct ∧ ct.code = .struct id name
  have hR : ∀ {name u u'}, Extended u u' → R name u → R name u' := fun hg ⟨ct, hl, hc⟩ ↦
    ⟨ct, hg.aggregates t ct hk hl, hc⟩
  let S' : Nat → Prop := fun i ↦ i = id ∨ S i
  refine (spec_compileAggregate_of (K := fun name u ↦ R name u ∧ MirroredSince world b S' u)
    (M := fun name body u ↦ R name u ∧ List.Forall₂ (fun f c ↦ Passes u f.type c) (world.instanceFields t) body ∧
      MirroredSince world b S' u) (J := fun _ ↦ Mirrored world) trivial (fun name _ _ ↦ ?_)
    (fun name ↦ Spec.carryMirrored hR fun b ↦ spec_compileMembers_mirrored hcompile t _) (fun _ _ _ _ ↦ trivial) ?_
    (fun _ u _ hu ↦ hu.of_module rfl rfl (.refl _)) (fun _ _ _ ↦ trivial) fun _ _ ↦ trivial).imp
    (fun _ hu ↦ hu) fun _ _ ⟨_, _, hu⟩ ↦ hu
  · refine ⟨⟨_, lookup_cons_same _ _ _, rfl⟩, MirroredSince.of_module (u := { v with
      module := withStruct v.module name
      types := (t, ⟨t, .struct id name, world.instanceFields t⟩) :: v.types
      journal := { v.journal with types := t :: v.journal.types } }) ⟨?_, ?_⟩ rfl rfl rfl (.refl _)⟩
    · exact hv.typed.withStruct hk hnew name _ _
    · exact hv.mirrored.withStruct hnew name _ _
  · rintro name body u ⟨⟨ct, hl, hc⟩, hpasses, hsince⟩ hnone
    exact (hsince.mirrored.setBody hl hc hnone hpasses).of_module rfl rfl (.refl _)

theorem spec_compileType_mirrored (fuel : Nat) : GivesMirrors world (compileType world fuel) := fun b S ↦
  spec_compileType_of (J := fun i : CompilationUnit × (Nat → Prop) ↦ MirroredSince world i.1 i.2) (fun _ ↦ trivial)
    (fun hu hl ↦ hu.typed.types _ _ hl) (fun h ↦ h.of_void rfl ▸ .void rfl)
    (fun _ _ hc hu ↦ ⟨(hu.typed.withPlain hc).1, (hu.typed.withPlain hc).2, hu.mirrored.withPlain hc⟩)
    (fun hcompile hk hl hu ↦ ((spec_compileAggregate_typed (spec_compileType_typed _) hk hl hu.typed).and
      (spec_compileAggregate_mirrored (fun b S ↦ hcompile (b, S)) hk hl hu)).imp (fun _ hv ↦ ⟨hv, hv⟩)
        fun _ _ hu ↦ ⟨hu.1.1, hu.1.2, hu.2⟩) fuel (b, S)

/-! ### Methods -/

theorem fills_withFunction (h : u.module.Fills) {g : Function} (hg : g.name = memsetName →
    g.signature = Ssa.memsetSignature) : (withFunction u.module g).Fills := by
  intro j F hF hname
  rw [withFunction, Array.getElem?_push] at hF
  split at hF
  · cases hF
    exact hg hname
  · exact h j F hF hname

theorem fills_modify (h : u.module.Fills) {f : FuncId} {F G : Function} (hF : u.module.function? f = some F)
    (hname : G.name = F.name) (hsig : G.signature = F.signature) : (u.module.modifyFunction f fun _ ↦ G).Fills := by
  intro j F' hF' hmemset
  rw [Module.modifyFunction, Array.getElem?_modify] at hF'
  split at hF'
  · obtain ⟨F₀, hF₀, rfl⟩ := Option.map_eq_some_iff.mp hF'
    rw [hsig]
    exact h f.index F hF (hname.symm.trans hmemset)
  · exact h j F' hF' hmemset

theorem fills_memset (h : u.module.Fills) : u.module.memset.1.Fills := by
  rcases memset_cases u.module with hms | ⟨-, g, -, -, hsig, hms⟩ <;> rw [hms]
  · exact h
  · exact fills_withFunction h fun _ ↦ hsig

theorem Learnt.measured {m : Module} {s s' : Ssa.Layouts} (h : Learnt m s s') (hs : s.Measured) : s'.Measured := by
  induction h with
  | nothing => exact hs
  | asked t _ ih => exact ((Ssa.Layouts.walk_measured m).compute trivial ih).1

instance typeless_provisioned : Typeless Provisioned Provisioned where
  fails h := h
  compiled {u u'} h hs := by
    obtain ⟨m, hlearnt⟩ := hs.learnt
    refine ⟨?_, hlearnt.measured h.measured⟩
    unfold Module.Fills
    rw [hs.functions]
    exact h.fills
  abandoned _ h := ⟨h.fills, h.measured⟩

theorem lasting_provisioned (world : Universe) : Lasting world Provisioned Provisioned where
  fails h := h
  same h hs := ⟨hs.module ▸ h.fills, hs.layouts.measured h.measured⟩
  sameFailed h hs := ⟨hs.module ▸ h.fills, hs.layouts.measured h.measured⟩
  types t := Typeless.spec_compileType _ t
  declares _ := by
    refine (spec_argumentTypes_keeps (fun _ h ↦ h) _).bind fun args ↦ (Typeless.spec_signature _ args).bind fun sig ↦
      Spec.bind (Q := fun _ ↦ Provisioned) ?_ fun f ↦ .pure fun _ hu ↦ hu
    exact spec_register_of (fun _ h ↦ h) fun u name _ _ _ hu _ hne ↦
      ⟨fills_withFunction hu.fills fun h ↦ absurd h hne, hu.measured⟩
  rewrites h hF _ hname hsig := ⟨fills_modify h.fills hF hname hsig, h.measured⟩
  memset h := ⟨fills_memset h.fills, h.measured⟩

theorem spec_declare_mirrored (hm : Found world m) :
    Spec (MirroredSince world b S) (declare world m) (fun _ ↦ MirroredSince world b S) fun _ ↦ True := by
  have hcode : ∀ t, Spec (MirroredSince world b S) (codeType world t) (fun _ ↦ MirroredSince world b S) fun _ ↦ True :=
    fun t ↦ (spec_compileType_mirrored _ b S t).bind fun _ ↦ .pure fun _ hu ↦ hu.2
  refine fun u hu ↦ ⟨fun af u' hc ↦ ⟨((spec_declare_typed hm u hu.typed).1 af u' hc).2.2, ?_⟩, fun _ _ _ ↦ trivial⟩
  have hmirrored : Spec (MirroredSince world b S) (declare world m) (fun _ ↦ Mirrored world) fun _ ↦ True := by
    refine (spec_argumentTypes_keeps (fun _ _ ↦ trivial) m).bind fun args ↦
      (spec_signature_keeps (fun _ _ ↦ trivial) hcode m args).bind fun sig ↦
        Spec.bind (Q := fun _ ↦ Mirrored world) ?_ fun f ↦ .pure fun _ hu ↦ hu
    exact spec_register_of (fun _ _ ↦ trivial) fun u _ _ _ _ hu _ _ ↦
      hu.mirrored.of_module rfl rfl (precedes_withFunction _ _)
  exact (hmirrored u hu).1 af u' hc

theorem memset_structs (m : Module) : m.memset.1.structs = m.structs := by
  rcases memset_cases m with hms | ⟨-, g, -, -, -, hms⟩ <;> rw [hms]
  rfl

theorem lasting_sound (world : Universe) : Lasting world (Sound world) Provisioned where
  fails h := h.toProvisioned
  same h hs := ⟨(lasting_provisioned world).same h.toProvisioned hs, (lasting_typed world).same h.typed hs,
    h.mirrored.of_module hs.types (hs.module ▸ rfl) (hs.module ▸ .refl _)⟩
  sameFailed h hs := (lasting_provisioned world).same h hs
  types t u hu := by
    refine ⟨fun ct u' hc ↦ ?_, ((lasting_provisioned world).types t u hu.toProvisioned).2⟩
    obtain ⟨-, hsince⟩ := (spec_compileType_mirrored _ u _ t u ⟨.start hu.typed, hu.mirrored⟩).1 ct u' hc
    exact ⟨((lasting_provisioned world).types t u hu.toProvisioned).1 ct u' hc, hsince.typed.toTypedBut,
      hsince.mirrored⟩
  declares hm u hu := by
    refine ⟨fun af u' hc ↦ ?_, ((lasting_provisioned world).declares hm u hu.toProvisioned).2⟩
    have hsince := (spec_declare_mirrored hm u ⟨.start hu.typed, hu.mirrored⟩).1 af u' hc
    exact ⟨((lasting_provisioned world).declares hm u hu.toProvisioned).1 af u' hc, hsince.typed.toTypedBut,
      hsince.mirrored⟩
  rewrites h hF hid hname hsig := ⟨(lasting_provisioned world).rewrites h.toProvisioned hF hid hname hsig,
    (lasting_typed world).rewrites h.typed hF hid hname hsig,
    h.mirrored.of_module rfl rfl (precedes_modify hF hid hname hsig)⟩
  memset h := ⟨(lasting_provisioned world).memset h.toProvisioned, (lasting_typed world).memset h.typed,
    h.mirrored.of_module rfl (memset_structs _) (precedes_memset _)⟩

instance upholds_sound (world : Universe) : Upholds world (Sound world) := ⟨Sound.typed, (lasting_sound world).total⟩

/-! ### Between requests -/

theorem RolledBack.mirrored (h : RolledBack u v) (hu : Mirrored world u) : Mirrored world v := by
  have hgrown : Extended u v := ⟨⟨fun i g hg ↦ ⟨g, h.functions i g hg, rfl, rfl, rfl⟩, fun i d hd ↦
    ⟨d, h.structs i d hd, rfl, fun _ hts ↦ hts⟩⟩, fun t ct _ hl ↦ h.types ▸ hl⟩
  have hstruct : ∀ {t ct id name}, u.types.lookup t = some ct → ct.code = .struct id name →
      v.module.structs[id]? = u.module.structs[id]? := by
    intro t ct id name hl hc
    have hd := Array.getElem?_eq_getElem (hu.below t ct id name hl hc)
    rw [hd]
    exact h.structs id _ hd
  refine ⟨fun t ct id name hl hc ↦ ?_, h.types ▸ hu.own, fun t ct body hl hbody ↦ ?_⟩
  · rw [h.types] at hl
    have hbelow := hu.below t ct id name hl hc
    have hd := h.structs id _ (Array.getElem?_eq_getElem hbelow)
    exact (Array.getElem?_eq_some_iff.mp hd).1
  · rw [h.types] at hl
    refine (hu.members t ct body hl ?_).imp fun _ _ hp ↦ hp.mono hgrown
    cases hc : ct.code with
    | struct id name =>
      rw [hc, Module.fields?, hstruct hl hc] at hbody
      exact hbody
    | _ =>
      rw [hc] at hbody
      cases hbody

theorem Provisioned.rollBack (h : Provisioned u) : Provisioned u.rollBack := by
  refine rollBack_induction h (fun w k hw ↦ ?_) (fun w t hw ↦ ?_) fun w hw ↦ ⟨hw.fills, hw.measured⟩
  · unfold CompilationUnit.forgetMethod
    split
    · exact hw
    · refine ⟨?_, hw.measured⟩
      dsimp only
      split
      · unfold Module.removeFunction
        exact hw.fills
      · exact hw.fills
  · unfold CompilationUnit.forgetType
    split
    · exact hw
    · refine ⟨?_, hw.measured⟩
      dsimp only
      split
      · unfold Module.removeStruct
        exact hw.fills
      · exact hw.fills

theorem CompilationUnit.Reachable.sound (hworld : Consistent world) (h : u.Reachable world) : Sound world u := by
  refine h.lasting (lasting_sound world) hworld (fun hf ht hm hl ↦ ⟨⟨?_, ?_⟩, ?_, ?_⟩) fun hu hprovisioned hrolled ↦
    ⟨hprovisioned.rollBack, hrolled.typed hu.typed, hrolled.mirrored hu.mirrored⟩
  · intro j F hF
    rw [hf] at hF
    cases hF
  · intro l hlookup
    rw [hl] at hlookup
    cases hlookup
  · constructor <;> simp [ht, hm]
  · constructor <;> simp [ht]

end

end CilSsa.Lowering

