import CilSsa.Proofs.FiniteLayouts
import CilSsa.Proofs.Requests

/-! The types that a unit compiled, as a graph: an aggregate holds its members, a reference or a pointer needs what
it leads to, and what is registered mirrors that. -/

namespace CilSsa.Lowering

open CilSsa.Metadata Relation
open CilSsa.Ssa (Module Layouts LayoutError)

section

variable (world : Universe)

def given (t : Ty) : Ty := if t = .missing then .void else t

def Holds (t s : Ty) : Prop := t.kind = .valueType ∧ ∃ f ∈ world.instanceFields t, given f.type = s

def Needs (t s : Ty) : Prop := Holds world t s ∨ t.isAddress = true ∧ t.elem.isVoid = false ∧ t.elem = s

/-- Where `t` needs an aggregate that holds itself, whatever that holds and needs it holds it too. -/
def Unmasked (t : Ty) : Prop :=
  ∀ r, ReflTransGen (Needs world) t r → TransGen (Holds world) r r →
    ∀ s, TransGen (Holds world) r s → ReflTransGen (Needs world) s r → TransGen (Holds world) s r

def Supported (t : Ty) : Prop :=
  match t.kind with
  | .void => True
  | .byref | .pointer => t.elem.isByRef = false
  | .refType | .param => False
  | .primitive => (t.prim?.bind scalarType?).isSome = true
  | .valueType => t.isOpen = false

/-- Types that can be compiled together. -/
structure Compilable (ts : List Ty) : Prop where
  needs : ∀ t ∈ ts, ∀ s, Needs world t s → s ∈ ts
  supported : ∀ t ∈ ts, Supported t
  stored : ∀ t ∈ ts, ∀ s, Holds world t s → s.isVoid = false
  finite : ∀ t ∈ ts, ¬ TransGen (Holds world) t t

/-- What a unit knows of layouts is right. -/
structure Truthful (u : CompilationUnit) : Prop where
  sound : u.engine.layouts.Sound u.module
  closed : u.module.Closed

/-- The types of a unit with all that they need, and their structs in step with them. -/
structure Mapped (u : CompilationUnit) : Prop extends Truthful u where
  known : ∀ e ∈ u.types, if e.1.isVoid then e.2.code = .void else u.module.Known e.2.code
  aggregates : ∀ e ∈ u.types, e.1.kind = .valueType ↔ e.2.code.isStruct = true
  distinct : ∀ e ∈ u.types, ∀ e' ∈ u.types, e.2.code.isStruct = true → (e.2.code = e'.2.code ↔ e.1 = e'.1)
  supported : ∀ e ∈ u.types, Supported e.1
  members : ∀ e ∈ u.types, ∀ body, u.module.fields? e.2.code = some body →
    List.Forall₂ (fun f c ↦ ∃ ct, (given f.type, ct) ∈ u.types ∧ ct.code = c) (world.instanceFields e.1) body
  elems : ∀ e ∈ u.types, e.1.isAddress = true → e.1.elem.isVoid = false → ∃ ct, (e.1.elem, ct) ∈ u.types

/-- The struct of an aggregate lacks its body while the aggregate is one of `under`. -/
def LackBodies (under : List Ty) (u : CompilationUnit) : Prop :=
  ∀ e ∈ u.types, e.1.kind = .valueType → (u.module.fields? e.2.code = none ↔ e.1 ∈ under)

def Waits (under : List Ty) (t : Ty) : Prop :=
  ∃ s ∈ under, ReflTransGen (Holds world) t s ∧ ReflTransGen (Holds world) s t

/-- A unit in which the aggregates `under` are being built; one that holds itself waits for one of them. -/
structure Charted (under : List Ty) (u : CompilationUnit) : Prop extends Mapped world u where
  nodup : under.Nodup
  registered : ∀ s ∈ under, s ∈ u.types.map (·.1)
  building : u.building = under.length
  lacking : LackBodies under u
  caught : ∀ e ∈ u.types, TransGen (Holds world) e.1 e.1 → Waits world under e.1

end

section

variable {world : Universe} {u u' v : CompilationUnit} {t s : Ty} {under : List Ty}

theorem Holds.needs (h : Holds world t s) : Needs world t s := .inl h

theorem Unmasked.of_needs (h : Unmasked world t) (hts : Needs world t s) : Unmasked world s :=
  fun r hr ↦ h r (.head hts hr)

theorem Compilable.reach {ts : List Ty} (h : Compilable world ts) (ht : t ∈ ts) (hts : ReflTransGen (Holds world) t s) :
    s ∈ ts := by
  induction hts with
  | refl => exact ht
  | tail _ hstep ih => exact h.needs _ ih _ hstep.needs

/-! ### Structs mirror aggregates -/

theorem Mapped.kind_of_fields? (h : Mapped world u) {e : Ty × CompiledType} (he : e ∈ u.types) {body : List Ssa.Ty}
    (hbody : u.module.fields? e.2.code = some body) : e.1.kind = .valueType :=
  (h.aggregates e he).mpr (Module.isStruct_of_fields? hbody)

theorem Mapped.lift (h : Mapped world u) {e : Ty × CompiledType} (he : e ∈ u.types) {c : Ssa.Ty}
    (hc : u.module.Embeds e.2.code c) : ∃ e' ∈ u.types, e'.2.code = c ∧ Holds world e.1 e'.1 := by
  obtain ⟨body, hbody, hmem⟩ := hc
  obtain ⟨f, hf, ct, hct, hcode⟩ := exists_left_of_forall₂ (h.members e he body hbody) hmem
  exact ⟨_, hct, hcode, h.kind_of_fields? he hbody, f, hf, rfl⟩

theorem Mapped.lift_refl (h : Mapped world u) {e : Ty × CompiledType} (he : e ∈ u.types) {c : Ssa.Ty}
    (hc : ReflTransGen u.module.Embeds e.2.code c) :
    ∃ e' ∈ u.types, e'.2.code = c ∧ ReflTransGen (Holds world) e.1 e'.1 := by
  induction hc with
  | refl => exact ⟨e, he, rfl, .refl⟩
  | tail _ hstep ih =>
    obtain ⟨e₁, he₁, rfl, hreach⟩ := ih
    obtain ⟨e₂, he₂, hcode, hhold⟩ := h.lift he₁ hstep
    exact ⟨e₂, he₂, hcode, hreach.tail hhold⟩

theorem Mapped.lift_trans (h : Mapped world u) {e : Ty × CompiledType} (he : e ∈ u.types) {c : Ssa.Ty}
    (hc : TransGen u.module.Embeds e.2.code c) : ∃ e' ∈ u.types, e'.2.code = c ∧ TransGen (Holds world) e.1 e'.1 := by
  obtain ⟨d, hd, hrest⟩ := TransGen.head'_iff.mp hc
  obtain ⟨e₁, he₁, rfl, hhold⟩ := h.lift he hd
  obtain ⟨e₂, he₂, hcode, hreach⟩ := h.lift_refl he₁ hrest
  exact ⟨e₂, he₂, hcode, TransGen.head' hhold hreach⟩

theorem Mapped.lift_circular (h : Mapped world u) {e : Ty × CompiledType} (he : e ∈ u.types)
    (hc : u.module.Circular e.2.code) :
    ∃ e' ∈ u.types, ReflTransGen (Holds world) e.1 e'.1 ∧ TransGen (Holds world) e'.1 e'.1 := by
  obtain ⟨c, hdown, hcycle⟩ := hc
  obtain ⟨e₁, he₁, rfl, hreach⟩ := h.lift_refl he hdown
  obtain ⟨e₂, he₂, hcode, hcycle'⟩ := h.lift_trans he₁ hcycle
  obtain ⟨d, ⟨body, hbody, -⟩, -⟩ := TransGen.head'_iff.mp hcycle
  have hsame := (h.distinct e₁ he₁ e₂ he₂ (Module.isStruct_of_fields? hbody)).mp hcode.symm
  exact ⟨e₁, he₁, hreach, hsame ▸ hcycle'⟩

theorem Mapped.acyclic_of_sized (h : Mapped world u) {c : Ssa.Ty} (hc : u.module.Sized c) :
    ∀ e ∈ u.types, e.2.code = c → ¬ TransGen (Holds world) e.1 e.1 := by
  induction hc with
  | scalar known plain =>
    rintro e he rfl hcycle
    obtain ⟨s, ⟨hkind, -⟩, -⟩ := TransGen.head'_iff.mp hcycle
    rw [(h.aggregates e he).mp hkind] at plain
    cases plain
  | struct body _ ih =>
    rintro e he rfl hcycle
    obtain ⟨s, hhold, hback⟩ := TransGen.head'_iff.mp hcycle
    obtain ⟨f, hf, rfl⟩ := hhold.2
    obtain ⟨c, hc, ct, hct, hcode⟩ := exists_right_of_forall₂ (h.members e he _ body) hf
    exact ih c hc _ hct hcode (.tail' hback hhold)

theorem Charted.sized (h : Charted world [] u) {e : Ty × CompiledType} (he : e ∈ u.types)
    (hkind : e.1.kind = .valueType) : ∃ l, (u.engine.layouts.of u.module e.2.code).1 = .ok l := by
  have hknown := h.known e he
  rw [if_neg (by simp [Metadata.Ty.isVoid, hkind])] at hknown
  have hright := (Layouts.of_right h.closed hknown h.sound).2
  have hacyclic : ¬ u.module.Circular e.2.code := by
    intro hc
    obtain ⟨e₁, he₁, -, hcycle⟩ := h.lift_circular he hc
    obtain ⟨s, hs, -⟩ := h.caught e₁ he₁ hcycle
    exact List.not_mem_nil hs
  cases hanswer : (u.engine.layouts.of u.module e.2.code).1 with
  | ok l => exact ⟨l, rfl⟩
  | error err =>
    rw [hanswer] at hright
    cases err with
    | noBody q =>
      obtain ⟨hreach, -, hstruct, hnone⟩ := hright
      obtain ⟨e₁, he₁, rfl, -⟩ := h.lift_refl he hreach
      exact absurd ((h.lacking e₁ he₁ ((h.aggregates e₁ he₁).mpr hstruct)).mp hnone) List.not_mem_nil
    | recursive cycle => exact absurd hright hacyclic
    | unsized q => exact absurd hright hacyclic

/-! ### What a compilation adds -/

theorem Charted.same (h : Charted world under u) (hmodule : u'.module = u.module)
    (hlayouts : u'.engine.layouts = u.engine.layouts) (htypes : u'.types = u.types)
    (hbuilding : u'.building = u.building) : Charted world under u' where
  sound := by rw [hmodule, hlayouts]; exact h.sound
  closed := hmodule ▸ h.closed
  known := by rw [hmodule, htypes]; exact h.known
  aggregates := htypes ▸ h.aggregates
  distinct := htypes ▸ h.distinct
  supported := htypes ▸ h.supported
  members := by rw [hmodule, htypes]; exact h.members
  elems := htypes ▸ h.elems
  nodup := h.nodup
  registered := htypes ▸ h.registered
  building := hbuilding.trans h.building
  lacking := by rw [LackBodies, hmodule, htypes]; exact h.lacking
  caught := htypes ▸ h.caught

theorem Charted.remember (h : Charted world under u) {code : Ssa.Ty} (hkind : t.kind ≠ .valueType)
    (hsupported : Supported t) (hcode : if t.isVoid then code = .void else u.module.Known code)
    (hplain : code.isStruct = false) (helem : t.isAddress = true → t.elem.isVoid = false → ∃ ct, (t.elem, ct) ∈ u.types)
    (j : Journal) : Charted world under { u with types := (t, ⟨t, code, []⟩) :: u.types, journal := j } := by
  have hne : ∀ e' ∈ u.types, e'.2.code.isStruct = true → e'.2.code ≠ code := by
    rintro e' - hs rfl
    rw [hplain] at hs
    cases hs
  have hmore : ∀ {k : Ty} {P : CompiledType → Prop}, (∃ ct, (k, ct) ∈ u.types ∧ P ct) →
      ∃ ct, (k, ct) ∈ (t, (⟨t, code, []⟩ : CompiledType)) :: u.types ∧ P ct :=
    fun ⟨ct, hct, hp⟩ ↦ ⟨ct, List.mem_cons_of_mem _ hct, hp⟩
  refine ⟨⟨⟨h.sound, h.closed⟩, ?_, ?_, ?_, ?_, ?_, ?_⟩, h.nodup, fun s hs ↦ List.mem_cons_of_mem _ (h.registered s hs),
    h.building, ?_, ?_⟩
  · exact List.forall_mem_cons.mpr ⟨hcode, h.known⟩
  · refine List.forall_mem_cons.mpr ⟨⟨fun hk ↦ absurd hk hkind, fun hs ↦ ?_⟩, h.aggregates⟩
    rw [hplain] at hs
    cases hs
  · intro e he e' he' hs
    rcases List.mem_cons.mp he with rfl | he
    · rw [hplain] at hs
      cases hs
    · rcases List.mem_cons.mp he' with rfl | he'
      · exact ⟨fun heq ↦ absurd heq (hne e he hs),
          fun heq ↦ absurd ((congrArg Ty.kind heq).symm.trans ((h.aggregates e he).mpr hs)) hkind⟩
      · exact h.distinct e he e' he' hs
  · exact List.forall_mem_cons.mpr ⟨hsupported, h.supported⟩
  · refine List.forall_mem_cons.mpr ⟨fun body hbody ↦ ?_, fun e he body hbody ↦ ?_⟩
    · rw [Module.isStruct_of_fields? hbody] at hplain
      cases hplain
    · exact (h.members e he body hbody).imp fun _ _ ↦ hmore
  · refine List.forall_mem_cons.mpr ⟨fun ha hv ↦ ?_, fun e he ha hv ↦ ?_⟩
    · obtain ⟨ct, hct⟩ := helem ha hv
      exact ⟨ct, List.mem_cons_of_mem _ hct⟩
    · obtain ⟨ct, hct⟩ := h.elems e he ha hv
      exact ⟨ct, List.mem_cons_of_mem _ hct⟩
  · exact List.forall_mem_cons.mpr ⟨fun hk ↦ absurd hk hkind, h.lacking⟩
  · refine List.forall_mem_cons.mpr ⟨fun hcycle ↦ ?_, h.caught⟩
    obtain ⟨s, ⟨hk, -⟩, -⟩ := TransGen.head'_iff.mp hcycle
    exact absurd hk hkind

theorem fields?_withStruct (m : Module) (name : String) (c : Ssa.Ty) : (withStruct m name).fields? c = m.fields? c := by
  cases c with
  | struct id n =>
    simp only [Module.fields?, withStruct, Array.getElem?_push]
    split
    · rename_i hid
      rw [hid, Array.getElem?_eq_none (Nat.le_refl _)]
      rfl
    · rfl
  | _ => rfl

theorem Charted.begin (h : Charted world under u) (hkind : t.kind = .valueType) (hopen : t.isOpen = false)
    (hkey : t ∉ u.types.map (·.1)) (name : String) (members : List Field) (j : Journal) :
    Charted world (t :: under) { u with
      module := withStruct u.module name
      types := (t, ⟨t, .struct u.module.structs.size name, members⟩) :: u.types
      journal := j
      building := u.building + 1 } := by
  have hpre := precedes_withStruct u.module name
  have hvoid : t.isVoid = false := by simp [Metadata.Ty.isVoid, hkind]
  have haddress : t.isAddress = false :=
    by simp [Metadata.Ty.isAddress, Metadata.Ty.isByRef, Metadata.Ty.isPointer, hkind]
  have hne : ∀ e' ∈ u.types, e'.2.code ≠ .struct u.module.structs.size name := by
    intro e' he' hcode
    have hknown := h.known e' he'
    have hk := (h.aggregates e' he').mpr (by rw [hcode]; rfl)
    rw [if_neg (by simp [Metadata.Ty.isVoid, hk]), hcode] at hknown
    exact absurd (Module.Known.lt hknown) (Nat.lt_irrefl _)
  have hnew : (withStruct u.module name).fields? (.struct u.module.structs.size name) = none := by
    rw [fields?_withStruct]
    simp [Module.fields?]
  refine ⟨⟨⟨h.sound.mono hpre, ?_⟩, ?_, ?_, ?_, ?_, ?_, ?_⟩, ?_, ?_, ?_, ?_, ?_⟩
  · rintro c d ⟨fields, hfields, hd⟩
    rw [fields?_withStruct] at hfields
    exact (h.closed c d ⟨fields, hfields, hd⟩).mono hpre
  · refine List.forall_mem_cons.mpr ⟨?_, fun e he ↦ ?_⟩
    · rw [if_neg (by simp [hvoid])]
      exact structNameOf_withStruct_new _ _
    · have hknown := h.known e he
      split at hknown
      · rw [if_pos ‹_›]
        exact hknown
      · rw [if_neg ‹_›]
        exact hknown.mono hpre
  · exact List.forall_mem_cons.mpr ⟨⟨fun _ ↦ rfl, fun _ ↦ hkind⟩, h.aggregates⟩
  · intro e he e' he' hs
    have hfresh : ∀ e ∈ u.types, e.1 ≠ t := fun e he heq ↦ hkey (heq ▸ List.mem_map_of_mem he)
    rcases List.mem_cons.mp he with rfl | he <;> rcases List.mem_cons.mp he' with rfl | he'
    · exact ⟨fun _ ↦ rfl, fun _ ↦ rfl⟩
    · exact ⟨fun heq ↦ absurd heq.symm (hne e' he'), fun heq ↦ absurd heq.symm (hfresh e' he')⟩
    · exact ⟨fun heq ↦ absurd heq (hne e he), fun heq ↦ absurd heq (hfresh e he)⟩
    · exact h.distinct e he e' he' hs
  · refine List.forall_mem_cons.mpr ⟨?_, h.supported⟩
    simp only [Supported, hkind, hopen]
  · refine List.forall_mem_cons.mpr ⟨fun body hbody ↦ ?_, fun e he body hbody ↦ ?_⟩
    · rw [hnew] at hbody
      cases hbody
    · rw [fields?_withStruct] at hbody
      exact (h.members e he body hbody).imp fun _ _ hct ↦ hct.imp fun _ hct ↦ ⟨List.mem_cons_of_mem _ hct.1, hct.2⟩
  · refine List.forall_mem_cons.mpr ⟨fun ha ↦ ?_, fun e he ha hv ↦ ?_⟩
    · rw [haddress] at ha
      cases ha
    · obtain ⟨ct, hct⟩ := h.elems e he ha hv
      exact ⟨ct, List.mem_cons_of_mem _ hct⟩
  · exact List.nodup_cons.mpr ⟨fun hmem ↦ hkey (h.registered t hmem), h.nodup⟩
  · exact List.forall_mem_cons.mpr ⟨List.mem_cons_self, fun s hs ↦ List.mem_cons_of_mem _ (h.registered s hs)⟩
  · exact congrArg (· + 1) h.building
  · refine List.forall_mem_cons.mpr ⟨fun _ ↦ ⟨fun _ ↦ List.mem_cons_self, fun _ ↦ hnew⟩, fun e he hk ↦ ?_⟩
    have hold : e.1 ≠ t := fun heq ↦ hkey (heq ▸ List.mem_map_of_mem he)
    dsimp only
    rw [fields?_withStruct, h.lacking e he hk, List.mem_cons, or_iff_right hold]
  · refine List.forall_mem_cons.mpr ⟨fun _ ↦ ⟨t, List.mem_cons_self, .refl, .refl⟩, fun e he hcycle ↦ ?_⟩
    obtain ⟨s, hs, hreach⟩ := h.caught e he hcycle
    exact ⟨s, List.mem_cons_of_mem _ hs, hreach⟩

theorem setBody_of_none {m : Module} {id : Nat} {name : String} (h : m.fields? (.struct id name) = none)
    (body : List Ssa.Ty) : m.setBody (.struct id name) body = .ok (withBody m id body) := by
  simp only [Module.setBody, h]
  rfl

theorem fields?_setBody_self {m : Module} {id : Nat} (hlt : id < m.structs.size) (body : List Ssa.Ty) (name : String) :
    (withBody m id body).fields? (.struct id name) = some body := by
  simp [Module.fields?, getElem?_withBody, Array.getElem?_eq_getElem hlt]

theorem fields?_setBody_of_ne {m : Module} {id : Nat} {c : Ssa.Ty} (hne : ∀ name, c ≠ .struct id name)
    (body : List Ssa.Ty) :
    (withBody m id body).fields? c = m.fields? c := by
  cases c with
  | struct i n =>
    have hi : id ≠ i := fun heq ↦ hne n (heq ▸ rfl)
    simp only [Module.fields?, getElem?_withBody, if_neg hi]
  | _ => rfl

/-- The struct of an aggregate gets its body, made of the counterparts of the members. -/
theorem Charted.setBody (h : Charted world (t :: under) u) {id : Nat} {name : String} {members : List Field}
    (hct : (t, ⟨t, .struct id name, members⟩) ∈ u.types) (hkind : t.kind = .valueType) {body : List Ssa.Ty}
    (hbody : List.Forall₂ (fun f c ↦ c ≠ .void ∧ ∃ ct, (given f.type, ct) ∈ u.types ∧ ct.code = c)
      (world.instanceFields t) body) (n : Nat) :
    Mapped world { u with module := withBody u.module id body, building := n } ∧
      LackBodies under { u with module := withBody u.module id body, building := n } := by
  have hknown : u.module.Known (.struct id name) := by
    have := h.known _ hct
    rwa [if_neg (by simp [Metadata.Ty.isVoid, hkind])] at this
  have hnone : u.module.fields? (.struct id name) = none := (h.lacking _ hct hkind).mpr List.mem_cons_self
  have hpre := precedes_setBody body hnone
  have hself := fields?_setBody_self (Module.Known.lt hknown) body
  have hother := fun (c : Ssa.Ty) (hne : ∀ name, c ≠ .struct id name) ↦ fields?_setBody_of_ne (m := u.module) hne body
  generalize withBody u.module id body = m' at hpre hself hother ⊢
  -- Of the types that are registered only `t` has the struct.
  have hstruct : ∀ e ∈ u.types, e.1.kind = .valueType → m'.fields? e.2.code =
      if e.1 = t then some body else u.module.fields? e.2.code := by
    intro e he hk
    have hiff := h.distinct _ hct e he rfl
    split
    · rename_i heq
      rw [← hiff.mpr heq.symm]
      exact hself name
    · rename_i hne
      refine hother _ fun n hcode ↦ hne (hiff.mp ?_).symm
      have hknown' := h.known e he
      rw [if_neg (by simp [Metadata.Ty.isVoid, hk]), hcode] at hknown'
      cases hknown'.symm.trans hknown
      exact hcode.symm
  refine ⟨⟨⟨h.sound.mono hpre, ?_⟩, ?_, h.aggregates, h.distinct, h.supported, ?_, h.elems⟩, ?_⟩
  · intro c d ⟨fields, hc, hd⟩
    by_cases hid : ∃ n, c = .struct id n
    · obtain ⟨n, rfl⟩ := hid
      cases (hself n).symm.trans hc
      obtain ⟨f, -, hne, ct, hmem, hcode⟩ := exists_left_of_forall₂ hbody hd
      have := h.known _ hmem
      split at this
      · exact absurd (hcode.symm.trans this) hne
      · exact (hcode ▸ this).mono hpre
    · rw [hother c (not_exists.mp hid)] at hc
      exact (h.closed c d ⟨fields, hc, hd⟩).mono hpre
  · intro e he
    have := h.known e he
    split at this
    · rwa [if_pos ‹_›]
    · rw [if_neg ‹_›]
      exact this.mono hpre
  · intro e he fields hc
    have hk := (h.aggregates e he).mpr (Module.isStruct_of_fields? hc)
    dsimp only at hc
    rw [hstruct e he hk] at hc
    split at hc
    · rename_i heq
      cases hc
      rw [heq]
      exact hbody.imp fun _ _ hr ↦ hr.2
    · exact h.members e he fields hc
  · intro e he hk
    dsimp only
    rw [hstruct e he hk]
    by_cases heq : e.1 = t
    · rw [if_pos heq, heq]
      exact ⟨fun hc ↦ (nomatch hc), fun hmem ↦ absurd hmem (List.nodup_cons.mp h.nodup).1⟩
    · rw [if_neg heq, h.lacking e he hk, List.mem_cons, or_iff_right heq]

theorem Mapped.check (h : Mapped world u) (hlack : LackBodies under u) {e : Ty × CompiledType} (he : e ∈ u.types)
    (hkind : e.1.kind = .valueType) (ht : e.1 ∉ under) (hmask : Unmasked world e.1)
    (hunder : ∀ s ∈ under, ReflTransGen (Needs world) s e.1) :
    match (u.engine.layouts.of u.module e.2.code).1 with
    | .ok _ => ¬ TransGen (Holds world) e.1 e.1
    | .error (.noBody _) => under ≠ [] ∧ (TransGen (Holds world) e.1 e.1 → Waits world under e.1)
    | .error _ => ∃ s, ReflTransGen (Holds world) e.1 s ∧ TransGen (Holds world) s s := by
  have hknown := h.known e he
  rw [if_neg (by simp [Metadata.Ty.isVoid, hkind])] at hknown
  have hright := (Layouts.of_right h.closed hknown h.sound).2
  have hcircular : u.module.Circular e.2.code → ∃ s, ReflTransGen (Holds world) e.1 s ∧ TransGen (Holds world) s s := by
    intro hc
    obtain ⟨e', -, hreach, hcycle⟩ := h.lift_circular he hc
    exact ⟨e'.1, hreach, hcycle⟩
  cases hanswer : (u.engine.layouts.of u.module e.2.code).1 with
  | ok l =>
    rw [hanswer] at hright
    exact h.acyclic_of_sized hright e he rfl
  | error err =>
    rw [hanswer] at hright
    cases err with
    | noBody q =>
      obtain ⟨hdown, -, hstruct, hnone⟩ := hright
      obtain ⟨e', he', rfl, hreach⟩ := h.lift_refl he hdown
      have hmem := (hlack e' he' ((h.aggregates e' he').mpr hstruct)).mp hnone
      refine ⟨List.ne_nil_of_mem hmem, fun hcycle ↦ ⟨e'.1, hmem, hreach, ?_⟩⟩
      have hhold : TransGen (Holds world) e.1 e'.1 := by
        rcases ReflTransGen.cases_head_iff.mp hreach with heq | hstep
        · exact absurd (heq ▸ hmem) ht
        · exact TransGen.head'_iff.mpr hstep
      exact (hmask e.1 .refl hcycle e'.1 hhold (hunder _ hmem)).to_reflTransGen
    | recursive cycle => exact hcircular hright
    | unsized q => exact hcircular hright

theorem waits_of_check (hcycle : TransGen (Holds world) s s) (hs : Waits world (t :: under) s)
    (hself : TransGen (Holds world) t t → Waits world under t) : Waits world under s := by
  obtain ⟨r, hr, hto, hback⟩ := hs
  rcases List.mem_cons.mp hr with rfl | hr
  · have hcycle' : TransGen (Holds world) r r := by
      obtain ⟨d, hd, hrest⟩ := TransGen.head'_iff.mp hcycle
      exact (TransGen.tail'_iff.mpr ⟨_, hback, hd⟩).trans_left (hrest.trans hto)
    obtain ⟨q, hq, hto', hback'⟩ := hself hcycle'
    exact ⟨q, hq, hto.trans hto', hback'.trans hback⟩
  · exact ⟨r, hr, hto, hback⟩

/-- A unit after the check of an aggregate, which it passes or which finds an aggregate that holds itself. -/
theorem Mapped.settle (h : Mapped world u) (hlack : LackBodies under u) {e : Ty × CompiledType} (he : e ∈ u.types)
    (hkind : e.1.kind = .valueType) (hnodup : (e.1 :: under).Nodup) (hregistered : ∀ s ∈ under, s ∈ u.types.map (·.1))
    (hbuilding : u.building = under.length)
    (hcaught : ∀ e' ∈ u.types, TransGen (Holds world) e'.1 e'.1 → Waits world (e.1 :: under) e'.1)
    (hmask : Unmasked world e.1) (hunder : ∀ s ∈ under, ReflTransGen (Needs world) s e.1) :
    Truthful { u with engine := { u.engine with layouts := (u.engine.layouts.of u.module e.2.code).2 } } ∧
    match (u.engine.layouts.of u.module e.2.code).1 with
    | .ok _ => Charted world under
        { u with engine := { u.engine with layouts := (u.engine.layouts.of u.module e.2.code).2 } }
    | .error (.noBody _) => u.building ≠ 0 ∧ Charted world under
        { u with engine := { u.engine with layouts := (u.engine.layouts.of u.module e.2.code).2 } }
    | .error _ => ∃ s, ReflTransGen (Holds world) e.1 s ∧ TransGen (Holds world) s s := by
  obtain ⟨hfresh, hnodup⟩ := List.nodup_cons.mp hnodup
  have hknown := h.known e he
  rw [if_neg (by simp [Metadata.Ty.isVoid, hkind])] at hknown
  have htruthful : Truthful
    { u with engine := { u.engine with layouts := (u.engine.layouts.of u.module e.2.code).2 } } :=
    ⟨(Layouts.of_right h.closed hknown h.sound).1, h.closed⟩
  have hcharted : (TransGen (Holds world) e.1 e.1 → Waits world under e.1) → Charted world under
      { u with engine := { u.engine with layouts := (u.engine.layouts.of u.module e.2.code).2 } } := fun hself ↦
    ⟨⟨htruthful, h.known, h.aggregates, h.distinct, h.supported, h.members, h.elems⟩, hnodup, hregistered,
      hbuilding, hlack, fun e' he' hcycle ↦ waits_of_check hcycle (hcaught e' he' hcycle) hself⟩
  have hcheck := h.check hlack he hkind hfresh hmask hunder
  refine ⟨htruthful, ?_⟩
  generalize u.engine.layouts.of u.module e.2.code = answer at *
  obtain ⟨r, layouts⟩ := answer
  cases r with
  | ok l => exact hcharted fun hcycle ↦ absurd hcycle hcheck
  | error err =>
    cases err with
    | noBody q => exact ⟨fun h0 ↦ hcheck.1 (List.length_eq_zero_iff.mp (hbuilding.symm.trans h0)), hcharted hcheck.2⟩
    | recursive cycle => exact hcheck
    | unsized q => exact hcheck

end

end CilSsa.Lowering

