import CilSsa.Proofs.TypeGraph

namespace CilSsa.Lowering

open CilSsa.Metadata Relation
open CilSsa.Ssa (Module Layouts LayoutError)

section

variable (world : Universe)

/-- How many references and pointers stand before the type that they lead to. -/
def indirections : Ty → Nat
  | .byref t | .pointer t => indirections t + 1
  | _ => 0

def pending (u : CompilationUnit) (ts : List Ty) : Nat := ts.countP fun t ↦ (u.types.lookup t).isNone

/-- `t` is one of some types that can be compiled together, and `limit` is enough for those that are pending. -/
def Affordable (u : CompilationUnit) (limit : Nat) (t : Ty) : Prop :=
  ∃ ts, Compilable world ts ∧ t ∈ ts ∧ ∃ most, (∀ s ∈ ts, indirections s ≤ most) ∧
    pending u ts * (most + 1) + indirections t < limit

/-- The code and the types of `u` are all there in `u'`. -/
structure Extends (u u' : CompilationUnit) : Prop where
  module : u.module.Precedes u'.module
  types : ∀ e ∈ u.types, e ∈ u'.types
  isClosed : u'.closed = u.closed

end

section

variable {world : Universe} {u u' v : CompilationUnit} {t s : Ty} {limit : Nat}

theorem Extends.refl (u : CompilationUnit) : Extends u u := ⟨.refl _, fun _ h ↦ h, rfl⟩

theorem Extends.trans (h : Extends u u') (h' : Extends u' v) : Extends u v :=
  ⟨h.module.trans h'.module, fun e he ↦ h'.types e (h.types e he), h'.isClosed.trans h.isClosed⟩

theorem Extends.pending_of (h : Extends u u') (hs : (u'.types.lookup s).isNone = true) :
    (u.types.lookup s).isNone = true := by
  rw [lookup_isNone_iff] at hs ⊢
  intro hmem
  obtain ⟨e, he, rfl⟩ := List.mem_map.mp hmem
  exact hs (List.mem_map_of_mem (h.types e he))

theorem Extends.pending_le (h : Extends u u') (ts : List Ty) : pending u' ts ≤ pending u ts :=
  List.countP_mono_left fun _ _ ↦ h.pending_of

theorem Extends.pending_lt (h : Extends u u') {ts : List Ty} (ht : t ∈ ts) (hold : t ∉ u.types.map (·.1))
    (hnew : t ∈ u'.types.map (·.1)) : pending u' ts < pending u ts := by
  obtain ⟨before, after, rfl⟩ := List.append_of_mem ht
  have hnone : (u.types.lookup t).isNone = true := lookup_isNone_iff.mpr hold
  have hsome : (u'.types.lookup t).isNone = false := Bool.eq_false_iff.mpr fun hn ↦ lookup_isNone_iff.mp hn hnew
  have h1 := h.pending_le before
  have h2 := h.pending_le after
  simp only [pending, List.countP_append, List.countP_cons, hnone, hsome] at h1 h2 ⊢
  simp only [if_true, Bool.false_eq_true, if_false]
  omega

theorem indirections_of_elem (h : t.elem.isVoid = false) : indirections t = indirections t.elem + 1 := by
  cases t with
  | byref e | pointer e => rfl
  | _ => cases h

theorem not_affordable_zero : ¬ Affordable world u 0 t := fun ⟨_, _, _, _, _, h⟩ ↦ absurd h (Nat.not_lt_zero _)

theorem Affordable.supported (h : Affordable world u limit t) : Supported t := by
  obtain ⟨ts, hts, ht, -⟩ := h
  exact hts.supported t ht

theorem Affordable.stored (h : Affordable world u limit t) (hts : Holds world t s) : s.isVoid = false := by
  obtain ⟨ts, hcompilable, ht, -⟩ := h
  exact hcompilable.stored t ht s hts

theorem Affordable.acyclic (h : Affordable world u limit t) (hts : ReflTransGen (Holds world) t s) :
    ¬ TransGen (Holds world) s s := by
  obtain ⟨ts, hcompilable, ht, -⟩ := h
  exact hcompilable.finite s (hcompilable.reach ht hts)

theorem Affordable.elem (h : Affordable world u (limit + 1) t) (haddress : t.isAddress = true)
    (hvoid : t.elem.isVoid = false) : Affordable world u limit t.elem := by
  obtain ⟨ts, hts, ht, most, hmost, hlt⟩ := h
  rw [indirections_of_elem hvoid] at hlt
  exact ⟨ts, hts, hts.needs t ht _ (.inr ⟨haddress, hvoid, rfl⟩), most, hmost, by omega⟩

theorem Affordable.member (h : Affordable world u (limit + 1) t) (hold : t ∉ u.types.map (·.1)) (hu : Extends u u')
    (hnew : t ∈ u'.types.map (·.1)) (hts : Holds world t s) : Affordable world u' limit s := by
  obtain ⟨ts, hcompilable, ht, most, hmost, hlt⟩ := h
  have hs := hcompilable.needs t ht s hts.needs
  refine ⟨ts, hcompilable, hs, most, hmost, ?_⟩
  have hless : pending u' ts + 1 ≤ pending u ts := hu.pending_lt ht hold hnew
  have hmul := Nat.mul_le_mul_right (most + 1) hless
  have hdepth := hmost s hs
  rw [Nat.add_mul, Nat.one_mul] at hmul
  omega

/-! ### One compilation -/

/-- A type is compiled in a unit in order, or fails and is not affordable. -/
def Charts (world : Universe) (limit : Nat) (compile : Ty → Compile CompiledType) : Prop :=
  ∀ under t v, Charted world under v → (∀ s ∈ under, ReflTransGen (Needs world) s (given t)) →
  Unmasked world (given t) →
    Spec (· = v) (compile t) (fun ct u ↦ Extends v u ∧ Charted world under u ∧ (given t, ct) ∈ u.types)
      (fun u ↦ Extends v u ∧ Truthful u ∧ ¬ Affordable world v limit (given t))

variable {under : List Ty}

theorem Charted.isVoid_iff (h : Charted world under u) {e : Ty × CompiledType} (he : e ∈ u.types) :
    e.2.code = .void ↔ e.1.isVoid = true := by
  have hknown := h.known e he
  split at hknown
  · rename_i hvoid
    exact ⟨fun _ ↦ hvoid, fun _ ↦ hknown⟩
  · rename_i hvoid
    refine ⟨fun hcode ↦ ?_, fun hv ↦ absurd hv hvoid⟩
    rw [hcode] at hknown
    exact hknown.elim

/-- All fields have storage, and their types stay affordable as the unit grows. -/
def Payable (world : Universe) (v : CompilationUnit) (limit : Nat) (fs : List Field) : Prop :=
  ∀ f ∈ fs, (given f.type).isVoid = false ∧ ∀ v', Extends v v' → Affordable world v' limit (given f.type)

theorem Payable.tail {f : Field} {fs : List Field} (h : Payable world v limit (f :: fs)) (hv : Extends v u) :
    Payable world u limit fs := fun g hg ↦
  ⟨(h g (List.mem_cons_of_mem _ hg)).1, fun v' hv' ↦ (h g (List.mem_cons_of_mem _ hg)).2 v' (hv.trans hv')⟩

theorem Charts.members {compile : Ty → Compile CompiledType} (h : Charts world limit compile) (owner : Ty)
    (fs : List Field) (hv : Charted world under v)
    (hfs : ∀ f ∈ fs, (∀ s ∈ under, ReflTransGen (Needs world) s (given f.type)) ∧ Unmasked world (given f.type)) :
    Spec (· = v) (compileMembers compile owner fs)
      (fun body u ↦ Extends v u ∧ Charted world under u ∧
        List.Forall₂ (fun f c ↦ c ≠ .void ∧ ∃ ct, (given f.type, ct) ∈ u.types ∧ ct.code = c) fs body)
      (fun u ↦ Extends v u ∧ Truthful u ∧ ¬ Payable world v limit fs) := by
  induction fs generalizing v with
  | nil =>
    refine .pure ?_
    rintro u rfl
    exact ⟨.refl u, hv, .nil⟩
  | cons f fs ih =>
    obtain ⟨hunder, hmask⟩ := hfs f List.mem_cons_self
    unfold compileMembers
    rw [List.mapM_cons]
    refine Spec.bind (Q := fun c u ↦ Extends v u ∧ Charted world under u ∧
      c ≠ .void ∧ ∃ ct, (given f.type, ct) ∈ u.types ∧ ct.code = c) ?_ fun c ↦ ?_
    · refine (((h under f.type v hv hunder hmask).adapt (g := CompileError.within (.field f.text))).weaken ?_).bind
        fun ct ↦ ?_
      · exact fun u hu ↦ ⟨hu.1, hu.2.1, fun hall ↦ hu.2.2 ((hall f List.mem_cons_self).2 v (.refl v))⟩
      split
      · rename_i hvoid
        refine .throw_bind fun u hu ↦ ⟨hu.1, hu.2.1.toTruthful, fun hall ↦ ?_⟩
        have hv' := (hu.2.1.isVoid_iff hu.2.2).mp hvoid
        rw [(hall f List.mem_cons_self).1] at hv'
        cases hv'
      · rename_i hvoid
        exact .pure fun u hu ↦ ⟨hu.1, hu.2.1, hvoid, ct, hu.2.2, rfl⟩
    · intro u hu
      obtain ⟨hfollows, hcharted, hne, ct, hct, hcode⟩ := hu
      refine (((ih hcharted fun g hg ↦ hfs g (List.mem_cons_of_mem _ hg)).weaken ?_).bind fun cs ↦ .pure ?_) u rfl
      · exact fun u' hu' ↦ ⟨hfollows.trans hu'.1, hu'.2.1, fun hall ↦ hu'.2.2 (hall.tail hfollows)⟩
      · exact fun u' hu' ↦ ⟨hfollows.trans hu'.1, hu'.2.1, .cons ⟨hne, ct, hu'.1.types _ hct, hcode⟩ hu'.2.2⟩

theorem Spec.of_read {α : Type} {p : Prop} {c : Compile α} {Q : α → CompilationUnit → Prop} {E : CompilationUnit → Prop}
    (h : p → Spec (· = v) c Q E) : Spec (fun u ↦ u = v ∧ p) c Q E :=
  fun u hu ↦ h hu.2 u hu.1

/-- The members of an aggregate that is registered and waits for its body. -/
theorem Charts.ownMembers {compile : Ty → Compile CompiledType} (h : Charts world limit compile)
    (hkind : t.kind = .valueType) (hkey : t ∉ v.types.map (·.1)) (hunder : ∀ s ∈ under, ReflTransGen (Needs world) s t)
    (hmask : Unmasked world t) (hfollows : Extends v u) (hu : Charted world (t :: under) u) {ct : CompiledType}
    (hmem : (t, ct) ∈ u.types) :
    Spec (· = u) (abandoning (compileMembers compile t (world.instanceFields t)))
      (fun body u ↦ Extends v u ∧ Charted world (t :: under) u ∧ (t, ct) ∈ u.types ∧
        List.Forall₂ (fun f c ↦ c ≠ .void ∧ ∃ ct, (given f.type, ct) ∈ u.types ∧ ct.code = c) (world.instanceFields t)
          body)
      (fun u ↦ Extends v u ∧ Truthful u ∧ ¬ Affordable world v (limit + 1) t) := by
  have hneeds : ∀ f ∈ world.instanceFields t, Needs world t (given f.type) := fun f hf ↦ .inl ⟨hkind, f, hf, rfl⟩
  have hreached : ∀ f ∈ world.instanceFields t, ∀ s ∈ t :: under, ReflTransGen (Needs world) s (given f.type) := by
    intro f hf s hs
    rcases List.mem_cons.mp hs with rfl | hs
    · exact .single (hneeds f hf)
    · exact (hunder s hs).tail (hneeds f hf)
  have hpayable : Affordable world v (limit + 1) t → Payable world u limit (world.instanceFields t) := by
    refine fun haff f hf ↦ ⟨haff.stored ⟨hkind, f, hf, rfl⟩, fun v' hv' ↦ ?_⟩
    exact haff.member hkey (hfollows.trans hv') (List.mem_map_of_mem (hv'.types _ hmem)) ⟨hkind, f, hf, rfl⟩
  have hspec := h.members t (world.instanceFields t) hu fun f hf ↦ ⟨hreached f hf, hmask.of_needs (hneeds f hf)⟩
  refine Spec.abandoning (E := fun u ↦ Extends v u ∧ Truthful u ∧ ¬ Affordable world v (limit + 1) t)
    ((hspec.weaken fun u' hu' ↦ ?_).imp (fun _ hu ↦ hu) fun body u' hu' ↦ ?_) fun hu' ↦ ?_
  · exact ⟨hfollows.trans hu'.1, hu'.2.1, fun haff ↦ hu'.2.2 (hpayable haff)⟩
  · exact ⟨hfollows.trans hu'.1, hu'.2.1, hu'.1.types _ hmem, hu'.2.2⟩
  · exact ⟨⟨hu'.1.module, hu'.1.types, hu'.1.isClosed⟩, ⟨hu'.2.1.sound, hu'.2.1.closed⟩, hu'.2.2⟩

/-- What is made of the answer to the question for an aggregate's layout. -/
theorem spec_settled {answer : Except LayoutError Ssa.Layout} {layouts : Layouts} {ct : CompiledType}
    (hfollows : Extends v u) (hmem : (t, ct) ∈ u.types)
    (htruthful : Truthful { u with engine := { u.engine with layouts } })
    (hanswer : match answer with
      | .ok _ => Charted world under { u with engine := { u.engine with layouts } }
      | .error (.noBody _) => u.building ≠ 0 ∧ Charted world under { u with engine := { u.engine with layouts } }
      | .error _ => ∃ s, ReflTransGen (Holds world) t s ∧ TransGen (Holds world) s s) :
    Spec (· = { u with engine := { u.engine with layouts } })
      (match answer with
        | .ok _ => pure ct
        | .error (.noBody s) => if u.building = 0 then throw (.unsupportedType t (.layout (.noBody s))) else pure ct
        | .error e => throw (.unsupportedType t (.layout e)))
      (fun ct u' ↦ Extends v u' ∧ Charted world under u' ∧ (t, ct) ∈ u'.types)
      (fun u' ↦ Extends v u' ∧ Truthful u' ∧ ¬ Affordable world v (limit + 1) t) := by
  have hkept : Extends v { u with engine := { u.engine with layouts } } :=
    ⟨hfollows.module, hfollows.types, hfollows.isClosed⟩
  cases answer with
  | ok l =>
    refine .pure ?_
    rintro _ rfl
    exact ⟨hkept, hanswer, hmem⟩
  | error err =>
    cases err with
    | noBody q =>
      dsimp only
      rw [if_neg hanswer.1]
      refine .pure ?_
      rintro _ rfl
      exact ⟨hkept, hanswer.2, hmem⟩
    | recursive cycle | unsized q =>
      obtain ⟨s, hreach, hcycle⟩ := hanswer
      refine .throw ?_
      rintro _ rfl
      exact ⟨hkept, htruthful, fun haff ↦ haff.acyclic hreach hcycle⟩

/-- An aggregate is registered, its members are compiled, and its layout is looked for. -/
theorem Charts.aggregate {compile : Ty → Compile CompiledType} (h : Charts world limit compile)
    (hkind : t.kind = .valueType) (hkey : t ∉ v.types.map (·.1)) (hv : Charted world under v)
    (hunder : ∀ s ∈ under, ReflTransGen (Needs world) s t) (hmask : Unmasked world t) :
    Spec (· = v) (compileAggregate world compile t)
      (fun ct u ↦ Extends v u ∧ Charted world under u ∧ (t, ct) ∈ u.types)
      (fun u ↦ Extends v u ∧ Truthful u ∧ ¬ Affordable world v (limit + 1) t) := by
  unfold compileAggregate
  split
  · rename_i hopen
    refine .throw_bind ?_
    rintro u rfl
    refine ⟨.refl u, hv.toTruthful, fun haff ↦ ?_⟩
    have hsupported := haff.supported
    rw [Supported, hkind, hopen] at hsupported
    cases hsupported
  rename_i hopen
  refine (spec_newStruct _ v).bind fun st ↦ .of_exists fun name ↦ .of_and ?_
  rintro ⟨-, -, rfl⟩
  have hbegin := fun j ↦ hv.begin hkind (Bool.eq_false_iff.mpr hopen) hkey name (world.instanceFields t) j
  refine Spec.bind (Q := fun ct u ↦ ct = ⟨t, .struct v.module.structs.size name, world.instanceFields t⟩ ∧
    Extends v u ∧ (t, ct) ∈ u.types ∧ Charted world (t :: under) { u with building := u.building + 1 })
    (.of_run (fun _ ↦ rfl) ?_) fun ct ↦ .of_and ?_
  · rintro u rfl
    exact ⟨rfl, ⟨precedes_withStruct _ _, fun e he ↦ List.mem_cons_of_mem _ he, rfl⟩, List.mem_cons_self, hbegin _⟩
  rintro rfl
  refine Spec.bind (Q := fun _ u ↦ Extends v u ∧ Charted world (t :: under) u ∧
    (t, ⟨t, .struct v.module.structs.size name, world.instanceFields t⟩) ∈ u.types) (.modify ?_) fun _ ↦ ?_
  · exact fun u hu ↦ ⟨⟨hu.1.module, hu.1.types, hu.1.isClosed⟩, hu.2.2, hu.2.1⟩
  refine Spec.bind (fun u hu ↦ h.ownMembers hkind hkey hunder hmask hu.1 hu.2.1 hu.2.2 u rfl) fun body ↦ ?_
  refine Spec.bind (Q := fun _ u ↦ Extends v u ∧ Charted world (t :: under) { u with building := under.length + 1 } ∧
    u.building = under.length ∧ (t, ⟨t, .struct v.module.structs.size name, world.instanceFields t⟩) ∈ u.types ∧
    List.Forall₂ (fun f c ↦ c ≠ .void ∧ ∃ ct, (given f.type, ct) ∈ u.types ∧ ct.code = c) (world.instanceFields t) body)
    (.modify ?_) fun _ ↦ .of_get fun v' ↦ ?_
  · rintro u ⟨hfollows, hu, hmem, hbody⟩
    refine ⟨⟨hfollows.module, hfollows.types, hfollows.isClosed⟩, hu.same rfl rfl rfl ?_, ?_, hmem, hbody⟩
    · exact hu.building.symm
    · exact congrArg (· - 1) hu.building
  refine .of_read ?_
  rintro ⟨hfollows, hv', hbuilding, hmem, hbody⟩
  have hnone : v'.module.fields? (.struct v.module.structs.size name) = none :=
    (hv'.lacking _ hmem hkind).mpr List.mem_cons_self
  obtain ⟨hmapped, hlack⟩ := hv'.setBody hmem hkind hbody v'.building
  simp only [setBody_of_none hnone]
  have hw : Extends v' { v' with module := withBody v'.module v.module.structs.size body } :=
    ⟨precedes_setBody body hnone, fun _ he ↦ he, rfl⟩
  have hsame : ({ v' with module := withBody v'.module v.module.structs.size body } : CompilationUnit).types =
    v'.types := rfl
  have hbuilding' : ({ v' with module := withBody v'.module v.module.structs.size body } : CompilationUnit).building =
    under.length := hbuilding
  change Mapped world { v' with module := withBody v'.module v.module.structs.size body } at hmapped
  generalize { v' with module := withBody v'.module v.module.structs.size body } = w at *
  rw [← hsame] at hmem
  obtain ⟨htruthful, hsettle⟩ := hmapped.settle hlack hmem hkind hv'.nodup
    (fun s hs ↦ hsame ▸ hv'.registered s (List.mem_cons_of_mem _ hs)) hbuilding'
    (fun e he hcycle ↦ hv'.caught e (hsame ▸ he) hcycle) hmask hunder
  refine Spec.bind (Q := fun _ u ↦ u = w) (.set fun _ _ ↦ rfl) fun _ ↦ .of_get fun w' ↦ .of_read ?_
  rintro rfl
  exact Spec.bind (.set fun _ _ ↦ rfl) fun _ ↦ spec_settled (hfollows.trans hw) hmem htruthful hsettle

theorem scalarType?_known {m : Module} {p : Option Prim} {code : Ssa.Ty} (h : p.bind scalarType? = some code) :
    m.Known code ∧ code.isStruct = false := by
  obtain ⟨p, -, hp⟩ := Option.bind_eq_some_iff.mp h
  cases p <;> cases hp <;> exact ⟨trivial, rfl⟩

theorem spec_remember_charted {code : Ssa.Ty} {E : CompilationUnit → Prop} (hv : Charted world under v)
    (hkind : t.kind ≠ .valueType) (hsupported : Supported t)
    (hcode : if t.isVoid then code = .void else v.module.Known code) (hplain : code.isStruct = false)
    (helem : t.isAddress = true → t.elem.isVoid = false → ∃ ct, (t.elem, ct) ∈ v.types) :
    Spec (· = v) (remember ⟨t, code, []⟩)
      (fun ct u ↦ Extends v u ∧ Charted world under u ∧ (t, ct) ∈ u.types) E := by
  refine .of_run (fun _ ↦ rfl) ?_
  rintro u rfl
  exact ⟨⟨.refl _, fun _ he ↦ List.mem_cons_of_mem _ he, rfl⟩, hv.remember hkind hsupported hcode hplain helem _,
    List.mem_cons_self⟩

theorem given_of_isVoid (h : t.isVoid = false) : given t = t := by
  rw [given, if_neg]
  rintro rfl
  cases h

theorem spec_refused {α : Type} {e : CompileError} {Q : α → CompilationUnit → Prop} (hv : Charted world under v)
    (hno : ¬ Supported t) :
    Spec (· = v) (throw e) Q fun u ↦ Extends v u ∧ Truthful u ∧ ¬ Affordable world v limit t := by
  refine .throw ?_
  rintro u rfl
  exact ⟨.refl u, hv.toTruthful, fun haff ↦ hno haff.supported⟩

theorem supported_of_address (hkind : t.kind = .byref ∨ t.kind = .pointer) : Supported t ↔ t.elem.isByRef = false := by
  rcases hkind with hk | hk <;> simp only [Supported, hk]

/-- References and pointers. -/
theorem Charts.address {compile : Ty → Compile CompiledType} (h : Charts world limit compile)
    (hkind : t.kind = .byref ∨ t.kind = .pointer) (hv : Charted world under v)
    (hunder : ∀ s ∈ under, ReflTransGen (Needs world) s t) (hmask : Unmasked world t) :
    Spec (· = v)
      (if t.elem.isByRef then throw (.unsupportedType t .doubleReference)
        else if t.elem.isVoid then remember ⟨t, .bytePointer, []⟩
        else do
          let elem ← compile t.elem
          remember ⟨t, .pointer elem.code, []⟩)
      (fun ct u ↦ Extends v u ∧ Charted world under u ∧ (t, ct) ∈ u.types)
      (fun u ↦ Extends v u ∧ Truthful u ∧ ¬ Affordable world v (limit + 1) t) := by
  have hplain : t.kind ≠ .valueType := by rcases hkind with hk | hk <;> rw [hk] <;> decide
  have hvoid : t.isVoid = false := by rcases hkind with hk | hk <;> simp [Metadata.Ty.isVoid, hk]
  have haddress : t.isAddress = true := by
    rcases hkind with hk | hk <;> simp [Metadata.Ty.isAddress, Metadata.Ty.isByRef, Metadata.Ty.isPointer, hk]
  split
  · rename_i hbyref
    refine spec_refused hv ?_
    rw [supported_of_address hkind, hbyref]
    decide
  rename_i hbyref
  have hsupported := (supported_of_address hkind).mpr (Bool.eq_false_iff.mpr hbyref)
  split
  · rename_i helem
    refine spec_remember_charted hv hplain hsupported (by rw [if_neg (by simp [hvoid])]; trivial) rfl fun _ hno ↦ ?_
    rw [helem] at hno
    cases hno
  · rename_i helem
    have helem := Bool.eq_false_iff.mpr helem
    have hgiven := given_of_isVoid helem
    have hneeds : Needs world t t.elem := .inr ⟨haddress, helem, rfl⟩
    have hspec := h under t.elem v hv (by rw [hgiven]; exact fun s hs ↦ (hunder s hs).tail hneeds)
      (by rw [hgiven]; exact hmask.of_needs hneeds)
    rw [hgiven] at hspec
    refine (hspec.weaken ?_).bind fun ct u hu ↦ ?_
    · exact fun u hu ↦ ⟨hu.1, hu.2.1, fun haff ↦ hu.2.2 (haff.elem haddress helem)⟩
    obtain ⟨hfollows, hcharted, hmem⟩ := hu
    refine (spec_remember_charted hcharted hplain hsupported (by rw [if_neg (by simp [hvoid])]; trivial) rfl
      fun _ _ ↦ ⟨ct, hmem⟩).imp (fun _ hu ↦ hu) (fun ct' u' hu' ↦ ?_) u rfl
    exact ⟨hfollows.trans hu'.1, hu'.2⟩

theorem charts_compileType (limit : Nat) : Charts world limit (compileType world limit) := by
  induction limit with
  | zero =>
    intro under t v hv _ _
    refine .throw ?_
    rintro u rfl
    exact ⟨.refl u, hv.toTruthful, not_affordable_zero⟩
  | succ limit ih =>
    intro under t v hv hunder hmask
    rw [compileType]
    unfold given at hunder hmask ⊢
    generalize (if t = .missing then Ty.void else t) = t at *
    refine .of_get fun v' ↦ .of_read ?_
    rintro rfl
    split
    · rename_i ct hlookup
      refine .pure ?_
      rintro u rfl
      exact ⟨.refl u, hv, mem_of_lookup hlookup⟩
    rename_i hlookup
    split
    · rename_i hkind
      exact spec_remember_charted hv (by rw [hkind]; decide) (by simp only [Supported, hkind])
        (by rw [if_pos (by simp [Metadata.Ty.isVoid, hkind])]) rfl fun ha ↦ by
          simp [Metadata.Ty.isAddress, Metadata.Ty.isByRef, Metadata.Ty.isPointer, hkind] at ha
    · exact ih.address (.inl ‹_›) hv hunder hmask
    · exact ih.address (.inr ‹_›) hv hunder hmask
    · rename_i hkind
      exact spec_refused hv (by simp only [Supported, hkind, not_false_eq_true])
    · rename_i hkind
      exact spec_refused hv (by simp only [Supported, hkind, not_false_eq_true])
    · rename_i hkind
      split
      · rename_i code hcode
        obtain ⟨hknown, hplain⟩ := scalarType?_known (m := v'.module) hcode
        exact spec_remember_charted hv (by rw [hkind]; decide)
          (by simp only [Supported, hkind, hcode, Option.isSome_some])
          (by rwa [if_neg (by simp [Metadata.Ty.isVoid, hkind])]) hplain fun ha ↦ by
            simp [Metadata.Ty.isAddress, Metadata.Ty.isByRef, Metadata.Ty.isPointer, hkind] at ha
      · rename_i hcode
        exact spec_refused hv (by simp [Supported, hkind, hcode])
    · rename_i hkind
      exact ih.aggregate hkind (not_mem_keys_of_lookup hlookup) hv hunder hmask

/-! ### Requests -/

def getTypeWithin (world : Universe) (limit : Nat) (t : Ty) : CompilationUnit → Except CompileError CompiledType ×
    CompilationUnit :=
  request (compileType world limit t)

def CompilationUnit.afterTypes (world : Universe) (u : CompilationUnit) (asked : List (Nat × Ty)) : CompilationUnit :=
  asked.foldl (fun u r ↦ (getTypeWithin world r.1 r.2 u).2) u

/-- Two units with the same structs and functions in their modules, also those that were removed, and the same machine.
-/
structure SameCode (u u' : CompilationUnit) : Prop where
  structs : u'.module.structs = u.module.structs
  functions : u'.module.functions = u.module.functions
  engine : u'.engine = u.engine
  isClosed : u'.closed = u.closed

theorem rollBack_sameCode (v : CompilationUnit) : SameCode v v.rollBack := by
  refine rollBack_induction (P := SameCode v) ⟨rfl, rfl, rfl, rfl⟩ (fun w k hw ↦ ?_) (fun w t hw ↦ ?_) fun _ hw ↦
    ⟨hw.1, hw.2, hw.3, hw.4⟩
  · unfold CompilationUnit.forgetMethod
    split
    · exact hw
    · split <;> exact ⟨hw.1, hw.2, hw.3, hw.4⟩
  · unfold CompilationUnit.forgetType
    split
    · exact hw
    · split <;> exact ⟨hw.1, hw.2, hw.3, hw.4⟩

theorem Truthful.sameCode (h : Truthful u) (hs : SameCode u u') : Truthful u' := by
  have hfields : ∀ c, u'.module.fields? c = u.module.fields? c := by
    intro c
    cases c with
    | struct id name => exact congrArg (fun ds : Array Ssa.StructDef ↦ (ds[id]?).bind (·.body)) hs.structs
    | _ => rfl
  have hpre : u.module.Precedes u'.module := by
    refine ⟨fun i g hg ↦ ⟨g, ?_, rfl, rfl, rfl⟩, fun i d hd ↦ ⟨d, ?_, rfl, fun _ hb ↦ hb⟩⟩
    · rwa [hs.functions]
    · rwa [hs.structs]
  refine ⟨hs.engine ▸ h.sound.mono hpre, fun c d ⟨fields, hc, hd⟩ ↦ ?_⟩
  exact (h.closed c d ⟨fields, (hfields c).symm.trans hc, hd⟩).mono hpre

theorem Charted.rolledBack {b : CompilationUnit} (h : Charted world [] b) (hback : RolledBack b u)
    (htruthful : Truthful u) : Charted world [] u := by
  have hpre : b.module.Precedes u.module :=
    ⟨fun i g hg ↦ ⟨g, hback.functions i g hg, rfl, rfl, rfl⟩, fun i d hd ↦ ⟨d, hback.structs i d hd,
    rfl, fun _ hb ↦ hb⟩⟩
  have hfields : ∀ e ∈ b.types, u.module.fields? e.2.code = b.module.fields? e.2.code := by
    intro e he
    have hknown := h.known e he
    split at hknown
    · rw [hknown]
      rfl
    · cases hcode : e.2.code with
      | struct id name =>
        rw [hcode] at hknown
        have hlt := Module.Known.lt hknown
        simp only [Module.fields?]
        rw [hback.structs id _ (Array.getElem?_eq_getElem hlt), Array.getElem?_eq_getElem hlt]
      | _ => rfl
  refine ⟨⟨htruthful, ?_, ?_, ?_, ?_, ?_, ?_⟩, h.nodup, List.forall_mem_nil _, hback.building, ?_, ?_⟩ <;>
    (try rw [LackBodies]) <;> rw [hback.types]
  · intro e he
    have hknown := h.known e he
    split at hknown
    · rwa [if_pos ‹_›]
    · rw [if_neg ‹_›]
      exact hknown.mono hpre
  · exact h.aggregates
  · exact h.distinct
  · exact h.supported
  · intro e he body hbody
    exact h.members e he body ((hfields e he).symm.trans hbody)
  · exact h.elems
  · intro e he hk
    rw [hfields e he]
    exact h.lacking e he hk
  · exact h.caught

/-- A unit that was asked for types only. -/
structure TypesOnly (world : Universe) (u : CompilationUnit) : Prop where
  orderly : Orderly world u
  charted : Charted world [] u
  isOpen : u.closed = false

theorem TypesOnly.cases (h : TypesOnly world u) (limit : Nat) (ht : Unmasked world (given t)) :
    (∃ ct u', getTypeWithin world limit t u = (.ok ct, u') ∧ (given t, ct) ∈ u'.types ∧ TypesOnly world u') ∨
      ∃ e u', getTypeWithin world limit t u = (.error e, u') ∧ ¬ Affordable world u limit (given t) ∧
      TypesOnly world u' := by
  obtain ⟨horderly, hback⟩ := h.orderly.request (spec_type limit t)
  obtain ⟨hok, herror⟩ := charts_compileType limit [] t u h.charted (List.forall_mem_nil _) ht u rfl
  rcases request_open (compileType world limit t) h.orderly.journal h.isOpen with ⟨ct, v, hrun, hr⟩ | ⟨e, v, hrun, hr⟩
  · obtain ⟨hfollows, hcharted, hmem⟩ := hok ct v hrun
    rw [hr] at horderly
    exact .inl ⟨ct, _, hr, hmem, horderly, hcharted.same rfl rfl rfl rfl, hfollows.isClosed.trans h.isOpen⟩
  · obtain ⟨hfollows, htruthful, haff⟩ := herror e v hrun
    rw [hr] at horderly
    have hback := hback e (by rw [hr])
    rw [hr] at hback
    exact .inr ⟨e, _, hr, haff, horderly, h.charted.rolledBack hback (htruthful.sameCode (rollBack_sameCode v)),
      ((rollBack_sameCode v).isClosed.trans hfollows.isClosed).trans h.isOpen⟩

theorem TypesOnly.afterTypes {asked : List (Nat × Ty)} (h : TypesOnly world u)
    (hasked : ∀ r ∈ asked, Unmasked world (given r.2)) : TypesOnly world (u.afterTypes world asked) := by
  induction asked generalizing u with
  | nil => exact h
  | cons r asked ih =>
    have hnext : TypesOnly world (getTypeWithin world r.1 r.2 u).2 := by
      rcases h.cases r.1 (hasked r List.mem_cons_self) with ⟨ct, u', hr, -, hu'⟩ | ⟨e, u', hr, -, hu'⟩ <;> rwa [hr]
    exact ih hnext fun r' hr' ↦ hasked r' (List.mem_cons_of_mem _ hr')

theorem TypesOnly.create (name : String) (resolver : Resolver) (optimize : Bool) (limits : Machine.Limits) :
    TypesOnly world (.create name resolver optimize limits) := by
  have hsound : Truthful (.create name resolver optimize limits) := by
    refine ⟨List.forall_mem_nil _, fun t s ⟨fields, hfields, _⟩ ↦ ?_⟩
    cases t <;> simp [Module.fields?, CompilationUnit.create] at hfields
  refine ⟨.create name resolver optimize limits {} Trace.Tracing.nop 0, ⟨⟨hsound, ?_, ?_, ?_, ?_, ?_, ?_⟩, .nil,
    ?_, rfl, ?_, ?_⟩, rfl⟩ <;> exact List.forall_mem_nil _

theorem TypesOnly.compilable (h : TypesOnly world u) : Compilable world (u.types.map (·.1)) := by
  have hbody : ∀ e ∈ u.types, e.1.kind = .valueType → ∃ body, u.module.fields? e.2.code = some body := by
    intro e he hk
    refine Option.ne_none_iff_exists'.mp fun hnone ↦ ?_
    exact absurd ((h.charted.lacking e he hk).mp hnone) List.not_mem_nil
  refine ⟨?_, ?_, ?_, ?_⟩ <;> simp only [List.forall_mem_map]
  · rintro e he s (⟨hk, f, hf, rfl⟩ | ⟨haddress, hvoid, rfl⟩)
    · obtain ⟨body, hbody⟩ := hbody e he hk
      obtain ⟨c, -, ct, hct, -⟩ := exists_right_of_forall₂ (h.charted.members e he body hbody) hf
      exact List.mem_map_of_mem hct
    · obtain ⟨ct, hct⟩ := h.charted.elems e he haddress hvoid
      exact List.mem_map_of_mem hct
  · exact h.charted.supported
  · rintro e he s ⟨hk, f, hf, rfl⟩
    obtain ⟨body, hbody⟩ := hbody e he hk
    obtain ⟨c, hc, ct, hct, rfl⟩ := exists_right_of_forall₂ (h.charted.members e he body hbody) hf
    have hknown := h.charted.known _ hct
    refine Bool.eq_false_iff.mpr fun hvoid ↦ ?_
    rw [if_pos hvoid] at hknown
    have hstored := h.charted.closed _ _ ⟨body, hbody, hc⟩
    rw [hknown] at hstored
    exact hstored
  · intro e he hcycle
    obtain ⟨s, hs, -⟩ := h.charted.caught e he hcycle
    exact List.not_mem_nil hs

theorem exists_indirections_le (ts : List Ty) : ∃ most, ∀ s ∈ ts, indirections s ≤ most := by
  induction ts with
  | nil => exact ⟨0, List.forall_mem_nil _⟩
  | cons t ts ih =>
    obtain ⟨most, hmost⟩ := ih
    refine ⟨max (indirections t) most, List.forall_mem_cons.mpr ⟨Nat.le_max_left _ _, fun s hs ↦ ?_⟩⟩
    exact (hmost s hs).trans (Nat.le_max_right _ _)

theorem TypesOnly.compiles_iff (h : TypesOnly world u) (ht : Unmasked world (given t)) :
    (∃ limit ct, (getTypeWithin world limit t u).1 = .ok ct) ↔ ∃ ts, Compilable world ts ∧ given t ∈ ts := by
  constructor
  · rintro ⟨limit, ct, hct⟩
    rcases h.cases limit ht with ⟨ct', u', -, hmem, hu'⟩ | ⟨e, u', hr, -⟩
    · exact ⟨_, hu'.compilable, List.mem_map_of_mem hmem⟩
    · rw [hr] at hct
      cases hct
  · rintro ⟨ts, hts, hmem⟩
    obtain ⟨most, hmost⟩ := exists_indirections_le ts
    refine ⟨pending u ts * (most + 1) + indirections (given t) + 1, ?_⟩
    rcases h.cases (pending u ts * (most + 1) + indirections (given t) + 1) ht with ⟨ct, u', hr, -⟩ | ⟨e, u', -, hno, -⟩
    · exact ⟨ct, by rw [hr]⟩
    · exact absurd ⟨ts, hts, hmem, most, hmost, Nat.lt_succ_self _⟩ hno

/-- As long as no aggregate that holds itself hides behind one that is still being built, a type can be compiled after
other requests for types just if a new unit can compile it, and all aggregates of the unit have their layouts. -/
theorem getType_anyOrder (name : String) (resolver : Resolver) (optimize : Bool) (limits : Machine.Limits)
    (asked : List (Nat × Ty)) (t : Ty) (h : ∀ s ∈ t :: asked.map (·.2), Unmasked world (given s)) :
    let fresh : CompilationUnit := .create name resolver optimize limits
    ((∃ limit ct, (getTypeWithin world limit t (fresh.afterTypes world asked)).1 = .ok ct) ↔
        ∃ limit ct, (getTypeWithin world limit t fresh).1 = .ok ct) ∧
      ∀ e ∈ (fresh.afterTypes world asked).types, e.1.kind = .valueType →
        ∃ l, ((fresh.afterTypes world asked).engine.layouts.of (fresh.afterTypes world asked).module e.2.code).1 =
        .ok l := by
  intro fresh
  have hfresh : TypesOnly world fresh := .create name resolver optimize limits
  have hlater : TypesOnly world (fresh.afterTypes world asked) := hfresh.afterTypes fun r hr ↦
    h r.2 (List.mem_cons_of_mem _ (List.mem_map_of_mem hr))
  have ht := h t List.mem_cons_self
  refine ⟨?_, fun e he hk ↦ hlater.charted.sized he hk⟩
  rw [hlater.compiles_iff ht, hfresh.compiles_iff ht]

end

/-- An aggregate without type parameters, in row `row` of the first module. -/
def aggregate (row : Nat) (name : String) : Ty := .defined ⟨⟨0, ""⟩, row, "", name, .valueType, 0⟩

def memberField (owner : Ty) (name : String) (type : Ty) : Field :=
    { name, type, owner, isStatic := false, token := ⟨0⟩ }

def worldOfFields (s t : Ty) (ofS ofT : Array Field) : Universe :=
  { modules := #[{ ref := ⟨0, ""⟩ }]
    members := (({} : Std.HashMap Ty MemberList).insert s { fields := ofS }).insert t { fields := ofT } }

theorem recorded_worldOfFields (s t : Ty) (ofS ofT : Array Field) (r : Ty) : (worldOfFields s t ofS ofT).recorded r =
    if t = r then { fields := ofT } else if s = r then { fields := ofS } else {} := by
  rw [Universe.recorded, worldOfFields, Std.HashMap.getD_insert, Std.HashMap.getD_insert, Std.HashMap.getD_empty]
  simp only [beq_iff_eq]

def listNode : Ty := aggregate 0 "Node"

def listWorld : Universe :=
  worldOfFields listNode listNode #[] #[memberField listNode "next" (.pointer listNode),
  memberField listNode "x" (.prim .int32)]

theorem holds_listNode {t s : Ty} (ht : t ∈ [listNode, .pointer listNode, .prim .int32]) (h : Holds listWorld t s) :
    t = listNode ∧ s ∈ [Ty.pointer listNode, .prim .int32] := by
  obtain ⟨hk, f, hf, rfl⟩ := h
  obtain rfl : t = listNode := by
    rcases List.mem_cons.mp ht with rfl | ht
    · rfl
    · rcases List.mem_cons.mp ht with rfl | ht
      · cases hk
      · rw [List.mem_singleton.mp ht] at hk
        cases hk
  have hfields : listWorld.instanceFields listNode =
      [memberField listNode "next" (.pointer listNode), memberField listNode "x" (.prim .int32)] := by
    have hrecorded := recorded_worldOfFields listNode listNode #[]
      #[memberField listNode "next" (.pointer listNode), memberField listNode "x" (.prim .int32)] listNode
    rw [if_pos rfl] at hrecorded
    change ((listWorld.recorded listNode).fields.toList.filter fun f ↦ !f.isStatic) = _
    rw [listWorld, hrecorded]
    rfl
  rw [hfields] at hf
  simp only [List.mem_cons, List.not_mem_nil, or_false] at hf
  refine ⟨rfl, ?_⟩
  rcases hf with rfl | rfl
  · exact List.mem_cons_self
  · exact List.mem_cons_of_mem _ List.mem_cons_self

theorem needs_listNode {t s : Ty} (ht : t ∈ [listNode, .pointer listNode, .prim .int32]) (h : Needs listWorld t s) :
    s ∈ [listNode, .pointer listNode, .prim .int32] := by
  rcases h with h | ⟨haddress, -, rfl⟩
  · exact List.mem_cons_of_mem _ (holds_listNode ht h).2
  · simp only [List.mem_cons, List.not_mem_nil, or_false] at ht
    rcases ht with rfl | rfl | rfl
    · cases haddress
    · exact List.mem_cons_self
    · cases haddress

theorem unmasked_listNode {t : Ty} (ht : t ∈ [listNode, .pointer listNode, .prim .int32]) : Unmasked listWorld t := by
  intro r hr hcycle
  have hmem : r ∈ [listNode, .pointer listNode, .prim .int32] := by
    clear hcycle
    induction hr with
    | refl => exact ht
    | tail _ hstep ih => exact needs_listNode ih hstep
  obtain ⟨s, hs, hback⟩ := TransGen.head'_iff.mp hcycle
  obtain ⟨rfl, hheld⟩ := holds_listNode hmem hs
  have hne : s ≠ listNode := by
    rintro rfl
    simp [listNode, aggregate] at hheld
  rcases ReflTransGen.cases_head_iff.mp hback with rfl | ⟨q, hq, -⟩
  · exact absurd rfl hne
  · exact absurd (holds_listNode (List.mem_cons_of_mem _ hheld) hq).1 hne

/-- A list can be compiled after the pointer to it. -/
theorem getType_anyOrder_list :
    (∀ s ∈ listNode :: [(20, Ty.pointer listNode)].map (·.2), Unmasked listWorld (given s)) ∧
      ((∃ limit ct,
      (getTypeWithin listWorld limit listNode (freshUnit.afterTypes listWorld [(20, .pointer listNode)])).1 = .ok ct) ↔
        ∃ limit ct, (getTypeWithin listWorld limit listNode freshUnit).1 = .ok ct) := by
  have hmask : ∀ s ∈ listNode :: [(20, Ty.pointer listNode)].map (·.2), Unmasked listWorld (given s) := by
    intro s hs
    rcases List.mem_cons.mp hs with rfl | hs
    · exact unmasked_listNode List.mem_cons_self
    · rw [List.mem_singleton.mp hs]
      exact unmasked_listNode (List.mem_cons_of_mem _ List.mem_cons_self)
  exact ⟨hmask, (getType_anyOrder "" {} false (.ofRequest 0 0 0) [(20, .pointer listNode)] listNode hmask).1⟩

/-- An aggregate with a pointer to another one, which holds the first one and itself. -/
def hiddenWorld : Universe :=
  worldOfFields (aggregate 0 "Front") (aggregate 1 "Loop")
    #[memberField (aggregate 0 "Front") "p" (.pointer (aggregate 1 "Loop"))]
    #[memberField (aggregate 1 "Loop") "front" (aggregate 0 "Front"),
      memberField (aggregate 1 "Loop") "self" (aggregate 1 "Loop")]

def CompilationUnit.answersWithoutLayout (answer : Except CompileError CompiledType × CompilationUnit) : Bool :=
  match answer with
  | (.ok ct, u) => !(u.engine.layouts.of u.module ct.code).1.toOption.isSome
  | (.error _, _) => false

/-- An aggregate that holds itself is refused by a new unit, and compiled without a layout when it was needed for one
that it holds. -/
theorem hidden_aggregate_compiles :
    let later := freshUnit.afterTypes hiddenWorld [(8, aggregate 0 "Front")]
    (getTypeWithin hiddenWorld 8 (aggregate 1 "Loop") freshUnit).1.toOption.isSome = false ∧
      CompilationUnit.answersWithoutLayout (getTypeWithin hiddenWorld 8 (aggregate 1 "Loop") later) = true := by
  dsimp only [CompilationUnit.afterTypes, List.foldl_cons, List.foldl_nil]
  delta getTypeWithin compileType compileType._f compileAggregate
  simp only [Universe.instanceFields, Universe.fields, Universe.membersOf, hiddenWorld, recorded_worldOfFields]
  decide +kernel

end CilSsa.Lowering

