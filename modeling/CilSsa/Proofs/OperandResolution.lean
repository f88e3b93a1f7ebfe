import CilSsa.Proofs.OperandTokens
import CilSsa.Proofs.Resolution

namespace CilSsa.Image

open CilSsa.Metadata CilSsa.Text CilSsa.Number CilSsa.Bytecode

/-- No table of a module has more rows than tokens can number. -/
structure RowsFit (u : Universe) (home : ModuleRef) : Prop where
  types : (u.tables home).types.size < 0x1000000
  specs : (u.tables home).specs.size < 0x1000000
  fields : (u.tables home).fields.size < 0x1000000
  methods : (u.tables home).methods.size < 0x1000000
  memberRefs : (u.tables home).memberRefs.size < 0x1000000

theorem row_lt {α : Type} {rows : Array α} (hfit : rows.size < 0x1000000) {k : Nat} {a : α} (h : rows[k]? = some a) :
    k + 1 < 0x1000000 :=
  Nat.lt_of_le_of_lt (Array.getElem?_eq_some_iff.mp h).1 hfit

theorem resolve_alone {u : Universe} {home : ModuleRef} {c : Method} {owner : Ty} (hscope : c.scope = home)
    (howner : c.owner = some owner) (hgeneric : owner.isGeneric = true) (use : TokenUse) (tok : Token) :
    ((Resolver.ofModules [home]).resolve u use (some c) tok).1.toOption =
      (named (u.entry use tok home none)).or (named (u.entry use tok home (some owner.genericArgs))) := by
  subst hscope
  have hothers : (Resolver.ofModules [c.scope]).others c.scope = [] := by
    simp [Resolver.ofModules, Resolver.learn, Resolver.others]
  rw [Resolver.Reachable.answer (.start _), Resolver.plainAnswer_eq, Resolver.retryAnswer_eq howner hgeneric, hothers]
  simp [Resolver.firstOf]

/-- The methods of an instance of an own type are copies of those of its definition. -/
theorem mem_methods_instance {home : ModuleRef} {defs : List TypeDef} {u : Universe}
    (h : Declares home defs u) {d : TypeDef} (hd : d.home = home) {args : List Ty} {c : Method}
    (hc : c ∈ u.methods (.inst (.defined d) args)) : c.scope = home ∧ c.owner = some (.inst (.defined d) args) := by
  have hscope : (Ty.inst (.defined d) args).scope = some home := by
    rw [Ty.scope, Ty.scope, hd]
  have hnone := h.others _ hscope (by rintro e ⟨⟩)
  rw [Universe.methods, List.mem_filterMap] at hc
  obtain ⟨id, hid, hm⟩ := hc
  obtain ⟨slot, -, rfl⟩ : ∃ slot < (u.recorded (.defined d)).methods.size,
    .special (.inst (.defined d) args) slot = id := by
    simpa [Universe.membersOf_fresh hnone] using hid
  rw [Universe.method?, h.specials _ slot hscope] at hm
  dsimp only at hm
  cases hslot : (u.recorded (.defined d)).methods[slot]? with
  | none =>
    rw [hslot] at hm
    cases hm
  | some id =>
    obtain ⟨k, rfl, -⟩ := h.methods d hd id (Array.mem_of_getElem? hslot)
    rw [hslot] at hm
    dsimp only at hm
    rw [Option.map_eq_some_iff] at hm
    obtain ⟨m, hrow, rfl⟩ := hm
    exact ⟨(h.rows k m hrow).2.2, rfl⟩

/-- A token answers a method with the target: with the type, or with the member of that name. -/
def Answers (u : Universe) (home : ModuleRef) (c : Method) (tok : Token) : Target → Prop
  | .type t => ((Resolver.ofModules [home]).resolve u .type (some c) tok).1.toOption = some t
  | .field parent name => ∀ f, u.fieldByName parent name = some f →
      ((Resolver.ofModules [home]).resolve u .field (some c) tok).1.toOption = some f
  | .method parent name arity => ∀ m, u.methodByName parent name arity = some m →
      ((Resolver.ofModules [home]).resolve u .method (some c) tok).1.toOption = some m.id

def Target.subst (args : List Ty) : Target → Target
  | .type t => .type (t.subst args)
  | .field parent name => .field (parent.subst args) name
  | .method parent name arity => .method (parent.subst args) name arity

def Target.named : Target → Ty
  | .type t | .field t _ | .method t _ _ => t

def OpenDefinition (home : ModuleRef) (t : Ty) : Prop := ∃ d, t = .defined d ∧ d.home = home ∧ d.arity ≠ 0

theorem OpenDefinition.own {home : ModuleRef} {t : Ty} (h : OpenDefinition home t) : Own home t := by
  obtain ⟨d, rfl, hd, -⟩ := h
  exact ⟨congrArg some hd, rfl⟩

section resolution

variable {home : ModuleRef} {defs : List TypeDef} {u w w' : Universe} {sc : Scope} {c : Method} {args : List Ty}

theorem fieldByName_filled (hf : Filled home w u) {d : TypeDef} (name : String) :
    u.fieldByName (.defined d) name = w.fieldByName (.defined d) name := by
  simp only [Universe.fieldByName, Universe.fields, Universe.membersOf, Universe.recorded, hf.members]

theorem methodByName_filled (h : Declares home defs w) (hf : Filled home w u) {d : TypeDef} (hd : d.home = home)
    (name : String) (arity : Int) :
    (u.methodByName (.defined d) name arity).map bare = (w.methodByName (.defined d) name arity).map bare := by
  have hids : (u.methods (.defined d)).map bare = (w.methods (.defined d)).map bare := by
    simp only [Universe.methods, Universe.membersOf, List.map_filterMap]
    have hrecorded : u.recorded (.defined d) = w.recorded (.defined d) := by
      rw [Universe.recorded, hf.members]
      rfl
    rw [hrecorded]
    refine List.filterMap_congr fun id hid ↦ ?_
    obtain ⟨k, rfl, -⟩ := h.methods d hd id (by simpa using hid)
    simp only [Universe.method?, Universe.definedMethod?]
    rw [← Array.getElem?_map, ← Array.getElem?_map, hf.methods]
  have hfind : ∀ v : Universe, (v.methodByName (.defined d) name arity).map bare =
      ((v.methods (.defined d)).map bare).find? fun m ↦ m.name == name &&
      (arity < 0 || (m.params.length : Int) == arity) := by
    intro v
    rw [List.find?_map]
    rfl
  rw [hfind, hfind, hids]

theorem Declares.own (h : Declares home defs w) {t : Ty} (ht : Written sc t) (ho : Own home t) :
    (∃ d, t = .defined d ∧ d.home = home) ∨ w.membersOf t = {} := by
  obtain ⟨hscope, hinst⟩ := ho
  cases ht with
  | defined _ => exact .inl ⟨_, rfl, Option.some.inj hscope⟩
  | inst _ _ => cases hinst
  | void => cases hscope
  | prim _ => cases hscope
  | param _ => cases hscope
  | byref _ => exact .inr (h.others _ hscope (by rintro d ⟨⟩))
  | pointer _ => exact .inr (h.others _ hscope (by rintro d ⟨⟩))

theorem subst_definition {d : TypeDef} (ht : Written sc (.defined d)) (hd : d.home = home)
    (hclosed : ¬ OpenDefinition home (.defined d)) (args : List Ty) : (Ty.defined d).subst args = .defined d := by
  refine ht.subst_closed ?_ args
  rw [Ty.isOpen, bne_eq_false_iff_eq]
  by_contra harity
  exact hclosed ⟨d, rfl, hd, harity⟩

/-- The answers of a resolver are the entries of the module, first as written and then with type arguments. -/
def Asks (u : Universe) (home : ModuleRef) (c : Method) (args : List Ty) : Prop :=
  ∀ use tok, ((Resolver.ofModules [home]).resolve u use (some c) tok).1.toOption =
    (named (u.entry use tok home none)).or (named (u.entry use tok home (some args)))

namespace Asks

variable {tok : Token}

theorem type (h : Asks u home c args) {t : Ty} (hm : t ≠ .missing) (ht : u.resolveType home tok none = .ok t) :
    Answers u home c tok (.type t) := by
  rw [Answers, h]
  simp [Universe.entry, ht, Except.map, hm]

theorem type_open (h : Asks u home c args) {t : Ty} (hm : t ≠ .missing) {e : LookupError}
    (hplain : u.resolveType home tok none = .error e) (ht : u.resolveType home tok (some args) = .ok t) :
    Answers u home c tok (.type t) := by
  rw [Answers, h]
  simp [Universe.entry, hplain, ht, Except.map, hm]

theorem field (h : Asks u home c args) {f : Field} (hf : u.resolveField home tok none = .ok f) :
    ((Resolver.ofModules [home]).resolve u .field (some c) tok).1.toOption = some f := by
  rw [h]
  simp [Universe.entry, hf, Except.map]

theorem field_open (h : Asks u home c args) {f : Field} {e : LookupError}
    (hplain : u.resolveField home tok none = .error e) (hf : u.resolveField home tok (some args) = .ok f) :
    ((Resolver.ofModules [home]).resolve u .field (some c) tok).1.toOption = some f := by
  rw [h]
  simp [Universe.entry, hplain, hf, Except.map]

theorem method (h : Asks u home c args) {m : Method} (hm : u.resolveMethod home tok none = .ok m) :
    ((Resolver.ofModules [home]).resolve u .method (some c) tok).1.toOption = some m.id := by
  rw [h]
  simp [Universe.entry, hm, Except.map]

theorem method_open (h : Asks u home c args) {m : Method} {e : LookupError}
    (hplain : u.resolveMethod home tok none = .error e) (hm : u.resolveMethod home tok (some args) = .ok m) :
    ((Resolver.ofModules [home]).resolve u .method (some c) tok).1.toOption = some m.id := by
  rw [h]
  simp [Universe.entry, hplain, hm, Except.map]

end Asks

theorem answers_definition (h : Declares home defs u) (hfit : RowsFit u home) (hask : Asks u home c args) {d : TypeDef}
    (hd : d ∈ defs) : Answers u home c d.token (.type (.defined d)) :=
  hask.type (by rintro ⟨⟩) (Universe.resolveType_typeDef (row_lt hfit.types (h.types d hd).2) (h.types d hd).2)

theorem answers_typeSpec (hfit : RowsFit u home) (hask : Asks u home c args) {t : Ty} (ht : Written sc t)
    (hmissing : ∀ a ∈ args, a ≠ .missing) {k : Nat} (hrow : (u.tables home).specs[k]? = some t) :
    Answers u home c (.make .typeSpec (k + 1)) (.type (t.subst args)) := by
  have hentry := fun as ↦ Universe.resolveType_typeSpec as (row_lt hfit.specs hrow) hrow
  cases ho : t.isOpen with
  | false =>
    rw [ht.subst_closed ho]
    exact hask.type ht.ne_missing (by simp [hentry, ho])
  | true => exact hask.type_open (ht.subst_ne_missing hmissing) (by simp [hentry, ho]; rfl) (by simp [hentry])

theorem answers_fieldRef (hfit : RowsFit u home) (hask : Asks u home c args) {parent : Ty} (ht : Written sc parent)
    {name : String} {k : Nat} (hrow : (u.tables home).memberRefs[k]? = some ⟨parent, name, true, 0⟩) :
    Answers u home c (.make .memberRef (k + 1)) (.field (parent.subst args) name) := by
  intro f hf
  have hentry := fun as ↦ Universe.resolveField_memberRef as rfl (row_lt hfit.memberRefs hrow) hrow
  cases ho : parent.isOpen with
  | false =>
    rw [ht.subst_closed ho] at hf
    refine hask.field ?_
    rw [hentry, Universe.memberParent_closed none ho, ok_bind rfl, hf]
    rfl
  | true =>
    refine hask.field_open (e := .openMember (.make .memberRef (k + 1)) home.name) ?_ ?_
    · rw [hentry, Universe.memberParent, if_pos ho]
      rfl
    · rw [hentry, Universe.memberParent, if_pos ho, ok_bind rfl, hf]
      rfl

theorem answers_methodRef (hfit : RowsFit u home) (hask : Asks u home c args) {parent : Ty} (ht : Written sc parent)
    {name : String} {arity : Int} {k : Nat} (hrow : (u.tables home).memberRefs[k]? =
    some ⟨parent, name, false, arity⟩) : Answers u home c (.make .memberRef (k + 1))
    (.method (parent.subst args) name arity) := by
  intro m hm
  have hentry := fun as ↦ Universe.resolveMethod_memberRef as rfl (row_lt hfit.memberRefs hrow) hrow
  cases ho : parent.isOpen with
  | false =>
    rw [ht.subst_closed ho] at hm
    refine hask.method ?_
    rw [hentry, Universe.memberParent_closed none ho, ok_bind rfl, hm]
    rfl
  | true =>
    refine hask.method_open (e := .openMember (.make .memberRef (k + 1)) home.name) ?_ ?_
    · rw [hentry, Universe.memberParent, if_pos ho]
      rfl
    · rw [hentry, Universe.memberParent, if_pos ho, ok_bind rfl, hm]
      rfl

theorem answers_field (h : Declares home defs w) (hfill : Filled home w u) (hfit : RowsFit u home)
    (hask : Asks u home c args) {d : TypeDef} (hd : d.home = home) {name : String} {f : Field}
    (hf : w.fieldByName (.defined d) name = some f) : Answers u home c f.token (.field (.defined d) name) := by
  intro f' hf'
  rw [fieldByName_filled hfill, hf] at hf'
  cases hf'
  have hmem : f ∈ (w.recorded (.defined d)).fields := by
    have := List.mem_of_find?_eq_some hf
    simpa [Universe.fields, Universe.membersOf] using this
  obtain ⟨k, hk, htoken⟩ := h.fields d hd f hmem
  rw [htoken]
  have hrow : (u.tables home).fields[k]? = some f := hfill.fields ▸ hk
  exact hask.field (Universe.resolveField_field none (row_lt hfit.fields hrow) hrow)

theorem answers_method (h : Declares home defs w) (hfill : Filled home w u) (hfit : RowsFit u home)
    (hask : Asks u home c args) {d : TypeDef} (hd : d.home = home) {name : String} {arity : Int} {m : Method}
    (hm : w.methodByName (.defined d) name arity = some m) :
    Answers u home c m.token (.method (.defined d) name arity) := by
  intro m' hm'
  have hbare := methodByName_filled h hfill hd name arity
  rw [hm, hm', Option.map_some, Option.map_some, Option.some.injEq] at hbare
  have hmem : m ∈ w.methods (.defined d) := List.mem_of_find?_eq_some hm
  rw [Universe.methods, List.mem_filterMap] at hmem
  obtain ⟨id, hid, hrow⟩ := hmem
  obtain ⟨k, rfl, -⟩ := h.methods d hd id (by simpa [Universe.membersOf] using hid)
  obtain ⟨hmid, htoken, -⟩ := h.rows k m hrow
  have hu : ((u.tables home).methods.map bare)[k]? = some (bare m) := by
    rw [hfill.methods, Array.getElem?_map, show (w.tables home).methods[k]? = some m from hrow]
    rfl
  rw [Array.getElem?_map, Option.map_eq_some_iff] at hu
  obtain ⟨m'', hrow', hm''⟩ := hu
  have hid : (bare m'').id = (bare m').id := by rw [hm'', hbare]
  rw [htoken, show m'.id = m''.id from hid.symm]
  exact hask.method (Universe.resolveMethod_method none (row_lt hfit.methods hrow') hrow')

/-- A token of a target answers as the target does: as an open definition, or with the type arguments put in. -/
theorem Mints.answers (h : Declares home defs w) (hw : Filled home w w') (hu : Filled home w' u) (hfit : RowsFit u home)
    {target : Target} {tok : Token} (hmints : Mints home w target tok w') (ht : Written sc target.named)
    (hnames : ∀ d, sc.Names d → d.home = home → d ∈ defs) (hask : Asks u home c args)
    (hmissing : ∀ a ∈ args, a ≠ .missing) :
    (¬ OpenDefinition home target.named → Answers u home c tok (target.subst args)) ∧
      (OpenDefinition home target.named → Answers u home c tok target) := by
  have hfill := hw.trans hu
  cases hmints with
  | typeDef hd =>
    have hanswer := answers_definition (h.filled hfill) hfit hask (hnames _ (by cases ht; assumption) hd)
    refine ⟨fun hclosed ↦ ?_, fun _ ↦ hanswer⟩
    rw [Target.subst, subst_definition ht hd hclosed]
    exact hanswer
  | typeSpec hne =>
    refine ⟨fun _ ↦ ?_, fun hopen ↦ ?_⟩
    · refine answers_typeSpec hfit hask ht hmissing (getElem?_mono hu.specs ?_)
      rw [Universe.addTypeSpec, Universe.tables_modifyTables h.inside]
      exact Array.getElem?_push_size
    · obtain ⟨d, heq, hd, -⟩ := hopen
      exact absurd hd (hne d heq)
  | @field parent name f ho hf =>
    rcases h.own ht ho with ⟨d, rfl, hd⟩ | hnone
    · have hanswer := answers_field h hfill hfit hask hd hf
      refine ⟨fun hclosed ↦ ?_, fun _ ↦ hanswer⟩
      rw [Target.subst, subst_definition ht hd hclosed]
      exact hanswer
    · simp [Universe.fieldByName, Universe.fields, show w.membersOf parent = {} from hnone] at hf
  | fieldRef ho =>
    refine ⟨fun _ ↦ ?_, fun hopen ↦ absurd hopen.own ho⟩
    refine answers_fieldRef hfit hask ht (getElem?_mono hu.memberRefs ?_)
    rw [Universe.addMemberRef, Universe.tables_modifyTables h.inside]
    exact Array.getElem?_push_size
  | @method parent name arity m ho hm =>
    rcases h.own ht ho with ⟨d, rfl, hd⟩ | hnone
    · have hanswer := answers_method h hfill hfit hask hd hm
      refine ⟨fun hclosed ↦ ?_, fun _ ↦ hanswer⟩
      rw [Target.subst, subst_definition ht hd hclosed]
      exact hanswer
    · simp [Universe.methodByName, Universe.methods, show w.membersOf parent = {} from hnone] at hm
  | methodRef ho =>
    refine ⟨fun _ ↦ ?_, fun hopen ↦ absurd hopen.own ho⟩
    refine answers_methodRef hfit hask ht (getElem?_mono hu.memberRefs ?_)
    rw [Universe.addMemberRef, Universe.tables_modifyTables h.inside]
    exact Array.getElem?_push_size

theorem Scope.Reads.written {op : Opcode} {operand : String} {target : Target} (h : sc.Reads op operand target) :
    Written sc target.named := by
  cases target with
  | type t => exact written_parseType h.2
  | field parent name =>
    obtain ⟨typeName, -, hparse, -⟩ := h
    exact written_parseType hparse
  | method parent name arity =>
    obtain ⟨typeName, member, -, hparse, -⟩ := h
    exact written_parseType hparse

end resolution

/-- What an operand means to the methods of an instance. When an image builds, the token of each operand in the text of
a method names a target that is read from the operand, and a resolver that knows only this module answers a method of an
instance with the target for the type arguments of that instance. Where the operand names an open definition of the
image by its name alone, the answer is the open definition or its member. -/
theorem operand_answers {img : Image} {refs : List (String × ModuleRef)} {u x : Universe} {home : ModuleRef}
    (hu : Settled u) (hbuild : img.build refs u = .ok (home, x)) (hfit : RowsFit x home) {sc : Scope}
    {m : Method} {op : Opcode} {operand : String} {tok : Token} (hop : Assigns img refs u sc m op operand tok)
    {d : TypeDef} (hd : d.home = home) (harity : 0 < d.arity) {args : List Ty} (hargs : args.length = d.arity)
    (hmissing : ∀ a ∈ args, a ≠ .missing) {c : Method} (hc : c ∈ x.methods (.inst (.defined d) args)) :
    ∃ target, sc.Reads op operand target ∧
      (¬ OpenDefinition home target.named → Answers x home c tok (target.subst args)) ∧
      (OpenDefinition home target.named → Answers x home c tok target) := by
  obtain ⟨rfl, hapart, target, w, w', hreads, hdecl, hmints, hw, hx⟩ := hop.mints hu hbuild
  refine ⟨target, hreads, ?_⟩
  obtain ⟨hscope, howner⟩ := mem_methods_instance (hdecl.filled (hw.trans hx)) hd hc
  have hgeneric : (Ty.inst (.defined d) args).isGeneric = true := by
    rw [Ty.isGeneric, Ty.genericArgs, Bool.not_eq_true', List.isEmpty_eq_false_iff, ← List.length_pos_iff, hargs]
    exact harity
  have hask : Asks x sc.home c args := fun use tok ↦ resolve_alone hscope howner hgeneric use tok
  have hnames : ∀ d, sc.Names d → d.home = sc.home → d ∈ sc.defs := by
    rintro d (hd | ⟨p, hp, hd⟩) hhome
    · exact hd
    · exact absurd hhome (hapart p hp d hd)
  exact hmints.answers hdecl hw hx hfit hreads.written hnames hask hmissing

section sample

/-- A generic type whose method names the field once by the open definition and once by the definition over its
parameter. -/
def boxImage : Image where
  name := "T"
  types := some [{
    name := "G", kind := "struct", arity := 1, fields := [⟨"x", "!0", false⟩]
    methods := [{ name := "M", returns := "!0", source := "ldarg.0\nldfld G::x\nldarg.0\nldfld G<!0>::x\nadd\nret" }] }]

def boxModule : ModuleRef := ⟨0, "T"⟩

def boxType : TypeDef := ⟨boxModule, 0, "", "G", .valueType, 1⟩

def boxScope : Scope := ⟨boxModule, [], [boxType]⟩

def boxTyped : Universe := ((({} : Universe).addModule "T").1.defineType boxModule "" "G" .valueType 1).1

def boxFielded : Universe := (boxTyped.defineField boxModule (.defined boxType) "x" (.param 0) false).1

def boxDeclared : Universe × Method :=
  boxFielded.defineMethod boxModule (some (.defined boxType)) "M" false (.param 0) []

def boxText : String := "ldarg.0\nldfld G::x\nldarg.0\nldfld G<!0>::x\nadd\nret"

theorem defineFieldDecl_box : defineFieldDecl "T" boxScope boxType boxTyped ⟨"x", "!0", false⟩ = .ok boxFielded := by
  have hfresh : (boxTyped.fieldByName (.defined boxType) "x").isSome = false := by
    simp [Universe.fieldByName, Universe.fields, Universe.membersOf, Universe.recorded, boxTyped, Universe.defineType,
      Universe.addModule, Universe.modifyTables]
  unfold defineFieldDecl
  dsimp only
  rw [hfresh]
  rfl

theorem declare_box : boxImage.declare [] {} =
    .ok (boxScope, boxDeclared.1, [(boxDeclared.2, { name := "M", returns := "!0", source := boxText })]) := by
  have htypes : boxImage.typeList.foldlM (defineTypeDecl "T" boxModule) ((({} : Universe).addModule "T").1, []) =
      .ok (boxTyped, [boxType]) := rfl
  have hmembers : defineMembers "T" boxScope (boxTyped, []) (boxType, {
      name := "G", kind := "struct", arity := 1, fields := [⟨"x", "!0", false⟩]
      methods := [{ name := "M", returns := "!0", source := boxText }] }) =
      .ok (boxDeclared.1, [(boxDeclared.2, { name := "M", returns := "!0", source := boxText })]) := by
    unfold defineMembers
    dsimp only
    rw [List.foldlM_cons, defineFieldDecl_box]
    rfl
  unfold declare
  simp only [if_neg (show ¬ boxImage.name = "" by decide)]
  refine (ok_bind (a := []) rfl).trans ((ok_bind htypes).trans ?_)
  exact ok_bind ((ok_bind hmembers).trans rfl)

def boxField : Field := ⟨"x", .param 0, .defined boxType, false, .make .field 1⟩

theorem recorded_box : boxDeclared.1.recorded (.defined boxType) =
    { fields := #[boxField], methods := #[.defined boxModule 0] } := by
  have htyped : boxTyped.recorded (.defined boxType) = {} := by
    simp [Universe.recorded, boxTyped, Universe.defineType, Universe.addModule, Universe.modifyTables]
  have hfielded : boxFielded.recorded (.defined boxType) = { fields := #[boxField] } := by
    rw [boxFielded, Universe.defineField, Universe.recorded_recordMembers, if_pos rfl,
      Universe.recorded_modifyTables, htyped]
    rfl
  change (Universe.recordMembers _ (.defined boxType) _).recorded (.defined boxType) = _
  rw [Universe.recorded_recordMembers, if_pos rfl, Universe.recorded_modifyTables, hfielded]
  rfl

theorem fieldByName_box : boxDeclared.1.fieldByName (.defined boxType) "x" = some boxField := by
  have hmembers : boxDeclared.1.membersOf (.defined boxType) = boxDeclared.1.recorded (.defined boxType) := rfl
  rw [Universe.fieldByName, Universe.fields, hmembers, recorded_box]
  rfl

def boxCode : Bytes := [0x02, 0x7B, 0x01, 0x00, 0x00, 0x04, 0x02, 0x7B, 0x01, 0x00, 0x00, 0x0A, 0x58, 0x2A]

def boxAssembled : Universe := (boxDeclared.1.addMemberRef boxModule ⟨.inst (.defined boxType) [.param 0],
    "x", true, 0⟩).1

theorem token_box : boxScope.token .ldfld "G::x" boxDeclared.1 = .ok (.make .field 1, boxDeclared.1) ∧
    boxScope.token .ldfld "G<!0>::x" boxDeclared.1 = .ok (.make .memberRef 1, boxAssembled) := by
  refine ⟨?_, rfl⟩
  unfold Scope.token
  simp only [show cut "G::x" "::" = some ("G", "x") from rfl]
  refine (ok_bind (a := Ty.defined boxType) rfl).trans ?_
  rw [if_pos (by rfl), if_pos (by rfl), fieldByName_box]
  rfl

section

variable {σ ε : Type} {r : Option (TokenResolver σ ε)} {s s' : σ} {a a' : Assembler} {n : Nat}

theorem assembleLines_cons {line : List Char} (lines : List (List Char)) (body : List Char)
    (hshort : byteLength line < lineLimit) (hsplit : splitLabels (stripComment (chomp line)) = ([], body))
    (hbody : body ≠ []) (hline : emitLine r a s body = .ok (a', s')) :
    assembleLines r n a s (line :: lines) = assembleLines r (n + 1) a' s' lines := by
  rw [assembleLines, if_neg (Nat.not_le.mpr hshort), hsplit]
  dsimp only [List.foldl_nil]
  rw [if_neg hbody, hline]

theorem emitLine_token {r : TokenResolver σ ε} {line word rest : List Char} {op : Opcode}
    {operand : String} {tok : Token} {log : List (Opcode × String × Token)}
    (hcut : cutChars [' '] line = some (word, rest))
    (hop : Opcode.ofMnemonic? (toLower (String.ofList word)) = some op) (hkind : op.operandKind = .token)
    (htrim : trim (String.ofList rest) = operand) (hne : operand ≠ "") (hr : r op operand s = .ok (tok, s')) :
    emitLine (some (noting r)) a (s, log) line = .ok (a.emitToken op.code tok, s', log ++ [(op, operand, tok)]) := by
  unfold emitLine
  simp [hcut, hop, hkind, htrim, hne, emitOperand, noting, hr, Except.map]

end

theorem assemble_box : assemble (some (noting boxScope.token)) (boxDeclared.1, []) boxText = .ok (boxCode, boxAssembled,
    [(.ldfld, "G::x", .make .field 1), (.ldfld, "G<!0>::x", .make .memberRef 1)]) := by
  obtain ⟨hfirst, hsecond⟩ := token_box
  have hlines : rawLines boxText = ["ldarg.0".toList, "ldfld G::x".toList, "ldarg.0".toList,
    "ldfld G<!0>::x".toList, "add".toList, "ret".toList] := by rfl
  unfold assemble
  rw [hlines, assembleLines_cons _ "ldarg.0".toList (by decide) (by decide +kernel) (by decide) rfl,
    assembleLines_cons _ "ldfld G::x".toList (by decide) (by decide +kernel) (by decide)
      (emitLine_token rfl rfl rfl rfl (by decide) hfirst),
    assembleLines_cons _ "ldarg.0".toList (by decide) (by decide +kernel) (by decide) rfl,
    assembleLines_cons _ "ldfld G<!0>::x".toList (by decide) (by decide +kernel) (by decide)
      (emitLine_token rfl rfl rfl rfl (by decide) hsecond),
    assembleLines_cons _ "add".toList (by decide) (by decide +kernel) (by decide) rfl,
    assembleLines_cons _ "ret".toList (by decide) (by decide +kernel) (by decide) rfl]
  rfl

def boxBuilt : Universe := boxAssembled.setBody (.defined boxModule 0) ⟨8, [], boxCode⟩

def boxInt : Ty := .inst (.defined boxType) [.prim .int32]

theorem declares_box : Declares boxModule [boxType] boxDeclared.1 :=
  (declares_declare settled_empty declare_box).2.2.declares

theorem filled_box : Filled boxModule boxDeclared.1 boxBuilt :=
  have href := filled_addMemberRef declares_box.inside ⟨.inst (.defined boxType) [.param 0], "x", true, 0⟩
  href.trans (filled_setBody (href.size ▸ declares_box.inside) 0 _)

theorem build_box : boxImage.build [] {} = .ok (boxModule, boxBuilt) := by
  have hplain : assemble (some boxScope.token) boxDeclared.1 boxText = .ok (boxCode, boxAssembled) :=
    (assemble_noted declares_box.inside assemble_box).2
  have hbody : defineBody "T" boxScope boxDeclared.1 (boxDeclared.2,
    { name := "M", returns := "!0", source := boxText }) =
      .ok boxBuilt := by
    unfold defineBody
    dsimp only
    rw [if_neg (by decide), if_neg (by decide)]
    refine (ok_bind (a := []) rfl).trans ?_
    rw [if_neg (by decide), hplain]
    rfl
  rw [build_eq, declare_box]
  refine (ok_bind ((ok_bind hbody).trans rfl)).trans ?_
  rfl

theorem rowsFit_box : RowsFit boxBuilt boxModule :=
  ⟨by decide, by decide, by decide, by decide, by decide⟩

theorem assigns_box : Assigns boxImage [] {} boxScope boxDeclared.2 .ldfld "G::x" (.make .field 1) ∧
    Assigns boxImage [] {} boxScope boxDeclared.2 .ldfld "G<!0>::x" (.make .memberRef 1) := by
  have hall : ∀ op operand tok, (op, operand, tok) ∈ [(Opcode.ldfld, "G::x", Token.make .field 1),
      (.ldfld, "G<!0>::x", .make .memberRef 1)] → Assigns boxImage [] {} boxScope boxDeclared.2 op operand tok :=
    fun op operand tok h ↦ ⟨_, _, [], _, [], _, _, _, _, declare_box, rfl, rfl, by decide, rfl, assemble_box, h⟩
  exact ⟨hall _ _ _ List.mem_cons_self, hall _ _ _ (List.mem_cons_of_mem _ List.mem_cons_self)⟩

theorem membersOf_boxInt : boxBuilt.membersOf boxInt =
    { fields := #[boxField.specialise boxInt [.prim .int32]], methods := #[.special boxInt 0], opened := true } := by
  have hrecorded : boxBuilt.recorded (.defined boxType) = boxDeclared.1.recorded (.defined boxType) := rfl
  have hnone : boxBuilt.recorded boxInt = {} := (declares_box.filled filled_box).others boxInt rfl (by rintro d ⟨⟩)
  have hmembers := Universe.membersOf_fresh hnone
  rw [hrecorded, recorded_box] at hmembers
  have hrange : Array.range 1 = #[0] := by simp [← Array.toList_inj, List.range_succ]
  rw [boxInt, hmembers]
  simp [hrange]

def boxCaller : Method :=
  ({ boxDeclared.2 with body := some ⟨8, [], boxCode⟩ } : Method).specialise boxInt 0 [.prim .int32]

theorem boxCaller_mem : boxCaller ∈ boxBuilt.methods boxInt := by
  have hcopy : boxBuilt.method? (.special boxInt 0) = some boxCaller := by
    have hnone : boxBuilt.specials[MethodId.special boxInt 0]? = none :=
      (declares_box.filled filled_box).specials boxInt 0 rfl
    have hrecorded : boxBuilt.recorded (.defined boxType) = boxDeclared.1.recorded (.defined boxType) := rfl
    have hslot : (boxBuilt.recorded (.defined boxType)).methods[0]? = some (.defined boxModule 0) := by
      rw [hrecorded, recorded_box]
      rfl
    exact Universe.method?_special hnone hslot rfl
  rw [Universe.methods, membersOf_boxInt, List.mem_filterMap]
  exact ⟨_, List.mem_singleton.mpr rfl, hcopy⟩

theorem fieldByName_boxInt : boxBuilt.fieldByName boxInt "x" = some (boxField.specialise boxInt [.prim .int32]) := by
  rw [Universe.fieldByName, Universe.fields, membersOf_boxInt]
  rfl

/-- The operand over the parameter of the type means the field of the instance. -/
theorem operand_answers_box : boxImage.build [] {} = .ok (boxModule, boxBuilt) ∧
    Assigns boxImage [] {} boxScope boxDeclared.2 .ldfld "G<!0>::x" (.make .memberRef 1) ∧
    boxCaller ∈ boxBuilt.methods boxInt ∧ ((Resolver.ofModules [boxModule]).resolve boxBuilt .field (some boxCaller)
      (.make .memberRef 1)).1.toOption = some (boxField.specialise boxInt [.prim .int32]) := by
  refine ⟨build_box, assigns_box.2, boxCaller_mem, ?_⟩
  obtain ⟨target, hreads, hclosed, -⟩ := operand_answers settled_empty build_box rowsFit_box assigns_box.2
    (d := boxType) rfl (by decide) rfl (by decide) boxCaller_mem
  cases target with
  | type t => cases hreads.1
  | field parent name =>
    obtain ⟨typeName, hcut, hparse, -⟩ := hreads
    cases hcut
    cases hparse
    exact hclosed (by rintro ⟨d, ⟨⟩, -⟩) _ fieldByName_boxInt
  | method parent name arity =>
    obtain ⟨typeName, member, -, -, hfield, -⟩ := hreads
    cases hfield

/-- The operand with the bare name of the type means the field of the open definition, which is not that of the
instance. -/
theorem operand_answers_bare : boxImage.build [] {} = .ok (boxModule, boxBuilt) ∧
    Assigns boxImage [] {} boxScope boxDeclared.2 .ldfld "G::x" (.make .field 1) ∧
    boxScope.Reads .ldfld "G::x" (.field (.defined boxType) "x") ∧ boxCaller ∈ boxBuilt.methods boxInt ∧
    ¬ Answers boxBuilt boxModule boxCaller (.make .field 1)
    ((Target.field (.defined boxType) "x").subst [.prim .int32]) := by
  refine ⟨build_box, assigns_box.1, ⟨"G", rfl, rfl, rfl⟩, boxCaller_mem, fun hanswers ↦ ?_⟩
  have hdecl := declares_box.filled filled_box
  obtain ⟨hscope, howner⟩ := mem_methods_instance hdecl rfl boxCaller_mem
  have hask : Asks boxBuilt boxModule boxCaller [.prim .int32] := fun use tok ↦ resolve_alone hscope howner rfl use tok
  have hinst := hanswers _ fieldByName_boxInt
  have hopen := answers_field declares_box filled_box rowsFit_box hask rfl fieldByName_box boxField
    ((fieldByName_filled filled_box "x").trans fieldByName_box)
  rw [show boxField.token = .make .field 1 from rfl, hinst] at hopen
  cases hopen

end sample

end CilSsa.Image

