import CilSsa.Proofs.Histories
import CilSsa.Proofs.Substitution

namespace CilSsa.Metadata

/-- The types that a method mentions. -/
structure Signature where
  params : List Ty
  ret : Ty
  locals : Option (List Ty)

namespace Signature

def types (s : Signature) : List Ty := s.params ++ s.ret :: s.locals.getD []

def subst (s : Signature) (args : List Ty) : Signature :=
  ⟨s.params.map (·.subst args), s.ret.subst args, s.locals.map fun ls ↦ ls.map (·.subst args)⟩

theorem subst_subst {s : Signature} {as bs : List Ty} (h : ∀ t ∈ s.types, t.Over as.length) (has : as ≠ [])
    (hbs : bs ≠ []) : (s.subst as).subst bs = s.subst (as.map (·.subst bs)) := by
  obtain ⟨params, ret, locals⟩ := s
  simp only [types, List.forall_mem_append, List.forall_mem_cons] at h
  obtain ⟨hparams, hret, hlocals⟩ := h
  have hmap : ∀ ts : List Ty, (∀ t ∈ ts, t.Over as.length) →
      (ts.map (·.subst as)).map (·.subst bs) = ts.map (·.subst (as.map (·.subst bs))) := by
    intro ts hts
    rw [List.map_map]
    exact List.map_congr_left fun t ht ↦ (hts t ht).subst_subst has hbs
  simp only [subst, mk.injEq]
  refine ⟨hmap params hparams, hret.subst_subst has hbs, ?_⟩
  cases locals with
  | none => rfl
  | some ls => exact congrArg some (hmap ls hlocals)

end Signature

def Method.signature (m : Method) : Signature := ⟨m.params.map (·.type), m.ret, m.body.map (·.locals)⟩

theorem Method.signature_specialise (m : Method) (owner : Ty) (slot : Nat) (args : List Ty) :
    (m.specialise owner slot args).signature = m.signature.subst args := by
  simp [specialise, signature, Signature.subst, Function.comp_def]

namespace Universe

variable {u v : Universe}

/-- The members of a type that is not opened have rows, only instances are opened, and only what is opened has methods
of its own. -/
structure Consistent (u : Universe) : Prop where
  indexed : u.Indexed
  rows : ∀ t, (u.recorded t).opened = false → ∀ id ∈ (u.recorded t).methods,
    ∃ home row, id = .defined home row ∧ (u.definedMethod? home row).isSome
  opened : ∀ t, (u.recorded t).opened = true → t.isInstance = true
  specials : ∀ t slot m, u.specials[MethodId.special t slot]? = some m → (u.recorded t).opened = true

theorem Consistent.specials_fresh (h : u.Consistent) {t : Ty} (ht : u.recorded t = {}) (slot : Nat) :
    u.specials[MethodId.special t slot]? = none := by
  rw [Option.eq_none_iff_forall_ne_some]
  intro m hm
  have hopened := h.specials t slot m hm
  rw [ht] at hopened
  cases hopened

theorem Consistent.definition (h : u.Consistent) (d : TypeDef) : ∀ id ∈ (u.recorded (.defined d)).methods,
    ∃ home row, id = .defined home row ∧ (u.definedMethod? home row).isSome := by
  refine h.rows _ (Bool.eq_false_iff.mpr fun hopened ↦ ?_)
  cases h.opened _ hopened

theorem consistent_empty : Consistent {} := by
  have hrecorded : ∀ t, recorded {} t = {} := fun t ↦ Std.HashMap.getD_empty
  refine ⟨indexed_empty, ?_, ?_, ?_⟩
  · intro t _ id hid
    rw [hrecorded] at hid
    simp at hid
  · intro t ht
    rw [hrecorded] at ht
    cases ht
  · intro t slot m hm
    simp at hm

theorem definedMethod?_modifyTables {m home : ModuleRef} {f : ModuleTables → ModuleTables} {row : Nat}
    (hf : home.index = m.index → (f (u.tables home)).methods[row]? = (u.tables home).methods[row]?) :
    (u.modifyTables m f).definedMethod? home row = u.definedMethod? home row := by
  rw [definedMethod?, definedMethod?]
  by_cases hm : home.index = m.index
  · have hsame : u.modifyTables m f = u.modifyTables home f := by
      rw [modifyTables, modifyTables, hm]
    rw [hsame]
    by_cases hin : home.index < u.modules.size
    · rw [tables_modifyTables hin, hf hm]
    · simp [tables, modifyTables, Array.getD_eq_getD_getElem?, hin]
  · rw [tables_modifyTables_of_ne hm]

theorem index_lt_of_definedMethod? {home : ModuleRef} {row : Nat} (h : (u.definedMethod? home row).isSome) :
    home.index < u.modules.size := by
  by_contra hout
  simp [definedMethod?, tables, Array.getD_eq_getD_getElem?, hout] at h

theorem definedMethod?_extends (hext : u.Extends v) {home : ModuleRef} {row : Nat}
    (h : (u.definedMethod? home row).isSome) : (v.definedMethod? home row).isSome := by
  obtain ⟨m, hm⟩ := Option.isSome_iff_exists.mp h
  have hin := index_lt_of_definedMethod? h
  obtain ⟨ts, hts, hgrown⟩ := hext _ _ (Array.getElem?_eq_getElem hin)
  rw [definedMethod?, tables, Array.getD_eq_getD_getElem?, Array.getElem?_eq_getElem hin] at hm
  obtain ⟨body, hbody⟩ := hgrown.methods row m hm
  rw [definedMethod?, tables, Array.getD_eq_getD_getElem?, hts, Option.getD_some, hbody]
  rfl

theorem membersOf_closed {g : Ty} {args : List Ty} (h : ¬ (u.recorded (.inst g args)).opened = true) :
    u.membersOf (.inst g args) =
      { fields := (u.recorded (.inst g args)).fields ++
          (u.recorded g).fields.map fun f ↦ f.specialise (.inst g args) args
        methods := (u.recorded (.inst g args)).methods ++
          (Array.range (u.recorded g).methods.size).map (.special (.inst g args))
        opened := true } := by
  simp [membersOf, h]

theorem opened_membersOf (g : Ty) (args : List Ty) : (u.membersOf (.inst g args)).opened = true := by
  rw [membersOf]
  dsimp only
  split
  · assumption
  · rfl

theorem getElem?_insertAll {α β : Type} [BEq α] [LawfulBEq α] [Hashable α] [LawfulHashable α] {entries : List (α × β)}
    {s : Std.HashMap α β} {k : α} {b : β} (h : (entries.foldl (fun s (a, b) ↦ s.insert a b) s)[k]? = some b) :
    s[k]? = some b ∨ (k, b) ∈ entries := by
  induction entries generalizing s with
  | nil => exact .inl h
  | cons e entries ih =>
    rw [List.foldl_cons] at h
    rcases ih h with h | h
    · rw [Std.HashMap.getElem?_insert] at h
      split at h
      · rename_i heq
        obtain rfl : e.2 = b := Option.some.inj h
        rw [← eq_of_beq heq]
        exact .inr List.mem_cons_self
      · exact .inl h
    · exact .inr (List.mem_cons_of_mem _ h)

namespace Consistent

theorem grow (h : u.Consistent) (hext : u.Extends v) (hindexed : v.Indexed) (hmembers : v.members = u.members)
    (hspecials : v.specials = u.specials) : v.Consistent := by
  have hrecorded : ∀ t, v.recorded t = u.recorded t := fun t ↦ by rw [recorded, recorded, hmembers]
  refine ⟨hindexed, ?_, ?_, ?_⟩
  · intro t ht id hid
    rw [hrecorded] at ht hid
    obtain ⟨home, row, heq, hrow⟩ := h.rows t ht id hid
    exact ⟨home, row, heq, definedMethod?_extends hext hrow⟩
  · intro t ht
    rw [hrecorded] at ht
    exact h.opened t ht
  · intro t slot m hm
    rw [hrecorded]
    rw [hspecials] at hm
    exact h.specials t slot m hm

theorem adds (h : u.Consistent) {m : ModuleRef} {r : Universe × Token × Entity} (hr : u.Adds m r)
    (hmembers : r.1.members = u.members) (hspecials : r.1.specials = u.specials) : r.1.Consistent :=
  h.grow hr.grows (h.indexed.grow hr.grows hr.size) hmembers hspecials

theorem recordMembers (h : u.Consistent) (t : Ty) {f : MemberList → MemberList}
    (hopened : (f (u.recorded t)).opened = (u.recorded t).opened)
    (hrows : ∀ id ∈ (f (u.recorded t)).methods, id ∈ (u.recorded t).methods ∨
      ∃ home row, id = .defined home row ∧ (u.definedMethod? home row).isSome) :
    (u.recordMembers t f).Consistent := by
  have hsame : ∀ t', ((u.recordMembers t f).recorded t').opened = (u.recorded t').opened := by
    intro t'
    rw [recorded_recordMembers]
    split
    · rename_i heq
      rw [hopened, heq]
    · rfl
  refine ⟨h.indexed, ?_, ?_, ?_⟩
  · intro t' ht' id hid
    rw [hsame] at ht'
    rw [recorded_recordMembers] at hid
    split at hid
    · rename_i heq
      subst heq
      exact (hrows id hid).elim (h.rows t ht' id) fun hnew ↦ hnew
    · exact h.rows t' ht' id hid
  · intro t' ht'
    rw [hsame] at ht'
    exact h.opened t' ht'
  · intro t' slot m hm
    rw [hsame]
    exact h.specials t' slot m hm

theorem specials_openType (h : u.Consistent) {t t' : Ty} {slot : Nat} {m : Method}
    (hm : (u.openType t).specials[MethodId.special t' slot]? = some m) :
    u.specials[MethodId.special t' slot]? = some m ∨
      t' = t ∧ t.isInstance = true ∧ u.method? (.special t slot) = some m := by
  unfold openType at hm
  split at hm
  · rename_i g args
    split at hm
    · exact .inl hm
    · rename_i hclosed
      rcases getElem?_insertAll hm with hm | hm
      · exact .inl hm
      · rw [List.mem_filterMap] at hm
        obtain ⟨id, hid, heq⟩ := hm
        rw [membersOf_closed hclosed, Array.toList_append, List.mem_append] at hid
        rcases hid with hid | hid
        · obtain ⟨home, row, rfl, -⟩ := h.rows _ (Bool.eq_false_iff.mpr hclosed) id (by simpa using hid)
          cases heq
        · obtain ⟨slot', -, rfl⟩ := by simpa using hid
          dsimp only at heq
          rw [Option.map_eq_some_iff] at heq
          obtain ⟨m', hm', heq⟩ := heq
          cases heq
          exact .inr ⟨rfl, rfl, hm'⟩
  · exact .inl hm

theorem method?_special_isInstance (h : u.Consistent) {t : Ty} {slot : Nat} {m : Method}
    (hm : u.method? (.special t slot) = some m) : t.isInstance = true := by
  unfold method? at hm
  dsimp only at hm
  split at hm
  · rename_i hspecial
    exact h.opened t (h.specials t slot _ hspecial)
  · split at hm
    · rfl
    · cases hm

theorem openType (h : u.Consistent) (t : Ty) : (u.openType t).Consistent := by
  have hmodules := modules_openType (u := u) t
  refine ⟨h.indexed.grow (extends_of_modules hmodules) (congrArg _ hmodules), ?_, ?_, ?_⟩
  · intro t' ht' id hid
    have hrow : ∀ home row, (u.openType t).definedMethod? home row = u.definedMethod? home row := by
      intro home row
      rw [definedMethod?, definedMethod?, tables, tables, hmodules]
    simp only [hrow]
    rw [recorded_openType] at ht' hid
    split at hid
    · rename_i heq
      subst heq
      rw [if_pos rfl] at ht'
      cases t with
      | inst g args => rw [opened_membersOf] at ht'; cases ht'
      | _ => exact h.rows _ ht' id hid
    · rename_i hne
      rw [if_neg hne] at ht'
      exact h.rows t' ht' id hid
  · intro t' ht'
    rw [recorded_openType] at ht'
    split at ht'
    · rename_i heq
      subst heq
      cases t with
      | inst g args => rfl
      | _ => exact h.opened _ ht'
    · exact h.opened t' ht'
  · intro t' slot m hm
    rw [recorded_openType]
    rcases h.specials_openType hm with hm | ⟨rfl, hinst, -⟩
    · have hopened := h.specials t' slot m hm
      split
      · rename_i heq
        subst heq
        cases t with
        | inst g args => exact opened_membersOf g args
        | _ => cases h.opened _ hopened
      · exact hopened
    · rw [if_pos rfl]
      cases t' with
      | inst g args => exact opened_membersOf g args
      | _ => cases hinst

theorem setInstanceBody (h : u.Consistent) {t : Ty} (hopened : t.isInstance = true → (u.recorded t).opened = true)
    (slot : Nat) (body : Body) : (u.setBody (.special t slot) body).Consistent := by
  unfold setBody
  dsimp only
  cases hm : u.method? (.special t slot) with
  | none => exact h
  | some m =>
    refine ⟨h.indexed, h.rows, h.opened, fun t' slot' m' hm' ↦ ?_⟩
    rw [Std.HashMap.getElem?_insert] at hm'
    split at hm'
    · rename_i heq
      cases eq_of_beq heq
      exact hopened (h.method?_special_isInstance hm)
    · exact h.specials t' slot' m' hm'

theorem addMethod (h : u.Consistent) {m : ModuleRef} (hin : m.index < u.modules.size) (owner : Option Ty)
    {build : MethodId → Token → Method} (hid : ∀ id token, (build id token).id = id)
    (htoken : ∀ id token, (build id token).token = token) : (u.addMethod m owner build).1.Consistent := by
  have hadds := adds_method (u := u) m owner htoken
  have htables :
    (u.modifyTables m fun t ↦ { t with methods := t.methods.push (u.addMethod m none build).2 }).Consistent :=
    h.adds (adds_method m none htoken) rfl rfl
  cases owner with
  | none => exact htables
  | some t =>
    refine htables.recordMembers (f := fun l ↦ { l with methods := l.methods.push (u.addMethod m none build).2.id }) t
      rfl fun id hid' ↦ ?_
    rw [Array.mem_push] at hid'
    refine hid'.imp_right ?_
    rintro rfl
    refine ⟨m, (u.tables m).methods.size, hid _ _, ?_⟩
    obtain ⟨body, hrow⟩ := hadds.stands hin
    exact Option.isSome_iff_exists.mpr ⟨_, hrow⟩

theorem mint (h : u.Consistent) (home : Nat) {f : ModuleRef → Universe × Token × Entity}
    (hf : ∀ m, m.index < u.modules.size → (f m).1.Consistent) : (u.mint home f).1.Consistent := by
  unfold Universe.mint
  split
  · exact h
  · rename_i ts hts
    refine hf ts.ref ?_
    rw [h.indexed home ts hts]
    exact (Array.getElem?_eq_some_iff.mp hts).1

theorem act (h : u.Consistent) (a : Change) : (u.act a).1.Consistent := by
  have hstep := steps_act h.indexed a
  cases a with
  | addModule name => exact h.grow hstep.grows hstep.indexed rfl rfl
  | defineType home space name kind arity =>
    exact h.mint home fun m hm ↦ h.adds (adds_type m space name kind arity) rfl rfl
  | defineField home owner name type isStatic =>
    refine h.mint home fun m hm ↦ ?_
    have htables : (u.modifyTables m fun t ↦
        { t with fields := t.fields.push (u.defineField m owner name type isStatic).2 }).Consistent :=
      h.grow (adds_field m owner name type isStatic).grows
        (h.indexed.grow (adds_field m owner name type isStatic).grows size_modifyTables) rfl rfl
    exact htables.recordMembers
      (f := fun l ↦ { l with fields := l.fields.push (u.defineField m owner name type isStatic).2 })
      owner rfl fun id hid ↦ .inl hid
  | defineMethod home owner name isStatic ret params =>
    exact h.mint home fun m hm ↦ h.addMethod hm owner (fun _ _ ↦ rfl) fun _ _ ↦ rfl
  | defineConstructor home owner params =>
    exact h.mint home fun m hm ↦ h.addMethod hm owner (fun _ _ ↦ rfl) fun _ _ ↦ rfl
  | addTypeSpec home t =>
    exact h.mint home fun m hm ↦ h.adds (adds_typeSpec m t) rfl rfl
  | addMemberRef home r =>
    exact h.mint home fun m hm ↦ h.adds (adds_memberRef m r) rfl rfl
  | setBody home row body =>
    refine h.grow hstep.grows hstep.indexed ?_ ?_
    all_goals
      rw [Universe.act]
      dsimp only
      cases u.modules[home]? <;> rfl
  | openType t => exact h.openType t
  | setInstanceBody t slot body =>
    refine (h.openType t).setInstanceBody (fun ht ↦ ?_) slot body
    rw [recorded_openType, if_pos rfl]
    cases t with
    | inst g args => exact opened_membersOf g args
    | _ => cases ht

theorem run (h : u.Consistent) (as : List Change) : (u.run as).1.Consistent := by
  induction as generalizing u with
  | nil => exact h
  | cons a as ih => exact ih (h.act a)

end Consistent

end Universe

/-- A change that leaves a definition and one of its instances as they are: neither gets a member from outside, and no
method of either gets a body. -/
def Change.Spares (u : Universe) (d : TypeDef) (t : Ty) : Change → Prop
  | .defineField _ owner _ _ _ => owner ≠ .defined d ∧ owner ≠ t
  | .defineMethod _ owner _ _ _ _ | .defineConstructor _ owner _ => owner ≠ some (.defined d) ∧ owner ≠ some t
  | .setBody home row _ => ∀ m, .defined m row ∈ (u.recorded (.defined d)).methods → m.index ≠ home
  | .setInstanceBody t' _ _ => t' ≠ t
  | _ => True

namespace Universe

variable {u v w : Universe} {d : TypeDef} {args : List Ty}

/-- The definition is still what it was, and the instance is still closed or shows what it would have shown. -/
structure Spared (u v : Universe) (d : TypeDef) (args : List Ty) : Prop where
  definition : v.recorded (.defined d) = u.recorded (.defined d)
  rows : ∀ home row, .defined home row ∈ (u.recorded (.defined d)).methods → v.definedMethod? home row =
    u.definedMethod? home row
  members : v.recorded (.inst (.defined d) args) = {} ∨
    v.recorded (.inst (.defined d) args) = u.membersOf (.inst (.defined d) args)
  specials : ∀ slot m, v.specials[MethodId.special (.inst (.defined d) args) slot]? = some m →
    u.method? (.special (.inst (.defined d) args) slot) = some m

namespace Spared

theorem refl (hu : u.Consistent) (hfresh : u.recorded (.inst (.defined d) args) = {}) : Spared u u d args := by
  refine ⟨rfl, fun _ _ _ ↦ rfl, .inl hfresh, fun slot m hm ↦ ?_⟩
  rw [hu.specials_fresh hfresh] at hm
  cases hm

variable (h : Spared u v d args)
include h

theorem membersOf (hfresh : u.recorded (.inst (.defined d) args) = {}) :
    v.membersOf (.inst (.defined d) args) = u.membersOf (.inst (.defined d) args) := by
  rcases h.members with hv | hv
  · rw [membersOf_fresh hv, membersOf_fresh hfresh, h.definition]
  · rw [Universe.membersOf]
    dsimp only
    rw [hv, if_pos (opened_membersOf _ _)]

theorem method? (hu : u.Consistent) (hfresh : u.recorded (.inst (.defined d) args) = {}) (slot : Nat) :
    v.method? (.special (.inst (.defined d) args) slot) = u.method? (.special (.inst (.defined d) args) slot) := by
  have hnone := hu.specials_fresh hfresh slot
  cases hv : v.specials[MethodId.special (.inst (.defined d) args) slot]? with
  | some m => rw [h.specials slot m hv, Universe.method?, hv]
  | none =>
    simp only [Universe.method?, hv, hnone, h.definition]
    cases hid : (u.recorded (.defined d)).methods[slot]? with
    | none => rfl
    | some id =>
      have hmem := Array.mem_of_getElem? hid
      obtain ⟨home, row, rfl, -⟩ := hu.definition d id hmem
      dsimp only
      rw [h.rows home row hmem]

/-- Rows and members that are not those of the definition or of the instance may change. -/
theorem step (hdefinition : w.recorded (.defined d) = v.recorded (.defined d))
    (hinstance : w.recorded (.inst (.defined d) args) = v.recorded (.inst (.defined d) args))
    (hspecials : ∀ slot, w.specials[MethodId.special (.inst (.defined d) args) slot]? =
      v.specials[MethodId.special (.inst (.defined d) args) slot]?)
    (hrows : ∀ home row, .defined home row ∈ (u.recorded (.defined d)).methods →
      w.definedMethod? home row = v.definedMethod? home row) : Spared u w d args := by
  refine ⟨hdefinition.trans h.definition, fun home row hid ↦ (hrows home row hid).trans (h.rows home row hid), ?_, ?_⟩
  · rw [hinstance]
    exact h.members
  · intro slot m hm
    rw [hspecials] at hm
    exact h.specials slot m hm

theorem recordMembers {t : Ty} (ht : t ≠ .defined d ∧ t ≠ .inst (.defined d) args) (f : MemberList → MemberList) :
    Spared u (v.recordMembers t f) d args := by
  refine h.step ?_ ?_ (fun _ ↦ rfl) fun _ _ _ ↦ rfl
  · rw [recorded_recordMembers, if_neg ht.1]
  · rw [recorded_recordMembers, if_neg ht.2]

theorem modifyTables {m : ModuleRef} {f : ModuleTables → ModuleTables}
    (hf : ∀ home row, .defined home row ∈ (u.recorded (.defined d)).methods → home.index = m.index →
      (f (v.tables home)).methods[row]? = (v.tables home).methods[row]?) : Spared u (v.modifyTables m f) d args :=
  h.step rfl rfl (fun _ ↦ rfl) fun home row hid ↦ definedMethod?_modifyTables (hf home row hid)

theorem addMethod (hv : v.Consistent) (m : ModuleRef) {owner : Option Ty}
    (howner : owner ≠ some (.defined d) ∧ owner ≠ some (.inst (.defined d) args)) (build : MethodId → Token → Method) :
    Spared u (v.addMethod m owner build).1 d args := by
  have htables : Spared u (v.modifyTables m fun t ↦
      { t with methods := t.methods.push (v.addMethod m none build).2 }) d args := by
    refine h.modifyTables fun home row hid _ ↦ ?_
    rw [← h.definition] at hid
    obtain ⟨home', row', heq, hrow⟩ := hv.definition d _ hid
    cases heq
    obtain ⟨method, hmethod⟩ := Option.isSome_iff_exists.mp hrow
    have hlt : row < (v.tables home).methods.size := (Array.getElem?_eq_some_iff.mp hmethod).1
    rw [Array.getElem?_push, if_neg (Nat.ne_of_lt hlt)]
  cases owner with
  | none => exact htables
  | some t =>
    exact htables.recordMembers (t := t) (by simpa using howner)
      (fun l ↦ { l with methods := l.methods.push (v.addMethod m none build).2.id })

theorem openType (hu : u.Consistent) (hv : v.Consistent) (hfresh : u.recorded (.inst (.defined d) args) = {}) (t : Ty) :
    Spared u (v.openType t) d args := by
  have hmodules := modules_openType (u := v) t
  refine ⟨?_, fun home row hid ↦ ?_, ?_, fun slot m hm ↦ ?_⟩
  · rw [recorded_openType]
    split
    · rename_i heq
      subst heq
      exact h.definition
    · exact h.definition
  · rw [definedMethod?, tables, hmodules]
    exact h.rows home row hid
  · rw [recorded_openType]
    split
    · rename_i heq
      subst heq
      exact .inr (h.membersOf hfresh)
    · exact h.members
  · rcases hv.specials_openType hm with hm | ⟨rfl, -, hm⟩
    · exact h.specials slot m hm
    · rwa [h.method? hu hfresh] at hm

theorem setInstanceBody {t : Ty} (ht : t ≠ .inst (.defined d) args) (slot : Nat) (body : Body) :
    Spared u (v.setBody (.special t slot) body) d args := by
  unfold Universe.setBody
  dsimp only
  split
  · refine h.step rfl rfl (fun slot' ↦ ?_) fun _ _ _ ↦ rfl
    rw [Std.HashMap.getElem?_insert, if_neg (by simp [ht])]
  · exact h

theorem mint (home : Nat) {f : ModuleRef → Universe × Token × Entity}
    (hf : ∀ m, Spared u (f m).1 d args) : Spared u (v.mint home f).1 d args := by
  unfold Universe.mint
  split
  · exact h
  · exact hf _

theorem act (hu : u.Consistent) (hv : v.Consistent) (hfresh : u.recorded (.inst (.defined d) args) = {}) {a : Change}
    (ha : a.Spares u d (.inst (.defined d) args)) : Spared u (v.act a).1 d args := by
  cases a with
  | addModule name =>
    refine h.step rfl rfl (fun _ ↦ rfl) fun home row hid ↦ ?_
    rw [← h.definition] at hid
    obtain ⟨home', row', heq, hrow⟩ := hv.definition d _ hid
    cases heq
    rw [Universe.act, definedMethod?, tables_addModule, if_neg (Nat.ne_of_lt (index_lt_of_definedMethod? hrow))]
    rfl
  | defineType home space name kind arity => exact h.mint home fun m ↦ h.modifyTables fun _ _ _ _ ↦ rfl
  | defineField home owner name type isStatic =>
    refine h.mint home fun m ↦ ?_
    have htables : Spared u (v.modifyTables m fun t ↦
        { t with fields := t.fields.push (v.defineField m owner name type isStatic).2 }) d args :=
      h.modifyTables fun _ _ _ _ ↦ rfl
    exact htables.recordMembers ha fun l ↦
      { l with fields := l.fields.push (v.defineField m owner name type isStatic).2 }
  | defineMethod home owner name isStatic ret params => exact h.mint home fun m ↦ h.addMethod hv m ha _
  | defineConstructor home owner params => exact h.mint home fun m ↦ h.addMethod hv m ha _
  | addTypeSpec home t => exact h.mint home fun m ↦ h.modifyTables fun _ _ _ _ ↦ rfl
  | addMemberRef home r => exact h.mint home fun m ↦ h.modifyTables fun _ _ _ _ ↦ rfl
  | setBody home row body =>
    rw [Universe.act]
    dsimp only
    cases hts : v.modules[home]? with
    | none => exact h
    | some ts =>
      refine h.modifyTables fun home' row' hid hindex ↦ ?_
      rw [hv.indexed home ts hts] at hindex
      dsimp only
      rw [Array.getElem?_modify, if_neg]
      rintro rfl
      exact ha home' hid hindex
  | openType t => exact h.openType hu hv hfresh t
  | setInstanceBody t slot body => exact (h.openType hu hv hfresh t).setInstanceBody ha slot body

theorem run (hu : u.Consistent) (hv : v.Consistent) (hfresh : u.recorded (.inst (.defined d) args) = {})
    {as : List Change} (has : ∀ a ∈ as, a.Spares u d (.inst (.defined d) args)) : Spared u (v.run as).1 d args := by
  induction as generalizing v with
  | nil => exact h
  | cons a as ih =>
    obtain ⟨ha, has⟩ := List.forall_mem_cons.mp has
    exact ih (h.act hu hv hfresh ha) (hv.act a) has

omit h

/-- Whatever happens elsewhere, the instance shows what it would have shown. -/
theorem shows (hu : u.Consistent) (hfresh : u.recorded (.inst (.defined d) args) = {}) {as : List Change}
    (has : ∀ a ∈ as, a.Spares u d (.inst (.defined d) args)) :
    (u.run as).1.fields (.inst (.defined d) args) = u.fields (.inst (.defined d) args) ∧
      (u.run as).1.methods (.inst (.defined d) args) = u.methods (.inst (.defined d) args) := by
  have h := (refl hu hfresh).run hu hu hfresh has
  rw [fields, fields, methods, methods, h.membersOf hfresh]
  refine ⟨rfl, List.filterMap_congr fun id hid ↦ ?_⟩
  obtain ⟨slot, -, rfl⟩ : ∃ slot < (u.recorded (.defined d)).methods.size,
    .special (.inst (.defined d) args) slot = id := by
    simpa [membersOf_fresh hfresh] using hid
  exact h.method? hu hfresh slot

end Spared

theorem filterMap_range {α β : Type} (as : List α) (f : α → Option β) :
    (List.range as.length).filterMap (fun i ↦ as[i]?.bind f) = as.filterMap f := by
  induction as with
  | nil => rfl
  | cons a as ih =>
    rw [List.length_cons, List.range_succ_eq_map, List.filterMap_cons, List.filterMap_cons, List.filterMap_map]
    simp only [Function.comp_def, List.getElem?_cons_succ, ih]
    rfl

/-- The methods of a closed instance have the signatures of those of the definition, with the arguments put in. -/
theorem signatures_fresh (hu : u.Consistent) (hfresh : u.recorded (.inst (.defined d) args) = {}) :
    (u.methods (.inst (.defined d) args)).map Method.signature =
      (u.methods (.defined d)).map fun m ↦ m.signature.subst args := by
  have hslot : ∀ slot, (u.method? (.special (.inst (.defined d) args) slot)).map Method.signature =
      ((u.recorded (.defined d)).methods.toList[slot]?.bind u.method?).map fun m ↦ m.signature.subst args := by
    intro slot
    have hnone := hu.specials_fresh hfresh slot
    rw [Array.getElem?_toList]
    cases hid : (u.recorded (.defined d)).methods[slot]? with
    | none => simp [method?, hnone, hid]
    | some id =>
      obtain ⟨home, row, rfl, hrow⟩ := hu.definition d id (Array.mem_of_getElem? hid)
      obtain ⟨m, hm⟩ := Option.isSome_iff_exists.mp hrow
      rw [method?_special hnone hid hm, Option.bind_some, method?, hm]
      exact congrArg some (m.signature_specialise _ slot args)
  rw [methods, membersOf_fresh hfresh, methods, List.map_filterMap, List.map_filterMap]
  simp only [Array.toList_map, Array.toList_range, List.filterMap_map, Function.comp_def, hslot]
  rw [← Array.length_toList]
  simp only [Option.map_bind]
  exact filterMap_range _ _

theorem fieldTypes_fresh (hfresh : u.recorded (.inst (.defined d) args) = {}) :
    (u.fields (.inst (.defined d) args)).map (·.type) = (u.fields (.defined d)).map fun f ↦ f.type.subst args := by
  rw [fields, membersOf_fresh hfresh, Array.toList_map, List.map_map]
  rfl

end Universe

/-- Substitution composes, on types and on members. Two substitutions are one, a closed type stays as it is, and closed
arguments close a type. Take a history, a definition whose members mention only parameters that have arguments, and its
instances with the arguments and with the arguments after a second substitution; nothing may be recorded yet for the two
instances. However the history goes on, as long as it spares the definition and both instances, the second substitution
leads from the members of the one to those of the other. -/
theorem substitution_composes {as bs : List Ty} (has : as ≠ []) (hbs : bs ≠ []) :
    (∀ t : Ty, t.Over as.length → (t.subst as).subst bs = t.subst (as.map (·.subst bs))) ∧
    (∀ (n : Nat) (t : Ty), t.Over n → t.isOpen = false → ∀ args, t.subst args = t) ∧
    (∀ t : Ty, t.Over as.length → (∀ a ∈ as, a.isOpen = false) → (t.subst as).isOpen = false) ∧
    ∀ (d : TypeDef) (before after : List Change) (u v : Universe) (one other : Ty),
      u = (Universe.run {} before).1 → v = (u.run after).1 →
      one = .inst (.defined d) as → other = .inst (.defined d) (as.map (·.subst bs)) →
      u.recorded one = {} → u.recorded other = {} → (∀ a ∈ after, a.Spares u d one ∧ a.Spares u d other) →
      (∀ f ∈ u.fields (.defined d), f.type.Over as.length) →
      (∀ m ∈ u.methods (.defined d), ∀ t ∈ m.signature.types, t.Over as.length) →
      (v.fields other).map (·.type) = (v.fields one).map (fun f ↦ f.type.subst bs) ∧
        (v.methods other).map Method.signature = (v.methods one).map fun m ↦ m.signature.subst bs := by
  refine ⟨fun t ht ↦ ht.subst_subst has hbs, fun n t ht ↦ ht.subst_closed, fun t ht hclosed ↦ ?_, ?_⟩
  · rw [Ty.subst_of_ne_nil has]
    exact ht.isOpen_substAll hclosed
  rintro d before after u v one other hu rfl rfl rfl hone hother hspares hfields hmethods
  have hconsistent : u.Consistent := hu ▸ Universe.consistent_empty.run before
  obtain ⟨hfields₁, hmethods₁⟩ := Universe.Spared.shows hconsistent hone fun a ha ↦ (hspares a ha).1
  obtain ⟨hfields₂, hmethods₂⟩ := Universe.Spared.shows hconsistent hother fun a ha ↦ (hspares a ha).2
  rw [hfields₁, hfields₂, hmethods₁, hmethods₂]
  refine ⟨?_, ?_⟩
  · have hmap : (u.fields (.inst (.defined d) as)).map (fun f ↦ f.type.subst bs) =
        ((u.fields (.inst (.defined d) as)).map (·.type)).map (·.subst bs) := by
      rw [List.map_map]
      rfl
    rw [hmap, Universe.fieldTypes_fresh hother, Universe.fieldTypes_fresh hone, List.map_map]
    exact List.map_congr_left fun f hf ↦ ((hfields f hf).subst_subst has hbs).symm
  · have hmap : (u.methods (.inst (.defined d) as)).map (fun m ↦ m.signature.subst bs) =
        ((u.methods (.inst (.defined d) as)).map Method.signature).map (·.subst bs) := by
      rw [List.map_map]
      rfl
    rw [hmap, Universe.signatures_fresh hconsistent hother, Universe.signatures_fresh hconsistent hone, List.map_map]
    exact List.map_congr_left fun m hm ↦ (Signature.subst_subst (hmethods m hm) has hbs).symm

section sample

def cell : TypeDef := ⟨⟨0, "M"⟩, 0, "", "Cell", .valueType, 1⟩

def cellChanges : List Change :=
  [.addModule "M", .defineType 0 "" "Cell" .valueType 1, .defineField 0 (.defined cell) "value" (.param 0) false,
    .defineConstructor 0 (some (.defined cell)) [.param 0]]

def cellPointer : Ty := .inst (.defined cell) [.pointer (.param 0)]

def cellIntPointer : Ty := .inst (.defined cell) [.pointer (.prim .int32)]

theorem recorded_cell (t : Ty) : (Universe.run {} cellChanges).1.recorded t =
    if .defined cell = t then
      { fields := #[⟨"value", .param 0, .defined cell, false, .make .field 1⟩], methods := #[.defined ⟨0, "M"⟩ 0] }
    else {} := by
  have hcell : (Universe.run {} cellChanges).1 = (Universe.addMethod
      (Universe.defineField (Universe.run {} (cellChanges.take 2)).1 ⟨0, "M"⟩ (.defined cell) "value"
      (.param 0) false).1
      ⟨0, "M"⟩ (some (.defined cell)) fun id token ↦
        ⟨id, ".ctor", some (.defined cell), [⟨"arg0", .param 0⟩], .void, false, true, none, token, ⟨0, "M"⟩⟩).1 := rfl
  have hempty : ∀ t, (Universe.run {} (cellChanges.take 2)).1.recorded t = {} := fun t ↦ Std.HashMap.getD_empty
  rw [hcell, Universe.addMethod, Universe.recorded_recordMembers, Universe.recorded_modifyTables,
    Universe.recorded_modifyTables, Universe.defineField, Universe.recorded_recordMembers,
    Universe.recorded_recordMembers]
  simp only [Universe.recorded_modifyTables, hempty, if_true]
  split <;> rfl

theorem recorded_cell_of_ne {t : Ty} (h : .defined cell ≠ t) : (Universe.run {} cellChanges).1.recorded t = {} := by
  rw [recorded_cell, if_neg h]

theorem fields_cell : (Universe.run {} cellChanges).1.fields (.defined cell) =
    [⟨"value", .param 0, .defined cell, false, .make .field 1⟩] := by
  have hshown : (Universe.run {} cellChanges).1.membersOf (.defined cell) =
      (Universe.run {} cellChanges).1.recorded (.defined cell) := rfl
  rw [Universe.fields, hshown, recorded_cell, if_pos rfl]

theorem methods_cell : (Universe.run {} cellChanges).1.methods (.defined cell) =
    [⟨.defined ⟨0, "M"⟩ 0, ".ctor", some (.defined cell), [⟨"arg0", .param 0⟩], .void, false, true, none,
      .make .method 1, ⟨0, "M"⟩⟩] := by
  have hshown : (Universe.run {} cellChanges).1.membersOf (.defined cell) =
      (Universe.run {} cellChanges).1.recorded (.defined cell) := rfl
  rw [Universe.methods, hshown, recorded_cell, if_pos rfl]
  rfl

/-- Two instances that are opened one after the other, with a field defined for another type in between. -/
def cellOpenings : List Change :=
  [.openType cellPointer, .defineField 0 (.byref .void) "other" .void true, .openType cellIntPointer]

theorem substitution_composes_cell :
    ((Universe.run (Universe.run {} cellChanges).1 cellOpenings).1.fields cellIntPointer).map (·.type) =
      [.pointer (.prim .int32)] ∧
    ((Universe.run (Universe.run {} cellChanges).1 cellOpenings).1.methods cellIntPointer).map Method.signature =
      [⟨[.pointer (.prim .int32)], .void, none⟩] := by
  have hone := recorded_cell_of_ne (t := cellPointer) (by rintro ⟨⟩)
  have hother := recorded_cell_of_ne (t := cellIntPointer) (by rintro ⟨⟩)
  have hspares : ∀ a ∈ cellOpenings, a.Spares (Universe.run {} cellChanges).1 cell cellPointer ∧
      a.Spares (Universe.run {} cellChanges).1 cell cellIntPointer := by
    simp [cellOpenings, Change.Spares, cellPointer, cellIntPointer]
  have hconsistent : (Universe.run {} cellChanges).1.Consistent := Universe.consistent_empty.run cellChanges
  have hfieldTypes : ∀ f ∈ (Universe.run {} cellChanges).1.fields (.defined cell), f.type.Over 1 := by
    rw [fields_cell]
    exact List.forall_mem_singleton.mpr (.param Nat.one_pos)
  have hsignature : ∀ m ∈ (Universe.run {} cellChanges).1.methods (.defined cell),
      ∀ t ∈ m.signature.types, t.Over 1 := by
    rw [methods_cell]
    exact List.forall_mem_singleton.mpr (List.forall_mem_cons.mpr ⟨.param Nat.one_pos,
      List.forall_mem_singleton.mpr .void⟩)
  obtain ⟨hfields, hmethods⟩ := Universe.Spared.shows hconsistent hone fun a ha ↦ (hspares a ha).1
  obtain ⟨-, -, -, hmembers⟩ := substitution_composes (show ([.pointer (.param 0)] : List Ty) ≠ [] by simp)
    (show ([.prim .int32] : List Ty) ≠ [] by simp)
  obtain ⟨hfields', hmethods'⟩ := hmembers cell cellChanges cellOpenings _ _ cellPointer cellIntPointer rfl rfl
    rfl rfl hone hother hspares hfieldTypes hsignature
  refine ⟨?_, ?_⟩
  · have hmap := congrArg (List.map (·.subst [Ty.prim .int32])) (Universe.fieldTypes_fresh hone)
    rw [List.map_map, fields_cell] at hmap
    exact hfields'.trans ((congrArg (List.map _) hfields).trans hmap)
  · have hmap := congrArg (List.map (·.subst [Ty.prim .int32])) (Universe.signatures_fresh hconsistent hone)
    rw [List.map_map, methods_cell] at hmap
    exact hmethods'.trans ((congrArg (List.map _) hmethods).trans hmap)

def cellGrowth : List Change := [.openType cellPointer, .defineField 0 (.defined cell) "next" (.param 0) false]

theorem run_cellGrowth : (Universe.run (Universe.run {} cellChanges).1 cellGrowth).1 =
    (Universe.defineField ((Universe.run {} cellChanges).1.openType cellPointer) ⟨0, "M"⟩ (.defined cell) "next"
      (.param 0) false).1 := by
  obtain ⟨ts, hts, href⟩ : ∃ ts, ((Universe.run {} cellChanges).1.openType cellPointer).modules[0]? = some ts ∧
      ts.ref = ⟨0, "M"⟩ := by
    rw [Universe.modules_openType]
    exact ⟨_, rfl, rfl⟩
  simp only [cellGrowth, Universe.run, Universe.act, Universe.mint, hts, href]

/-- The opened instance does not get the field; one that is opened later does. -/
theorem members_opened_early :
    (∀ f ∈ (Universe.run (Universe.run {} cellChanges).1 cellGrowth).1.fields (.defined cell), f.type.Over 1) ∧
      ((Universe.run (Universe.run {} cellChanges).1 cellGrowth).1.fields cellIntPointer).map (·.type) ≠
        ((Universe.run (Universe.run {} cellChanges).1 cellGrowth).1.fields cellPointer).map
          fun f ↦ f.type.subst [.prim .int32] := by
  rw [run_cellGrowth]
  obtain ⟨w, hw⟩ : ∃ w, w = (Universe.run {} cellChanges).1.openType cellPointer := ⟨_, rfl⟩
  obtain ⟨f, hf⟩ : ∃ f, f = (w.defineField ⟨0, "M"⟩ (.defined cell) "next" (.param 0) false).2 := ⟨_, rfl⟩
  obtain ⟨v, hv⟩ : ∃ v, v = (w.defineField ⟨0, "M"⟩ (.defined cell) "next" (.param 0) false).1 := ⟨_, rfl⟩
  have hrecorded : ∀ t, v.recorded t = if .defined cell = t then
      { w.recorded (.defined cell) with fields := (w.recorded (.defined cell)).fields.push f } else w.recorded t := by
    intro t
    rw [hv, Universe.defineField, Universe.recorded_recordMembers, hf]
    rfl
  have hone := recorded_cell_of_ne (t := cellPointer) (by rintro ⟨⟩)
  have hdefinition : v.fields (.defined cell) = [⟨"value", .param 0, .defined cell, false, .make .field 1⟩, f] := by
    have hshown : v.membersOf (.defined cell) = v.recorded (.defined cell) := rfl
    rw [Universe.fields, hshown, hrecorded, if_pos rfl, hw, Universe.recorded_openType,
      if_neg (by rintro ⟨⟩), recorded_cell, if_pos rfl]
    rfl
  have hopened : v.fields cellPointer = (Universe.run {} cellChanges).1.fields cellPointer := by
    have hshown : v.recorded cellPointer = (Universe.run {} cellChanges).1.membersOf cellPointer := by
      rw [hrecorded, if_neg (by rintro ⟨⟩), hw, Universe.recorded_openType, if_pos rfl]
    rw [Universe.fields, cellPointer, Universe.membersOf]
    dsimp only
    have hopened : ((Universe.run {} cellChanges).1.membersOf cellPointer).opened = true :=
      Universe.opened_membersOf _ _
    rw [← cellPointer, hshown, if_pos hopened]
    rfl
  have hclosed : v.recorded cellIntPointer = {} := by
    rw [hrecorded, if_neg (by rintro ⟨⟩), hw, Universe.recorded_openType, if_neg (by rintro ⟨⟩),
      recorded_cell_of_ne (by rintro ⟨⟩)]
  rw [← hw, ← hv]
  refine ⟨?_, fun hsame ↦ ?_⟩
  · rw [hdefinition]
    have htype : f.type = .param 0 := by
      rw [hf]
      rfl
    exact List.forall_mem_cons.mpr ⟨.param Nat.one_pos, List.forall_mem_singleton.mpr (htype ▸ .param Nat.one_pos)⟩
  · have hlength := congrArg List.length (Universe.fieldTypes_fresh hone)
    have hlength' := congrArg List.length (Universe.fieldTypes_fresh hclosed)
    rw [List.length_map, List.length_map, fields_cell] at hlength
    rw [List.length_map, List.length_map, hdefinition] at hlength'
    have heq := congrArg List.length hsame
    rw [List.length_map, List.length_map, hopened] at heq
    exact absurd (hlength'.symm.trans (heq.trans hlength)) (by simp)

end sample

end CilSsa.Metadata

