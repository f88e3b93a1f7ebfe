import CilSsa.Image.Build
import CilSsa.Proofs.Substitution
import CilSsa.Proofs.Histories
import CilSsa.Proofs.Traversals
import Mathlib.Data.List.Basic

namespace CilSsa.Image

open CilSsa.Metadata CilSsa.Text CilSsa.Number CilSsa.Bytecode

variable {sc : Scope}

def Scope.Names (sc : Scope) (d : TypeDef) : Prop := d ∈ sc.defs ∨ ∃ p ∈ sc.imports, d ∈ p.2

/-- The types that can be written in an image. -/
inductive Written (sc : Scope) : Ty → Prop
  | void : Written sc .void
  | prim (p : Prim) : Written sc (.prim p)
  | param (i : Nat) : Written sc (.param i)
  | byref {t : Ty} : Written sc t → Written sc (.byref t)
  | pointer {t : Ty} : Written sc t → Written sc (.pointer t)
  | defined {d : TypeDef} : sc.Names d → Written sc (.defined d)
  | inst {d : TypeDef} {args : List Ty} : sc.Names d → (∀ a ∈ args, Written sc a) → Written sc (.inst (.defined d) args)

theorem named_names {name : List Char} {d : TypeDef} (h : sc.named name = .ok d) : sc.Names d := by
  unfold Scope.named at h
  dsimp only at h
  split at h
  · split at h
    · cases h
    · split at h
      · cases h
      · rename_i defs himports
        split at h
        · rename_i d' hd
          cases h
          obtain ⟨_, _, heq, -⟩ := List.lookup_eq_some_iff.mp himports
          exact .inr ⟨(_, defs), heq ▸ List.mem_append_right _ List.mem_cons_self, List.mem_of_find?_eq_some hd⟩
        · cases h
  · split at h
    · rename_i d' hd
      cases h
      exact .inl (List.mem_of_find?_eq_some hd)
    · split at h
      · cases h
      · rename_i d' hd
        cases h
        have hmem : d ∈ sc.defs.filter fun d ↦ d.name == String.ofList (name.takeWhile (· ≠ Char.ofNat 96)) := by
          rw [hd]
          exact List.mem_singleton.mpr rfl
        exact .inl (List.mem_filter.mp hmem).1
      · cases h

theorem written_builtin {name : String} {t : Ty} (h : builtin? name = some t) : Written sc t := by
  have hall : ∀ p ∈ builtinNames, p.2 = .void ∨ ∃ q, p.2 = .prim q := by
    simp [builtinNames]
  obtain ⟨_, _, hlist, -⟩ := List.lookup_eq_some_iff.mp h
  have hmem : (name, t) ∈ builtinNames := by
    rw [hlist]
    simp
  rcases hall _ hmem with heq | ⟨q, heq⟩
  · obtain rfl : t = .void := heq
    exact .void
  · obtain rfl : t = .prim q := heq
    exact .prim q

theorem written_parseChars {fuel : Nat} {text : List Char} {t : Ty} (h : sc.parseChars fuel text = .ok t) :
    Written sc t := by
  induction fuel generalizing text t with
  | zero => cases h
  | succ fuel ih =>
    unfold Scope.parseChars at h
    dsimp only at h
    split at h
    · cases h
    · obtain ⟨e, he, h⟩ := bind_ok h
      cases h
      exact .byref (ih he)
    · obtain ⟨e, he, h⟩ := bind_ok h
      cases h
      exact .pointer (ih he)
    · split at h
      · rename_i hb
        cases h
        exact written_builtin hb
      · split at h
        · split at h
          · cases h
          · cases h
            exact .param _
        · cases h
      · split at h
        · obtain ⟨d, hd, h⟩ := bind_ok h
          cases h
          exact .defined (named_names hd)
        · split at h
          · cases h
          · obtain ⟨d, hd, h⟩ := bind_ok h
            split at h
            · cases h
            · split at h
              · cases h
              · obtain ⟨args, hargs, h⟩ := bind_ok h
                split at h
                · cases h
                · cases h
                  exact .inst (named_names hd) (forall_of_mapM_ok hargs fun _ _ ↦ ih)

theorem written_parseType {s : String} {t : Ty} (h : sc.parseType s = .ok t) : Written sc t := written_parseChars h

namespace Written

variable {t : Ty}

theorem ne_missing (h : Written sc t) : t ≠ .missing := by
  rintro rfl
  cases h

theorem exists_over (h : Written sc t) : ∃ n, t.Over n := by
  induction h with
  | void => exact ⟨0, .void⟩
  | prim p => exact ⟨0, .prim p⟩
  | param i => exact ⟨i + 1, .param (Nat.lt_succ_self i)⟩
  | byref _ ih => exact ih.imp fun _ ↦ .byref
  | pointer _ ih => exact ih.imp fun _ ↦ .pointer
  | @defined d _ => exact ⟨d.arity, .defined (Nat.le_refl _)⟩
  | inst _ _ ih => exact (Ty.Over.exists_forall ih).imp fun _ ↦ .inst

theorem subst_closed (h : Written sc t) (ht : t.isOpen = false) (args : List Ty) : t.subst args = t :=
  h.exists_over.elim fun _ hn ↦ hn.subst_closed ht args

theorem substAll_ne_missing (h : Written sc t) {args : List Ty} (hargs : ∀ a ∈ args, a ≠ .missing) :
    t.substAll args ≠ .missing := by
  intro heq
  cases h with
  | param i =>
    rw [Ty.substAll, List.getD_eq_getElem?_getD] at heq
    cases hi : args[i]? with
    | none =>
      rw [hi] at heq
      cases heq
    | some a =>
      rw [hi] at heq
      exact hargs a (List.mem_of_getElem? hi) heq
  | void => simp [Ty.substAll] at heq
  | prim p => simp [Ty.substAll] at heq
  | byref _ => simp [Ty.substAll] at heq
  | pointer _ => simp [Ty.substAll] at heq
  | defined _ =>
    rw [Ty.substAll] at heq
    split at heq <;> cases heq
  | inst _ _ =>
    rw [Ty.substAll_inst] at heq
    cases heq

theorem subst_ne_missing (h : Written sc t) {args : List Ty} (hargs : ∀ a ∈ args, a ≠ .missing) :
    t.subst args ≠ .missing := by
  rw [Ty.subst]
  split
  · exact h.ne_missing
  · exact h.substAll_ne_missing hargs

end Written

/-- Nothing belongs to a module that is yet to come. -/
structure Settled (u : Universe) : Prop where
  members : ∀ t m, t.scope = some m → u.modules.size ≤ m.index → u.recorded t = {}
  specials : ∀ t slot m, t.scope = some m → u.modules.size ≤ m.index → u.specials[MethodId.special t slot]? = none
  types : ∀ m, ∀ d ∈ u.typesOf m, d.home.index < u.modules.size

/-- A module while its types and members are defined: the types so far and their members have their rows, and its other
types, such as instances, have none recorded yet. -/
structure Declares (home : ModuleRef) (defs : List TypeDef) (u : Universe) : Prop where
  settled : Settled u
  inside : home.index < u.modules.size
  types : ∀ d ∈ defs, d.home = home ∧ (u.tables home).types[d.row]? = some d
  fields : ∀ d, d.home = home → ∀ f ∈ (u.recorded (.defined d)).fields,
    ∃ k, (u.tables home).fields[k]? = some f ∧ f.token = .make .field (k + 1)
  methods : ∀ d, d.home = home → ∀ id ∈ (u.recorded (.defined d)).methods,
    ∃ k, id = .defined home k ∧ k < (u.tables home).methods.size
  rows : ∀ (k : Nat) (m : Method), (u.tables home).methods[k]? = some m →
    m.id = .defined home k ∧ m.token = .make .method (k + 1) ∧ m.scope = home
  others : ∀ t, t.scope = some home → (∀ d, t ≠ .defined d) → u.recorded t = {}
  specials : ∀ t slot, t.scope = some home → u.specials[MethodId.special t slot]? = none

section steps

variable {home : ModuleRef} {defs : List TypeDef} {u : Universe}

theorem declares_addModule (h : Settled u) (name : String) : Declares (u.addModule name).2 [] (u.addModule name).1 := by
  have hsize : (u.addModule name).1.modules.size = u.modules.size + 1 := Array.size_push _
  have hrecorded : ∀ t, (u.addModule name).1.recorded t = u.recorded t := fun t ↦ rfl
  have htables : (u.addModule name).1.tables (u.addModule name).2 = { ref := (u.addModule name).2 } := by
    rw [Universe.tables_addModule]
    exact if_pos rfl
  have hnew : ∀ d : TypeDef, d.home = (u.addModule name).2 → u.recorded (.defined d) = {} := by
    intro d hd
    exact h.members (.defined d) d.home rfl (hd ▸ Nat.le_refl _)
  refine ⟨⟨?_, ?_, ?_⟩, ?_, List.forall_mem_nil _, ?_, ?_, ?_, ?_, ?_⟩
  · intro t m ht hm
    exact h.members t m ht (by omega)
  · intro t slot m ht hm
    exact h.specials t slot m ht (by omega)
  · intro m d hd
    rw [hsize]
    rw [Universe.typesOf, Universe.tables_addModule] at hd
    split at hd
    · cases hd
    · exact Nat.lt_succ_of_lt (h.types m d hd)
  · rw [hsize]
    exact Nat.lt_succ_self _
  · intro d hd f hf
    rw [hrecorded, hnew d hd] at hf
    simp at hf
  · intro d hd id hid
    rw [hrecorded, hnew d hd] at hid
    simp at hid
  · intro k m hm
    rw [htables] at hm
    simp at hm
  · intro t ht _
    exact h.members t _ ht (Nat.le_refl _)
  · intro t slot ht
    exact h.specials t slot _ ht (Nat.le_refl _)

variable (h : Declares home defs u)
include h

theorem Declares.modifyTables {f : ModuleTables → ModuleTables} {ts : ModuleTables} (hts : f (u.tables home) = ts)
    (htypes : (u.tables home).types.toList <+: ts.types.toList)
    (hnew : ∀ d ∈ ts.types.toList, d ∈ (u.tables home).types.toList ∨ d.home = home)
    (hfields : (u.tables home).fields.toList <+: ts.fields.toList)
    (hsize : (u.tables home).methods.size ≤ ts.methods.size)
    (hrows : ∀ (k : Nat) (m : Method), ts.methods[k]? = some m →
      m.id = .defined home k ∧ m.token = .make .method (k + 1) ∧ m.scope = home) :
    Declares home defs (u.modifyTables home f) := by
  have htables : (u.modifyTables home f).tables home = ts := (Universe.tables_modifyTables h.inside).trans hts
  refine ⟨⟨?_, ?_, ?_⟩, ?_, ?_, ?_, ?_, ?_, h.others, h.specials⟩
  · intro t m ht hm
    exact h.settled.members t m ht (by simpa using hm)
  · intro t slot m ht hm
    exact h.settled.specials t slot m ht (by simpa using hm)
  · intro m d hd
    rw [Universe.size_modifyTables]
    by_cases hm : m.index = home.index
    · rw [Universe.typesOf, Universe.tables_congr (by simpa using h.inside) hm, htables] at hd
      rcases hnew d hd with hd | rfl
      · exact h.settled.types home d hd
      · exact h.inside
    · rw [Universe.typesOf, Universe.tables_modifyTables_of_ne hm] at hd
      exact h.settled.types m d hd
  · rw [Universe.size_modifyTables]
    exact h.inside
  · intro d hd
    obtain ⟨hhome, hrow⟩ := h.types d hd
    rw [htables]
    exact ⟨hhome, getElem?_mono htypes hrow⟩
  · intro d hd g hg
    obtain ⟨k, hk, ht⟩ := h.fields d hd g hg
    refine ⟨k, ?_, ht⟩
    rw [htables]
    exact getElem?_mono hfields hk
  · intro d hd id hid
    obtain ⟨k, heq, hk⟩ := h.methods d hd id hid
    refine ⟨k, heq, ?_⟩
    rw [htables]
    exact Nat.lt_of_lt_of_le hk hsize
  · intro k m hm
    rw [htables] at hm
    exact hrows k m hm

/-- A change to the members of a type of the module that adds members with rows. -/
theorem Declares.recordMembers {d : TypeDef} (hd : d.home = home) {f : MemberList → MemberList}
    (hfields : ∀ g ∈ (f (u.recorded (.defined d))).fields, g ∈ (u.recorded (.defined d)).fields ∨
      ∃ k, (u.tables home).fields[k]? = some g ∧ g.token = .make .field (k + 1))
    (hmethods : ∀ id ∈ (f (u.recorded (.defined d))).methods, id ∈ (u.recorded (.defined d)).methods ∨
      ∃ k, id = .defined home k ∧ k < (u.tables home).methods.size) :
    Declares home defs (u.recordMembers (.defined d) f) := by
  refine ⟨⟨?_, h.settled.specials, h.settled.types⟩, h.inside, h.types, ?_, ?_, h.rows, ?_, h.specials⟩
  · intro t m ht hm
    have hne : Ty.defined d ≠ t := by
      rintro rfl
      cases ht
      exact absurd h.inside (Nat.not_lt.mpr (hd ▸ hm))
    rw [Universe.recorded_recordMembers, if_neg hne]
    exact h.settled.members t m ht hm
  · intro e he g hg
    rw [Universe.recorded_recordMembers] at hg
    split at hg
    · rename_i heq
      cases heq
      exact (hfields g hg).elim (h.fields d hd g) id
    · exact h.fields e he g hg
  · intro e he id hid
    rw [Universe.recorded_recordMembers] at hid
    split at hid
    · rename_i heq
      cases heq
      exact (hmethods id hid).elim (h.methods d hd id) fun hnew ↦ hnew
    · exact h.methods e he id hid
  · intro t ht hne
    rw [Universe.recorded_recordMembers, if_neg (hne d).symm]
    exact h.others t ht hne

theorem Declares.defineType (space name : String) (kind : DefKind) (arity : Nat) :
    Declares home (defs ++ [(u.defineType home space name kind arity).2])
    (u.defineType home space name kind arity).1 := by
  obtain ⟨d, hd⟩ : ∃ d : TypeDef, d = (u.defineType home space name kind arity).2 := ⟨_, rfl⟩
  have hdecl : Declares home defs (u.modifyTables home fun t ↦ { t with types := t.types.push d }) := by
    refine h.modifyTables rfl (by simp) ?_ (List.prefix_refl _) (Nat.le_refl _) h.rows
    intro e he
    rw [Array.toList_push, List.mem_append, List.mem_singleton] at he
    refine he.imp_right ?_
    rintro rfl
    rw [hd]
    rfl
  have hrow : ((u.modifyTables home fun t ↦ { t with types := t.types.push d }).tables home).types[d.row]? =
      some d := by
    rw [Universe.tables_modifyTables h.inside, hd]
    exact Array.getElem?_push_size
  rw [hd] at hdecl hrow
  refine { hdecl with types := ?_ }
  intro e he
  rw [List.mem_append, List.mem_singleton] at he
  rcases he with he | rfl
  · exact hdecl.types e he
  · exact ⟨rfl, hrow⟩

theorem Declares.pushField {d : TypeDef} (hd : d.home = home) {g : Field}
    (hg : g.token = .make .field ((u.tables home).fields.size + 1)) :
    Declares home defs ((u.modifyTables home fun t ↦ { t with fields := t.fields.push g }).recordMembers (.defined d)
      fun l ↦ { l with fields := l.fields.push g }) := by
  have hrow := h.modifyTables (f := fun t ↦ { t with fields := t.fields.push g }) rfl
    (List.prefix_refl _) (fun _ hd ↦ .inl hd) (by simp) (Nat.le_refl _) h.rows
  refine hrow.recordMembers hd ?_ fun id hid ↦ .inl hid
  intro g' hg'
  rw [Universe.recorded_modifyTables] at hg' ⊢
  rw [Array.mem_push] at hg'
  refine hg'.imp_right ?_
  rintro rfl
  refine ⟨(u.tables home).fields.size, ?_, hg⟩
  rw [Universe.tables_modifyTables h.inside]
  exact Array.getElem?_push_size

theorem Declares.pushMethod {d : TypeDef} (hd : d.home = home) {m : Method}
    (hm : m.id = .defined home (u.tables home).methods.size ∧
      m.token = .make .method ((u.tables home).methods.size + 1) ∧ m.scope = home) :
    Declares home defs ((u.modifyTables home fun t ↦ { t with methods := t.methods.push m }).recordMembers (.defined d)
      fun l ↦ { l with methods := l.methods.push m.id }) := by
  have hrow := h.modifyTables (f := fun t ↦ { t with methods := t.methods.push m }) rfl
    (List.prefix_refl _) (fun _ hd ↦ .inl hd) (List.prefix_refl _) (by simp) (by
      intro k m' hm'
      rw [Array.getElem?_push] at hm'
      split at hm'
      · rename_i hk
        cases hm'
        rwa [hk]
      · exact h.rows k m' hm')
  refine hrow.recordMembers hd (fun g hg ↦ .inl hg) ?_
  intro id hid
  rw [Universe.recorded_modifyTables] at hid ⊢
  rw [Array.mem_push] at hid
  refine hid.imp_right ?_
  rintro rfl
  refine ⟨(u.tables home).methods.size, hm.1, ?_⟩
  rw [Universe.tables_modifyTables h.inside]
  simp

end steps

section phases

variable {image : String} {home : ModuleRef}

theorem foldlM_keeps {α β ε : Type} {P : β → Prop} {f : β → α → Except ε β} {as : List α}
    (hstep : ∀ a ∈ as, ∀ b b', P b → f b a = .ok b' → P b') {b b' : β} (hb : P b)
    (h : as.foldlM f b = .ok b') : P b' := by
  induction as generalizing b with
  | nil =>
    cases h
    exact hb
  | cons a as ih =>
    rw [List.foldlM_cons] at h
    obtain ⟨b₁, h₁, h⟩ := bind_ok h
    exact ih (fun a' ha' ↦ hstep a' (List.mem_cons_of_mem _ ha')) (hstep a List.mem_cons_self b b₁ hb h₁) h

theorem Declares.defineTypeDecl {state state' : Universe × List TypeDef} {td : TypeDecl}
    (h : Declares home state.2 state.1) (hdef : defineTypeDecl image home state td = .ok state') :
    Declares home state'.2 state'.1 := by
  unfold Image.defineTypeDecl at hdef
  dsimp only at hdef
  split at hdef
  · cases hdef
  split at hdef
  · cases hdef
  split at hdef
  · cases hdef
  split at hdef
  · cases hdef
  cases hdef
  exact h.defineType _ _ _ _

/-- The methods so far belong to the module. -/
structure Declaring (home : ModuleRef) (defs : List TypeDef) (state : Universe × List (Method × MethodDecl)) :
    Prop where
  declares : Declares home defs state.1
  own : ∀ e ∈ state.2, ∃ k, e.1.id = .defined home k

theorem Declares.defineFieldDecl {sc : Scope} {owner : TypeDef} {u u' : Universe} {fd : FieldDecl}
    (h : Declares sc.home sc.defs u) (ho : owner.home = sc.home) (hdef : defineFieldDecl image sc owner u fd = .ok u') :
    Declares sc.home sc.defs u' := by
  unfold Image.defineFieldDecl at hdef
  dsimp only at hdef
  split at hdef
  · cases hdef
  split at hdef
  · cases hdef
  obtain ⟨t, -, hdef⟩ := bind_ok hdef
  cases hdef
  exact h.pushField ho rfl

theorem Declares.defineMethodDecl {sc : Scope} {owner : TypeDef} {u : Universe} {md : MethodDecl}
    {result : Universe × Method} (h : Declares sc.home sc.defs u) (ho : owner.home = sc.home)
    (hdef : defineMethodDecl image sc owner u md = .ok result) :
    Declares sc.home sc.defs result.1 ∧ ∃ k, result.2.id = .defined sc.home k := by
  unfold Image.defineMethodDecl at hdef
  dsimp only at hdef
  obtain ⟨params, -, hdef⟩ := bind_ok hdef
  split at hdef
  · split at hdef
    · cases hdef
    · cases hdef
      exact ⟨h.pushMethod ho ⟨rfl, rfl, rfl⟩, _, rfl⟩
  · split at hdef
    · cases hdef
    · split at hdef
      · cases hdef
        exact ⟨h.pushMethod ho ⟨rfl, rfl, rfl⟩, _, rfl⟩
      · obtain ⟨ret, -, hdef⟩ := bind_ok hdef
        cases hdef
        exact ⟨h.pushMethod ho ⟨rfl, rfl, rfl⟩, _, rfl⟩

theorem Declaring.defineMembers {sc : Scope} {entry : TypeDef × TypeDecl}
    {state state' : Universe × List (Method × MethodDecl)}
    (h : Declaring sc.home sc.defs state) (ho : entry.1.home = sc.home)
    (hdef : defineMembers image sc state entry = .ok state') : Declaring sc.home sc.defs state' := by
  unfold Image.defineMembers at hdef
  dsimp only at hdef
  obtain ⟨u, hu, hdef⟩ := bind_ok hdef
  have hfields : Declares sc.home sc.defs u :=
    foldlM_keeps (P := Declares sc.home sc.defs) (fun fd _ u u' hu hu' ↦ hu.defineFieldDecl ho hu') h.declares hu
  refine foldlM_keeps (P := Declaring sc.home sc.defs) (b := (u, state.2)) ?_ ⟨hfields, h.own⟩ hdef
  intro md _ state state' hs hstep
  obtain ⟨result, hresult, hstep⟩ := bind_ok hstep
  cases hstep
  obtain ⟨hd, hk⟩ := hs.declares.defineMethodDecl ho hresult
  refine ⟨hd, ?_⟩
  intro e he
  rcases List.mem_append.mp he with he | he
  · exact hs.own e he
  · rw [List.mem_singleton.mp he]
    exact hk

/-- What an image declares, before any body: its scope, and its methods with their declarations. -/
def declare (img : Image) (refs : List (String × ModuleRef)) (u : Universe) :
    Except BuildError (Scope × Universe × List (Method × MethodDecl)) := do
  if img.name = "" then throw ⟨"<unnamed>", "", .missingName⟩
  let imports ← img.imports.mapM fun name ↦
    (refs.lookup name).elim (throw ⟨img.name, "", .importMissing name⟩) fun m ↦ pure (name, u.typesOf m)
  let (u, home) := u.addModule img.name
  let (u, defs) ← img.typeList.foldlM (defineTypeDecl img.name home) (u, [])
  let (u, methods) ← (defs.zip img.typeList).foldlM (defineMembers img.name ⟨home, imports, defs⟩) (u, [])
  return (⟨home, imports, defs⟩, u, methods)

theorem build_eq (img : Image) (refs : List (String × ModuleRef)) (u : Universe) :
    img.build refs u = img.declare refs u >>= fun (sc, u, methods) ↦
      methods.foldlM (defineBody img.name sc) u >>= fun u ↦ pure (sc.home, u) := by
  unfold build declare
  by_cases hname : img.name = ""
  · simp only [if_pos hname]
    rfl
  · simp only [if_neg hname, bind_assoc, pure_bind]
    refine congrArg (· >>= _) (congrArg (List.mapM · img.imports) (funext fun name ↦ ?_))
    cases refs.lookup name <;> rfl

def Apart (sc : Scope) : Prop := ∀ p ∈ sc.imports, ∀ d ∈ p.2, d.home ≠ sc.home

theorem declares_declare {img : Image} {refs : List (String × ModuleRef)} {u v : Universe} {sc : Scope}
    {methods : List (Method × MethodDecl)} (hu : Settled u) (h : img.declare refs u = .ok (sc, v, methods)) :
    Apart sc ∧ sc.home = (u.addModule img.name).2 ∧ Declaring sc.home sc.defs (v, methods) := by
  unfold declare at h
  by_cases hname : img.name = ""
  · simp only [if_pos hname] at h
    cases h
  simp only [if_neg hname] at h
  obtain ⟨imports, himports, h⟩ := bind_ok h
  obtain ⟨⟨u₁, defs⟩, htypes, h⟩ := bind_ok h
  obtain ⟨⟨u₂, methods'⟩, hmembers, h⟩ := bind_ok h
  cases h
  have hdefs : Declares (u.addModule img.name).2 defs u₁ :=
    foldlM_keeps (P := fun state : Universe × List TypeDef ↦ Declares (u.addModule img.name).2 state.2 state.1)
      (fun td _ _ _ hs hstep ↦ hs.defineTypeDecl hstep) (declares_addModule hu img.name) htypes
  refine ⟨?_, rfl, ?_⟩
  · have hold : ∀ p ∈ imports, ∀ d ∈ p.2, d.home.index < u.modules.size := by
      refine forall_of_mapM_ok himports ?_
      intro name p hp
      cases hlookup : refs.lookup name with
      | none =>
        rw [hlookup] at hp
        cases hp
      | some m =>
        rw [hlookup] at hp
        cases hp
        exact hu.types _
    intro p hp d hd heq
    have hlt := hold p hp d hd
    rw [heq] at hlt
    exact Nat.lt_irrefl _ hlt
  · refine foldlM_keeps (P := Declaring (u.addModule img.name).2 defs) ?_ ⟨hdefs, List.forall_mem_nil _⟩ hmembers
    intro entry hentry state state' hs hstep
    exact Declaring.defineMembers hs (hdefs.types _ (List.of_mem_zip hentry).1).1 hstep

end phases

end CilSsa.Image

