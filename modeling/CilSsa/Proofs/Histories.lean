import CilSsa.Metadata.Lookup
import Mathlib.Data.List.Nodup

namespace CilSsa.Metadata

theorem getElem?_mono {α : Type} {xs ys : Array α} (h : xs.toList <+: ys.toList) {k : Nat} {a : α}
    (hk : xs[k]? = some a) : ys[k]? = some a := by
  obtain ⟨rest, hrest⟩ := h
  rw [← Array.getElem?_toList] at hk ⊢
  rw [← hrest, List.getElem?_append_left (List.getElem?_eq_some_iff.mp hk).1, hk]

namespace Token

theorem toNat_make (table : Table) (row : Nat) :
    (make table row).raw.toNat = table.number * 0x1000000 + row % 0x1000000 := by
  rw [make, ofParts, UInt32.toNat_ofNat']
  have hrow := Nat.mod_lt row (show 0 < 0x1000000 by decide)
  cases table <;> simp only [Table.number] <;> omega

@[simp] theorem row_make (table : Table) (row : Nat) : (make table row).row = row % 0x1000000 := by
  rw [Token.row, toNat_make]
  omega

@[simp] theorem table?_make (table : Table) (row : Nat) : (make table row).table? = some table := by
  have htable : (make table row).tableNumber = table.number := by
    rw [tableNumber, toNat_make]
    omega
  rw [table?, htable]
  cases table <;> rfl

theorem make_inj {table table' : Table} {row row' : Nat} (hrow : row < 0x1000000) (hrow' : row' < 0x1000000)
    (h : make table row = make table' row') : table = table' ∧ row = row' := by
  have htable := congrArg Token.table? h
  have hsame := congrArg Token.row h
  rw [table?_make, table?_make] at htable
  rw [row_make, row_make, Nat.mod_eq_of_lt hrow, Nat.mod_eq_of_lt hrow'] at hsame
  exact ⟨Option.some.inj htable, hsame⟩

theorem make_wraps (table : Table) (row : Nat) : make table (row + 0x1000000) = make table row := by
  rw [make, make, ofParts, ofParts, Nat.add_mod_right]

end Token

theorem rowAt?_make {α : Type} {rows : Array α} (table : Table) {k : Nat} {a : α} (hk : k + 1 < 0x1000000)
    (h : rows[k]? = some a) : rowAt? rows (.make table (k + 1)) = some a := by
  rw [rowAt?, Token.row_make, Nat.mod_eq_of_lt hk, if_neg (Nat.succ_ne_zero k), Nat.add_sub_cancel, h]

namespace Universe

section tables

variable {u : Universe} {home m : ModuleRef} {f : ModuleTables → ModuleTables}

theorem tables_modifyTables (h : home.index < u.modules.size) : (u.modifyTables home f).tables home =
    f (u.tables home) := by
  simp [tables, modifyTables, Array.getD_eq_getD_getElem?, Array.getElem_modify, h]

theorem tables_modifyTables_of_ne (h : m.index ≠ home.index) : (u.modifyTables home f).tables m = u.tables m := by
  simp [tables, modifyTables, Array.getD_eq_getD_getElem?, Array.getElem?_modify, h.symm]

theorem tables_congr (h : home.index < u.modules.size) (hm : m.index = home.index) : u.tables m = u.tables home := by
  simp [tables, Array.getD_eq_getD_getElem?, hm, h]

@[simp] theorem size_modifyTables : (u.modifyTables home f).modules.size = u.modules.size := by
  simp [modifyTables]

@[simp] theorem recorded_modifyTables (t : Ty) : (u.modifyTables home f).recorded t = u.recorded t := rfl

@[simp] theorem tables_recordMembers (t : Ty) (g : MemberList → MemberList) (m : ModuleRef) :
    (u.recordMembers t g).tables m = u.tables m := rfl

theorem recorded_recordMembers (t t' : Ty) (g : MemberList → MemberList) :
    (u.recordMembers t g).recorded t' = if t = t' then g (u.recorded t) else u.recorded t' := by
  rw [recorded, recordMembers, Std.HashMap.getD_insert]
  simp only [beq_iff_eq]
  rfl

theorem tables_addModule (name : String) (m : ModuleRef) : (u.addModule name).1.tables m =
    if m.index = u.modules.size then { ref := ⟨u.modules.size, name⟩ } else u.tables m := by
  simp only [tables, addModule, Array.getD_eq_getD_getElem?, Array.getElem?_push]
  split <;> rfl

end tables

section members

variable {u : Universe} {g : Ty} {args : List Ty}

theorem membersOf_fresh (h : u.recorded (.inst g args) = {}) :
    u.membersOf (.inst g args) =
      { fields := (u.recorded g).fields.map fun f ↦ f.specialise (.inst g args) args
        methods := (Array.range (u.recorded g).methods.size).map (.special (.inst g args))
        opened := true } := by
  simp [membersOf, h]

theorem method?_special {home : ModuleRef} {slot k : Nat} {m : Method}
    (hfresh : u.specials[MethodId.special (.inst g args) slot]? = none)
    (hslot : (u.recorded g).methods[slot]? = some (.defined home k)) (hrow : u.definedMethod? home k = some m) :
    u.method? (.special (.inst g args) slot) = some (m.specialise (.inst g args) slot args) := by
  simp [method?, hfresh, hslot, hrow]

theorem recorded_openType (t t' : Ty) : (u.openType t).recorded t' = if t = t' then u.membersOf t else
    u.recorded t' := by
  have hself : u.membersOf t = u.recorded t → u.recorded t' = if t = t' then u.membersOf t else u.recorded t' := by
    intro h
    split
    · rename_i heq
      rw [h, heq]
    · rfl
  unfold openType
  split
  · rename_i g args
    split
    · rename_i hopened
      exact hself (by simp [membersOf, hopened])
    · rw [recorded, Std.HashMap.getD_insert]
      simp only [beq_iff_eq]
      rfl
  · rename_i hne
    refine hself ?_
    cases t with
    | inst g args => exact absurd rfl (hne g args)
    | _ => rfl

end members

section entries

variable {u : Universe} {home : ModuleRef} {k : Nat} (args : Option (List Ty))

theorem resolveType_typeDef {d : TypeDef} (hk : k + 1 < 0x1000000) (hrow : (u.tables home).types[k]? = some d) :
    u.resolveType home (.make .typeDef (k + 1)) none = .ok (.defined d) := by
  simp only [resolveType, Token.table?_make, rowAt?_make _ hk hrow]
  rfl

theorem resolveType_typeSpec {t : Ty} (hk : k + 1 < 0x1000000) (hrow : (u.tables home).specs[k]? = some t) :
    u.resolveType home (.make .typeSpec (k + 1)) args =
      if t.isOpen && args.isNone then .error (.openSpec (.make .typeSpec (k + 1)) home.name) else .ok
      (args.elim t t.subst) := by
  simp only [resolveType, Token.table?_make, rowAt?_make _ hk hrow]
  cases args <;> cases t.isOpen <;> rfl

theorem resolveField_field {f : Field} (hk : k + 1 < 0x1000000) (hrow : (u.tables home).fields[k]? = some f) :
    u.resolveField home (.make .field (k + 1)) args = .ok f := by
  simp only [resolveField, Token.table?_make, rowAt?_make _ hk hrow]
  rfl

theorem resolveMethod_method {m : Method} (hk : k + 1 < 0x1000000) (hrow : (u.tables home).methods[k]? = some m) :
    u.resolveMethod home (.make .method (k + 1)) args = .ok m := by
  simp only [resolveMethod, Token.table?_make, rowAt?_make _ hk hrow]
  rfl

/-- A member is searched by its name in the type that the row means with the type arguments. -/
theorem resolveField_memberRef {r : MemberRef} (hr : r.isField = true) (hk : k + 1 < 0x1000000)
    (hrow : (u.tables home).memberRefs[k]? = some r) :
    u.resolveField home (.make .memberRef (k + 1)) args =
      memberParent home r (.make .memberRef (k + 1)) args >>= fun parent ↦
        (u.fieldByName parent r.name).elim (.error (.noField r.name parent)) .ok := by
  simp only [resolveField, Token.table?_make, rowAt?_make _ hk hrow, hr]
  refine congrArg (memberParent home r _ args >>= ·) (funext fun parent ↦ ?_)
  cases u.fieldByName parent r.name <;> rfl

theorem resolveMethod_memberRef {r : MemberRef} (hr : r.isField = false) (hk : k + 1 < 0x1000000)
    (hrow : (u.tables home).memberRefs[k]? = some r) :
    u.resolveMethod home (.make .memberRef (k + 1)) args =
      memberParent home r (.make .memberRef (k + 1)) args >>= fun parent ↦
        (u.methodByName parent r.name r.params).elim (.error (.noMethod r.name r.params parent)) .ok := by
  simp only [resolveMethod, Token.table?_make, rowAt?_make _ hk hrow, hr]
  refine congrArg (memberParent home r _ args >>= ·) (funext fun parent ↦ ?_)
  cases u.methodByName parent r.name r.params <;> rfl

theorem memberParent_closed {r : MemberRef} {t : Token} (h : r.parent.isOpen = false) :
    memberParent home r t args = .ok r.parent := by
  simp [memberParent, h]

end entries

end Universe

/-- A change to the modules, each given by its place. -/
inductive Change
  | addModule (name : String)
  | defineType (home : Nat) (space name : String) (kind : DefKind) (arity : Nat)
  | defineField (home : Nat) (owner : Ty) (name : String) (type : Ty) (isStatic : Bool)
  | defineMethod (home : Nat) (owner : Option Ty) (name : String) (isStatic : Bool) (ret : Ty) (params : List Ty)
  | defineConstructor (home : Nat) (owner : Option Ty) (params : List Ty)
  | addTypeSpec (home : Nat) (t : Ty)
  | addMemberRef (home : Nat) (r : MemberRef)
  | setBody (home row : Nat) (body : Body)
  | openType (t : Ty)
  | setInstanceBody (t : Ty) (slot : Nat) (body : Body)

/-- What a token is handed out for. -/
inductive Entity
  | type (d : TypeDef)
  | field (f : Field)
  | method (m : Method)
  | spec (t : Ty)
  | member (r : MemberRef)

def Entity.table : Entity → Table
  | .type _ => .typeDef
  | .field _ => .field
  | .method _ => .method
  | .spec _ => .typeSpec
  | .member _ => .memberRef

/-- A token that a module has handed out, with the place of its row. -/
structure Minted where
  home : ModuleRef
  place : Nat
  token : Token
  entity : Entity

def ModuleTables.rows (ts : ModuleTables) : Table → Nat
  | .typeDef => ts.types.size
  | .field => ts.fields.size
  | .method => ts.methods.size
  | .typeSpec => ts.specs.size
  | .memberRef => ts.memberRefs.size

namespace Universe

variable (u : Universe)

/-- A step of a module that hands out a token; without the module nothing happens. -/
def mint (home : Nat) (f : ModuleRef → Universe × Token × Entity) : Universe × Option Minted :=
  match u.modules[home]? with
  | none => (u, none)
  | some ts =>
    let (v, token, entity) := f ts.ref
    (v, some ⟨ts.ref, ts.rows entity.table, token, entity⟩)

/-- The universe after a change, and the token handed out. The methods of an instance are reached by opening it. -/
def act : Change → Universe × Option Minted
  | .addModule name => ((u.addModule name).1, none)
  | .defineType home space name kind arity => u.mint home fun m ↦
    let (v, d) := u.defineType m space name kind arity
    (v, d.token, .type d)
  | .defineField home owner name type isStatic => u.mint home fun m ↦
    let (v, f) := u.defineField m owner name type isStatic
    (v, f.token, .field f)
  | .defineMethod home owner name isStatic ret params => u.mint home fun m ↦
    let (v, method) := u.defineMethod m owner name isStatic ret params
    (v, method.token, .method method)
  | .defineConstructor home owner params => u.mint home fun m ↦
    let (v, method) := u.defineConstructor m owner params
    (v, method.token, .method method)
  | .addTypeSpec home t => u.mint home fun m ↦
    let (v, token) := u.addTypeSpec m t
    (v, token, .spec t)
  | .addMemberRef home r => u.mint home fun m ↦
    let (v, token) := u.addMemberRef m r
    (v, token, .member r)
  | .setBody home row body => ((u.modules[home]?).elim u fun ts ↦ u.setBody (.defined ts.ref row) body, none)
  | .openType t => (u.openType t, none)
  | .setInstanceBody t slot body => ((u.openType t).setBody (.special t slot) body, none)

/-- The universe after some changes, and the tokens handed out on the way. -/
def run (u : Universe) : List Change → Universe × List Minted
  | [] => (u, [])
  | a :: as =>
    let (v, made) := u.act a
    let (w, rest) := v.run as
    (w, made.toList ++ rest)

def Indexed : Prop := ∀ (i : Nat) (ts : ModuleTables), u.modules[i]? = some ts → ts.ref.index = i

end Universe

/-- Tables that have grown; of a method only the body has changed. -/
structure ModuleTables.Extends (ts ts' : ModuleTables) : Prop where
  ref : ts'.ref = ts.ref
  types : ts.types.toList <+: ts'.types.toList
  specs : ts.specs.toList <+: ts'.specs.toList
  fields : ts.fields.toList <+: ts'.fields.toList
  memberRefs : ts.memberRefs.toList <+: ts'.memberRefs.toList
  methods : ∀ (k : Nat) (m : Method), ts.methods[k]? = some m → ∃ body, ts'.methods[k]? = some { m with body }

def Universe.Extends (u v : Universe) : Prop :=
  ∀ (i : Nat) (ts : ModuleTables), u.modules[i]? = some ts → ∃ ts', v.modules[i]? = some ts' ∧ ts.Extends ts'

/-- The row at a place holds the entity, a method with the body that it has by now. -/
def Entity.StandsAt (ts : ModuleTables) (k : Nat) : Entity → Prop
  | .type d => ts.types[k]? = some d
  | .field f => ts.fields[k]? = some f
  | .method m => ∃ body, ts.methods[k]? = some { m with body }
  | .spec t => ts.specs[k]? = some t
  | .member r => ts.memberRefs[k]? = some r

def Minted.Stands (e : Minted) (u : Universe) : Prop :=
  e.token = .make e.entity.table (e.place + 1) ∧
    ∃ ts, u.modules[e.home.index]? = some ts ∧ ts.ref = e.home ∧ e.entity.StandsAt ts e.place

section growth

variable {ts ts' ts'' : ModuleTables} {u v w : Universe}

namespace ModuleTables.Extends

theorem refl (ts : ModuleTables) : ts.Extends ts :=
  ⟨rfl, List.prefix_refl _, List.prefix_refl _, List.prefix_refl _, List.prefix_refl _, fun _ m hm ↦ ⟨m.body, hm⟩⟩

theorem trans (h : ts.Extends ts') (h' : ts'.Extends ts'') : ts.Extends ts'' := by
  refine ⟨h'.ref.trans h.ref, h.types.trans h'.types, h.specs.trans h'.specs, h.fields.trans h'.fields,
    h.memberRefs.trans h'.memberRefs, fun k m hm ↦ ?_⟩
  obtain ⟨body, hbody⟩ := h.methods k m hm
  obtain ⟨body', hbody'⟩ := h'.methods k _ hbody
  exact ⟨body', hbody'⟩

theorem standsAt (h : ts.Extends ts') {k : Nat} {e : Entity} (he : e.StandsAt ts k) : e.StandsAt ts' k := by
  cases e with
  | type d => exact getElem?_mono h.types he
  | field f => exact getElem?_mono h.fields he
  | spec t => exact getElem?_mono h.specs he
  | member r => exact getElem?_mono h.memberRefs he
  | method m =>
    obtain ⟨body, hm⟩ := he
    obtain ⟨body', hm'⟩ := h.methods k _ hm
    exact ⟨body', hm'⟩

theorem rows_le (h : ts.Extends ts') (table : Table) : ts.rows table ≤ ts'.rows table := by
  cases table with
  | typeDef => exact h.types.length_le
  | field => exact h.fields.length_le
  | typeSpec => exact h.specs.length_le
  | memberRef => exact h.memberRefs.length_le
  | method =>
    -- A last row that is still there is not beyond the end.
    refine Nat.le_of_not_lt fun hlt ↦ ?_
    obtain ⟨body, hbody⟩ := h.methods _ _ (Array.getElem?_eq_getElem hlt)
    exact Nat.lt_irrefl _ (Array.getElem?_eq_some_iff.mp hbody).1

theorem pushMethod (ts : ModuleTables) (m : Method) : ts.Extends { ts with methods := ts.methods.push m } := by
  refine { refl ts with methods := fun k m' hm' ↦ ⟨m'.body, ?_⟩ }
  have hprefix : ts.methods.toList <+: (ts.methods.push m).toList := by simp
  exact getElem?_mono hprefix hm'

theorem setBody (ts : ModuleTables) (row : Nat) (body : Body) :
    ts.Extends { ts with methods := ts.methods.modify row fun m ↦ { m with body := some body } } := by
  refine { refl ts with methods := fun k m hm ↦ ?_ }
  dsimp only
  rw [Array.getElem?_modify, hm]
  split
  · exact ⟨some body, rfl⟩
  · exact ⟨m.body, rfl⟩

end ModuleTables.Extends

theorem Entity.StandsAt.lt {k : Nat} {e : Entity} (he : e.StandsAt ts k) : k < ts.rows e.table := by
  cases e with
  | type d => exact (Array.getElem?_eq_some_iff.mp he).1
  | field f => exact (Array.getElem?_eq_some_iff.mp he).1
  | spec t => exact (Array.getElem?_eq_some_iff.mp he).1
  | member r => exact (Array.getElem?_eq_some_iff.mp he).1
  | method m =>
    obtain ⟨body, hm⟩ := he
    exact (Array.getElem?_eq_some_iff.mp hm).1

namespace Universe

theorem Extends.refl (u : Universe) : u.Extends u := fun _ ts hts ↦ ⟨ts, hts, .refl ts⟩

theorem Extends.trans (h : u.Extends v) (h' : v.Extends w) : u.Extends w := by
  intro i ts hts
  obtain ⟨ts', hts', he⟩ := h i ts hts
  obtain ⟨ts'', hts'', he'⟩ := h' i ts' hts'
  exact ⟨ts'', hts'', he.trans he'⟩

theorem Extends.stands {e : Minted} (h : u.Extends v) (he : e.Stands u) : e.Stands v := by
  obtain ⟨htoken, ts, hts, href, he⟩ := he
  obtain ⟨ts', hts', hext⟩ := h _ ts hts
  exact ⟨htoken, ts', hts', hext.ref.trans href, hext.standsAt he⟩

theorem extends_addModule (name : String) : u.Extends (u.addModule name).1 := by
  intro i ts hts
  refine ⟨ts, ?_, .refl ts⟩
  have hprefix : u.modules.toList <+: (u.addModule name).1.modules.toList := by simp [addModule]
  exact getElem?_mono hprefix hts

theorem extends_modifyTables {m : ModuleRef} {f : ModuleTables → ModuleTables}
    (hf : ∀ ts : ModuleTables, ts.Extends (f ts)) : u.Extends (u.modifyTables m f) := by
  intro i ts hts
  rw [modifyTables]
  dsimp only
  rw [Array.getElem?_modify, hts]
  split
  · exact ⟨f ts, rfl, hf ts⟩
  · exact ⟨ts, rfl, .refl ts⟩

theorem extends_of_modules (h : v.modules = u.modules) : u.Extends v := fun _ ts hts ↦ ⟨ts, h ▸ hts, .refl ts⟩

theorem modules_openType (t : Ty) : (u.openType t).modules = u.modules := by
  unfold openType
  split
  · split <;> rfl
  · rfl

theorem modules_setBody_special (t : Ty) (slot : Nat) (body : Body) :
    (u.setBody (.special t slot) body).modules = u.modules := by
  unfold setBody
  dsimp only
  split <;> rfl

theorem extends_setBody (m : ModuleRef) (row : Nat) (body : Body) : u.Extends (u.setBody (.defined m row) body) :=
  extends_modifyTables fun ts ↦ .setBody ts row body

/-- A step of a module makes a row for an entity at the end of its table. -/
structure Adds (u : Universe) (m : ModuleRef) (r : Universe × Token × Entity) : Prop where
  grows : u.Extends r.1
  size : r.1.modules.size = u.modules.size
  token : r.2.1 = .make r.2.2.table ((u.tables m).rows r.2.2.table + 1)
  stands : m.index < u.modules.size → r.2.2.StandsAt (r.1.tables m) ((u.tables m).rows r.2.2.table)

section adds

variable (m : ModuleRef)

theorem adds_type (space name : String) (kind : DefKind) (arity : Nat) :
    u.Adds m ((u.defineType m space name kind arity).1, (u.defineType m space name kind arity).2.token,
      .type (u.defineType m space name kind arity).2) where
  grows := extends_modifyTables fun ts ↦ { ModuleTables.Extends.refl ts with types := by simp }
  size := size_modifyTables
  token := by
    dsimp only [defineType, TypeDef.token, Entity.table, ModuleTables.rows]
  stands hm := by
    dsimp only [defineType, Entity.table, Entity.StandsAt, ModuleTables.rows]
    rw [tables_modifyTables hm]
    exact Array.getElem?_push_size

theorem adds_field (owner : Ty) (name : String) (type : Ty) (isStatic : Bool) :
    u.Adds m ((u.defineField m owner name type isStatic).1, (u.defineField m owner name type isStatic).2.token,
      .field (u.defineField m owner name type isStatic).2) where
  grows := extends_modifyTables fun ts ↦ { ModuleTables.Extends.refl ts with fields := by simp }
  size := size_modifyTables
  token := by
    dsimp only [defineField, Entity.table, ModuleTables.rows]
  stands hm := by
    dsimp only [defineField, Entity.table, Entity.StandsAt, ModuleTables.rows]
    rw [tables_recordMembers, tables_modifyTables hm]
    exact Array.getElem?_push_size

theorem adds_method (owner : Option Ty) {build : MethodId → Token → Method}
    (hbuild : ∀ id token, (build id token).token = token) :
    u.Adds m ((u.addMethod m owner build).1, (u.addMethod m owner build).2.token,
    .method (u.addMethod m owner build).2) where
  grows := by
    cases owner <;> exact extends_modifyTables fun ts ↦ .pushMethod ts _
  size := by
    cases owner <;> exact size_modifyTables
  token := by
    cases owner <;> exact hbuild _ _
  stands hm := by
    refine ⟨(u.addMethod m owner build).2.body, ?_⟩
    have htables : (u.addMethod m owner build).1.tables m =
        { u.tables m with methods := (u.tables m).methods.push (u.addMethod m owner build).2 } := by
      cases owner <;> exact tables_modifyTables hm
    dsimp only [Entity.table, ModuleTables.rows]
    rw [htables]
    exact Array.getElem?_push_size

theorem adds_defineMethod (owner : Option Ty) (name : String) (isStatic : Bool) (ret : Ty) (params : List Ty) :
    u.Adds m ((u.defineMethod m owner name isStatic ret params).1,
    (u.defineMethod m owner name isStatic ret params).2.token,
      .method (u.defineMethod m owner name isStatic ret params).2) := by
  unfold defineMethod
  exact adds_method m owner fun _ _ ↦ rfl

theorem adds_constructor (owner : Option Ty) (params : List Ty) :
    u.Adds m ((u.defineConstructor m owner params).1, (u.defineConstructor m owner params).2.token,
      .method (u.defineConstructor m owner params).2) := by
  unfold defineConstructor
  exact adds_method m owner fun _ _ ↦ rfl

theorem adds_typeSpec (t : Ty) : u.Adds m ((u.addTypeSpec m t).1, (u.addTypeSpec m t).2, .spec t) where
  grows := extends_modifyTables fun ts ↦ { ModuleTables.Extends.refl ts with specs := by simp }
  size := size_modifyTables
  token := by
    dsimp only [addTypeSpec, Entity.table, ModuleTables.rows]
  stands hm := by
    dsimp only [addTypeSpec, Entity.table, Entity.StandsAt, ModuleTables.rows]
    rw [tables_modifyTables hm]
    exact Array.getElem?_push_size

theorem adds_memberRef (r : MemberRef) : u.Adds m ((u.addMemberRef m r).1, (u.addMemberRef m r).2, .member r) where
  grows := extends_modifyTables fun ts ↦ { ModuleTables.Extends.refl ts with memberRefs := by simp }
  size := size_modifyTables
  token := by
    dsimp only [addMemberRef, Entity.table, ModuleTables.rows]
  stands hm := by
    dsimp only [addMemberRef, Entity.table, Entity.StandsAt, ModuleTables.rows]
    rw [tables_modifyTables hm]
    exact Array.getElem?_push_size

end adds

theorem Indexed.tables {i : Nat} (h : u.Indexed) (hts : u.modules[i]? = some ts) : u.tables ts.ref = ts := by
  rw [Universe.tables, h i ts hts, Array.getD_eq_getD_getElem?, hts]
  rfl

theorem Indexed.grow (h : u.Indexed) (hext : u.Extends v) (hsize : v.modules.size = u.modules.size) : v.Indexed := by
  intro i ts' hts'
  have hi : i < u.modules.size := hsize ▸ (Array.getElem?_eq_some_iff.mp hts').1
  obtain ⟨ts, hts, he⟩ := hext i _ (Array.getElem?_eq_getElem hi)
  rw [hts'] at hts
  cases hts
  rw [he.ref]
  exact h i _ (Array.getElem?_eq_getElem hi)

theorem indexed_addModule (h : u.Indexed) (name : String) : (u.addModule name).1.Indexed := by
  intro i ts hts
  rw [addModule] at hts
  dsimp only at hts
  rw [Array.getElem?_push] at hts
  split at hts
  · rename_i hi
    cases hts
    exact hi.symm
  · exact h i ts hts

/-- What every change keeps, and what it adds. -/
structure Steps (u : Universe) (r : Universe × Option Minted) : Prop where
  grows : u.Extends r.1
  indexed : r.1.Indexed
  minted : ∀ e, r.2 = some e → e.Stands r.1 ∧ ∃ ts, u.modules[e.home.index]? = some ts ∧
    e.place = ts.rows e.entity.table

theorem Steps.quiet (h : u.Indexed) (hext : u.Extends v) (hsize : v.modules.size = u.modules.size) :
    u.Steps (v, none) :=
  ⟨hext, h.grow hext hsize, nofun⟩

theorem steps_mint (h : u.Indexed) (home : Nat) {f : ModuleRef → Universe × Token × Entity} (hf : ∀ m, u.Adds m (f m)) :
    u.Steps (u.mint home f) := by
  rw [mint]
  split
  · exact .quiet h (.refl u) rfl
  · rename_i ts hts
    obtain ⟨hgrows, hsize, htoken, hstands⟩ := hf ts.ref
    have hindexed := h.grow hgrows hsize
    rw [h.tables hts] at htoken hstands
    have hplace := h home ts hts
    refine ⟨hgrows, hindexed, ?_⟩
    rintro e ⟨⟩
    obtain ⟨ts', hts', hext⟩ := hgrows _ _ hts
    refine ⟨⟨htoken, ts', ?_, hext.ref, ?_⟩, ts, ?_, rfl⟩
    · rwa [← hplace] at hts'
    · have heq := hindexed.tables hts'
      rw [hext.ref] at heq
      rw [← heq]
      exact hstands (hplace ▸ (Array.getElem?_eq_some_iff.mp hts).1)
    · rwa [← hplace] at hts

theorem steps_act (h : u.Indexed) (a : Change) : u.Steps (u.act a) := by
  cases a with
  | addModule name => exact ⟨extends_addModule name, indexed_addModule h name, nofun⟩
  | defineType home space name kind arity => exact steps_mint h home fun m ↦ adds_type m space name kind arity
  | defineField home owner name type isStatic => exact steps_mint h home fun m ↦ adds_field m owner name type isStatic
  | defineMethod home owner name isStatic ret params =>
    exact steps_mint h home fun m ↦ adds_defineMethod m owner name isStatic ret params
  | defineConstructor home owner params => exact steps_mint h home fun m ↦ adds_constructor m owner params
  | addTypeSpec home t => exact steps_mint h home fun m ↦ adds_typeSpec m t
  | addMemberRef home r => exact steps_mint h home fun m ↦ adds_memberRef m r
  | setBody home row body =>
    refine .quiet h ?_ ?_
    · cases u.modules[home]? with
      | none => exact .refl u
      | some ts => exact extends_setBody ts.ref row body
    · cases u.modules[home]? with
      | none => rfl
      | some ts => exact size_modifyTables
  | openType t => exact .quiet h (extends_of_modules (modules_openType t)) (congrArg _ (modules_openType t))
  | setInstanceBody t slot body =>
    have hmodules := (modules_setBody_special t slot body).trans (modules_openType (u := u) t)
    exact .quiet h (extends_of_modules hmodules) (congrArg _ hmodules)

end Universe

end growth

section runs

variable {u : Universe}

namespace Universe

theorem indexed_empty : Indexed {} := by
  intro i ts hts
  simp at hts

theorem run_cons (a : Change) (as : List Change) :
    u.run (a :: as) = (((u.act a).1.run as).1, (u.act a).2.toList ++ ((u.act a).1.run as).2) := rfl

theorem extends_run (h : u.Indexed) (as : List Change) : u.Extends (u.run as).1 ∧ (u.run as).1.Indexed := by
  induction as generalizing u with
  | nil => exact ⟨.refl u, h⟩
  | cons a as ih =>
    have hstep := steps_act h a
    obtain ⟨hext, hindexed⟩ := ih hstep.indexed
    exact ⟨hstep.grows.trans hext, hindexed⟩

theorem stands_run (h : u.Indexed) (as : List Change) : ∀ e ∈ (u.run as).2, e.Stands (u.run as).1 := by
  induction as generalizing u with
  | nil => exact List.forall_mem_nil _
  | cons a as ih =>
    have hstep := steps_act h a
    intro e he
    rw [run_cons] at he ⊢
    rcases List.mem_append.mp he with he | he
    · exact (extends_run hstep.indexed as).1.stands (hstep.minted e (Option.mem_toList.mp he)).1
    · exact ih hstep.indexed e he

theorem rows_le_of_run (h : u.Indexed) (as : List Change) {e : Minted} (he : e ∈ (u.run as).2) {ts : ModuleTables}
    (hts : u.modules[e.home.index]? = some ts) : ts.rows e.entity.table ≤ e.place := by
  induction as generalizing u ts with
  | nil => cases he
  | cons a as ih =>
    have hstep := steps_act h a
    rw [run_cons] at he
    rcases List.mem_append.mp he with he | he
    · obtain ⟨-, ts', hts', hplace⟩ := hstep.minted e (Option.mem_toList.mp he)
      rw [hts] at hts'
      cases hts'
      exact Nat.le_of_eq hplace.symm
    · obtain ⟨ts', hts', hext⟩ := hstep.grows _ _ hts
      exact Nat.le_trans (hext.rows_le _) (ih hstep.indexed he hts')

theorem places_run (h : u.Indexed) (as : List Change) : (u.run as).2.Pairwise fun e e' ↦
    e.home = e'.home → e.entity.table = e'.entity.table → e.place < e'.place := by
  induction as generalizing u with
  | nil => exact .nil
  | cons a as ih =>
    have hstep := steps_act h a
    rw [run_cons, List.pairwise_append]
    refine ⟨?_, ih hstep.indexed, ?_⟩
    · cases (u.act a).2 <;> simp
    · intro e he e' he' hhome htable
      obtain ⟨⟨-, ts, hts, -, hstands⟩, -⟩ := hstep.minted e (Option.mem_toList.mp he)
      rw [hhome] at hts
      have hle := rows_le_of_run hstep.indexed as he' hts
      exact Nat.lt_of_lt_of_le hstands.lt (htable ▸ hle)

end Universe

end runs

def First {α : Type} (p : α → Prop) (as : List α) (a : α) : Prop :=
  ∃ before after, as = before ++ a :: after ∧ p a ∧ ∀ b ∈ before, ¬ p b

/-- Without type arguments the token names the entity: a definition itself, a method with the body that it has by now, a
closed type, or the first member of a closed type that has the name and, if it is a method, the number of parameters. -/
def Entity.NamedBy (u : Universe) (home : ModuleRef) (token : Token) : Entity → Prop
  | .type d => u.resolveType home token none = .ok (.defined d)
  | .field f => u.resolveField home token none = .ok f
  | .method m => ∃ body, u.resolveMethod home token none = .ok { m with body }
  | .spec t => t.isOpen = false → u.resolveType home token none = .ok t
  | .member r => r.parent.isOpen = false →
    if r.isField then ∀ f, u.resolveField home token none = .ok f ↔ First (·.name = r.name) (u.fields r.parent) f
    else ∀ m, u.resolveMethod home token none = .ok m ↔
      First (fun m ↦ m.name = r.name ∧ (r.params < 0 ∨ m.params.length = r.params)) (u.methods r.parent) m

section tokens

variable {u : Universe}

theorem find?_eq_first {α : Type} {p : α → Bool} {q : α → Prop} (hp : ∀ a, p a = true ↔ q a) {as : List α} {a : α} :
    as.find? p = some a ↔ First q as a := by
  rw [List.find?_eq_some_iff_append, First]
  refine ⟨?_, ?_⟩
  · rintro ⟨ha, before, after, rfl, hbefore⟩
    exact ⟨before, after, rfl, (hp a).mp ha, fun b hb hq ↦ by simpa [(hp b).mpr hq] using hbefore b hb⟩
  · rintro ⟨before, after, rfl, ha, hbefore⟩
    exact ⟨(hp a).mpr ha, before, after, rfl, fun b hb ↦ by simpa using fun h ↦ hbefore b hb ((hp b).mp h)⟩

theorem elim_eq_ok {α ε : Type} {o : Option α} {e : ε} {a : α} : o.elim (.error e) .ok = Except.ok a ↔ o = some a := by
  cases o <;> simp

theorem Minted.Stands.named {e : Minted} (hu : u.Indexed) (he : e.Stands u) (hfit : e.place + 1 < 0x1000000) :
    e.entity.NamedBy u e.home e.token := by
  obtain ⟨home, place, token, entity⟩ := e
  obtain ⟨htoken, ts, hts, href, hrow⟩ := he
  dsimp only at htoken hts href hrow hfit ⊢
  obtain rfl : u.tables home = ts := href ▸ hu.tables hts
  rw [htoken]
  cases entity with
  | type d => exact Universe.resolveType_typeDef hfit hrow
  | field f => exact Universe.resolveField_field none hfit hrow
  | method m =>
    obtain ⟨body, hrow⟩ := hrow
    exact ⟨body, Universe.resolveMethod_method none hfit hrow⟩
  | spec t =>
    intro hclosed
    rw [Entity.table, Universe.resolveType_typeSpec none hfit hrow, hclosed]
    rfl
  | member r =>
    intro hclosed
    split
    · rename_i hr
      intro f
      rw [Entity.table, Universe.resolveField_memberRef none hr hfit hrow, Universe.memberParent_closed none hclosed]
      exact elim_eq_ok.trans (find?_eq_first (by simp))
    · rename_i hr
      intro m
      rw [Entity.table, Universe.resolveMethod_memberRef none (Bool.eq_false_iff.mpr hr) hfit hrow,
        Universe.memberParent_closed none hclosed]
      exact elim_eq_ok.trans (find?_eq_first (by simp))

/-- In every history, each token whose row fits names what it was handed out for, whatever was added since, and two such
tokens of a module differ. -/
theorem minted_named (as : List Change) :
    (∀ e ∈ (Universe.run {} as).2, e.place + 1 < 0x1000000 → e.entity.NamedBy (Universe.run {} as).1 e.home e.token) ∧
      (Universe.run {} as).2.Pairwise fun e e' ↦
        e.home = e'.home → e.place + 1 < 0x1000000 → e'.place + 1 < 0x1000000 → e.token ≠ e'.token := by
  have hindexed := (Universe.extends_run Universe.indexed_empty as).2
  have hstands := Universe.stands_run Universe.indexed_empty as
  refine ⟨fun e he hfit ↦ (hstands e he).named hindexed hfit, ?_⟩
  have hplaced := Universe.places_run Universe.indexed_empty as
  refine hplaced.imp_of_mem fun {e e'} he he' hplaces hhome hfit hfit' htoken ↦ ?_
  rw [(hstands e he).1, (hstands e' he').1] at htoken
  obtain ⟨htable, hplace⟩ := Token.make_inj hfit hfit' htoken
  exact absurd (Nat.succ.inj hplace) (Nat.ne_of_lt (hplaces hhome htable))

/-- A type, a reference to it and one more type after it. -/
theorem minted_named_later :
    let as : List Change := [.addModule "M", .defineType 0 "N" "P" .valueType 0, .addTypeSpec 0 (.byref (.prim .int32)),
      .addTypeSpec 0 (.prim .int64)]
    (Universe.run {} as).2.map (·.token.raw) = [0x02000001, 0x1b000001, 0x1b000002] ∧
      (Universe.run {} as).1.resolveType ⟨0, "M"⟩ ⟨0x1b000001⟩ none = .ok (.byref (.prim .int32)) ∧
      Token.make .typeDef 1 ≠ Token.make .typeSpec 1 := by
  intro as
  obtain ⟨hnamed, hdiffer⟩ := minted_named as
  have hlist : (Universe.run {} as).2 = [⟨⟨0, "M"⟩, 0, .make .typeDef 1, .type ⟨⟨0, "M"⟩, 0, "N", "P", .valueType, 0⟩⟩,
    ⟨⟨0, "M"⟩, 0, .make .typeSpec 1, .spec (.byref (.prim .int32))⟩, ⟨⟨0, "M"⟩, 1, .make .typeSpec 2,
    .spec (.prim .int64)⟩] := rfl
  rw [hlist] at hnamed hdiffer
  refine ⟨by decide +kernel, ?_, ?_⟩
  · exact hnamed _ (List.mem_cons_of_mem _ List.mem_cons_self) (by decide) rfl
  · exact (List.pairwise_cons.mp hdiffer).1 _ List.mem_cons_self rfl (by decide) (by decide)

theorem tokens_replicate {ts : ModuleTables} (hu : u.Indexed) (hts : u.modules[0]? = some ts) (t : Ty) (n : Nat) :
    (u.run (List.replicate n (.addTypeSpec 0 t))).2.map (·.token) =
      (List.range n).map fun k ↦ Token.make .typeSpec (ts.specs.size + k + 1) := by
  induction n generalizing u ts with
  | zero => rfl
  | succ n ih =>
    have hact : u.act (.addTypeSpec 0 t) = ((u.addTypeSpec ts.ref t).1,
        some ⟨ts.ref, ts.specs.size, .make .typeSpec (ts.specs.size + 1), .spec t⟩) := by
      simp only [Universe.act, Universe.mint, hts, Universe.addTypeSpec, hu.tables hts]
      rfl
    have hts' : (u.addTypeSpec ts.ref t).1.modules[0]? = some { ts with specs := ts.specs.push t } := by
      rw [Universe.addTypeSpec, Universe.modifyTables, hu 0 ts hts]
      dsimp only
      rw [Array.getElem?_modify, hts]
      rfl
    have hindexed := (Universe.steps_act hu (.addTypeSpec 0 t)).indexed
    rw [hact] at hindexed
    rw [List.replicate_succ, Universe.run_cons, List.map_append, hact, ih hindexed hts', List.range_succ_eq_map,
      List.map_cons, List.map_map]
    refine congrArg _ (List.map_congr_left fun k _ ↦ ?_)
    dsimp only [Function.comp]
    rw [Array.size_push]
    congr 1
    omega

theorem tokens_specs (name : String) (t : Ty) (n : Nat) :
    (Universe.run {} (.addModule name :: List.replicate n (.addTypeSpec 0 t))).2.map (·.token) =
      (List.range n).map fun k ↦ Token.make .typeSpec (k + 1) := by
  have hindexed := Universe.indexed_addModule Universe.indexed_empty name
  have hts : (Universe.addModule {} name).1.modules[0]? = some { ref := ⟨0, name⟩ } := rfl
  rw [Universe.run_cons]
  refine (tokens_replicate hindexed hts t n).trans (List.map_congr_left fun k _ ↦ ?_)
  rw [Array.size_empty, Nat.zero_add]

/-- One reference more than there are rows has the token of the first. -/
theorem tokens_collide : ¬ ((Universe.run {} (.addModule "M" ::
    List.replicate (0x1000000 + 1) (.addTypeSpec 0 (.prim .int32)))).2.map (·.token)).Nodup := by
  rw [tokens_specs]
  intro hnodup
  have hsame := List.inj_on_of_nodup_map hnodup (List.mem_range.mpr (Nat.zero_lt_succ _))
    (List.mem_range.mpr (Nat.lt_succ_self 0x1000000)) (Token.make_wraps .typeSpec 1).symm
  cases hsame

end tokens

end CilSsa.Metadata

