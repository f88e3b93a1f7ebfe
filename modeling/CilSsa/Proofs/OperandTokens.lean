import CilSsa.Proofs.ImageMembers

namespace CilSsa.Image

open CilSsa.Metadata CilSsa.Text CilSsa.Number CilSsa.Bytecode

def bare (m : Method) : Method := { m with body := none }

/-- What filling in bodies does: rows for references are added at the end, and methods get bodies. -/
structure Filled (home : ModuleRef) (u v : Universe) : Prop where
  members : v.members = u.members
  specials : v.specials = u.specials
  size : v.modules.size = u.modules.size
  types : ∀ m, (v.tables m).types = (u.tables m).types
  fields : (v.tables home).fields = (u.tables home).fields
  methods : (v.tables home).methods.map bare = (u.tables home).methods.map bare
  specs : (u.tables home).specs.toList <+: (v.tables home).specs.toList
  memberRefs : (u.tables home).memberRefs.toList <+: (v.tables home).memberRefs.toList

section filling

variable {home : ModuleRef} {u v w : Universe}

theorem Filled.refl (home : ModuleRef) (u : Universe) : Filled home u u :=
  ⟨rfl, rfl, rfl, fun _ ↦ rfl, rfl, rfl, List.prefix_refl _, List.prefix_refl _⟩

theorem Filled.trans (h : Filled home u v) (h' : Filled home v w) : Filled home u w where
  members := h'.members.trans h.members
  specials := h'.specials.trans h.specials
  size := h'.size.trans h.size
  types m := (h'.types m).trans (h.types m)
  fields := h'.fields.trans h.fields
  methods := h'.methods.trans h.methods
  specs := h.specs.trans h'.specs
  memberRefs := h.memberRefs.trans h'.memberRefs

theorem filled_modifyTables {f : ModuleTables → ModuleTables} (hin : home.index < u.modules.size)
    (htypes : ∀ ts, (f ts).types = ts.types) (hfields : ∀ ts, (f ts).fields = ts.fields)
    (hmethods : ∀ ts, (f ts).methods.map bare = ts.methods.map bare)
    (hspecs : ∀ ts, ts.specs.toList <+: (f ts).specs.toList)
    (hrefs : ∀ ts, ts.memberRefs.toList <+: (f ts).memberRefs.toList) : Filled home u (u.modifyTables home f) := by
  refine ⟨rfl, rfl, Universe.size_modifyTables, ?_, ?_, ?_, ?_, ?_⟩
  · intro m
    by_cases hm : m.index = home.index
    · rw [Universe.tables_congr (by simpa using hin) hm, Universe.tables_modifyTables hin, htypes,
        Universe.tables_congr hin hm]
    · rw [Universe.tables_modifyTables_of_ne hm]
  all_goals rw [Universe.tables_modifyTables hin]
  · exact hfields _
  · exact hmethods _
  · exact hspecs _
  · exact hrefs _

theorem filled_addTypeSpec (hin : home.index < u.modules.size) (t : Ty) : Filled home u (u.addTypeSpec home t).1 :=
  filled_modifyTables hin (fun _ ↦ rfl) (fun _ ↦ rfl) (fun _ ↦ rfl) (fun _ ↦ by simp) fun _ ↦ List.prefix_refl _

theorem filled_addMemberRef (hin : home.index < u.modules.size) (r : MemberRef) :
    Filled home u (u.addMemberRef home r).1 :=
  filled_modifyTables hin (fun _ ↦ rfl) (fun _ ↦ rfl) (fun _ ↦ rfl) (fun _ ↦ List.prefix_refl _) fun _ ↦ by simp

theorem filled_setBody (hin : home.index < u.modules.size) (k : Nat) (b : Body) :
    Filled home u (u.setBody (.defined home k) b) := by
  refine filled_modifyTables hin (fun _ ↦ rfl) (fun _ ↦ rfl) ?_ (fun _ ↦ List.prefix_refl _) fun _ ↦ List.prefix_refl _
  intro ts
  refine Array.ext_getElem? fun i ↦ ?_
  rw [Array.getElem?_map, Array.getElem?_map, Array.getElem?_modify]
  split
  · cases ts.methods[i]? <;> rfl
  · rfl

end filling

/-- What the operand of an instruction names. -/
inductive Target
  | type (t : Ty)
  | field (parent : Ty) (name : String)
  | method (parent : Ty) (name : String) (arity : Int)

/-- A name of a method and the number of parameters after it, if that is written. -/
def methodName (member : String) : String × Int :=
  match cut member "/" with
  | none => (member, -1)
  | some (name, count) => (name, (parseDecimal? count).getD (-1))

def Scope.Reads (sc : Scope) (op : Opcode) (operand : String) : Target → Prop
  | .type t => cut operand "::" = none ∧ sc.parseType operand = .ok t
  | .field parent name => ∃ typeName, cut operand "::" = some (typeName, name) ∧ sc.parseType typeName = .ok parent ∧
      namesField op = true
  | .method parent name arity => ∃ typeName member, cut operand "::" = some (typeName, member) ∧
      sc.parseType typeName = .ok parent ∧ namesField op = false ∧ methodName member = (name, arity)

def Own (home : ModuleRef) (t : Ty) : Prop := t.scope = some home ∧ t.isInstance = false

/-- The token of a target, and the universe with its row. -/
inductive Mints (home : ModuleRef) (u : Universe) : Target → Token → Universe → Prop
  | typeDef {d : TypeDef} : d.home = home → Mints home u (.type (.defined d)) d.token u
  | typeSpec {t : Ty} : (∀ d, t = .defined d → d.home ≠ home) →
      Mints home u (.type t) (.make .typeSpec ((u.tables home).specs.size + 1)) (u.addTypeSpec home t).1
  | field {parent : Ty} {name : String} {f : Field} : Own home parent → u.fieldByName parent name = some f →
      Mints home u (.field parent name) f.token u
  | fieldRef {parent : Ty} {name : String} : ¬ Own home parent → Mints home u (.field parent name)
      (.make .memberRef ((u.tables home).memberRefs.size + 1)) (u.addMemberRef home ⟨parent, name, true, 0⟩).1
  | method {parent : Ty} {name : String} {arity : Int} {m : Method} : Own home parent →
      u.methodByName parent name arity = some m → Mints home u (.method parent name arity) m.token u
  | methodRef {parent : Ty} {name : String} {arity : Int} : ¬ Own home parent → Mints home u (.method parent name arity)
      (.make .memberRef ((u.tables home).memberRefs.size + 1)) (u.addMemberRef home ⟨parent, name, false, arity⟩).1

theorem mints_typeToken (home : ModuleRef) (u : Universe) (t : Ty) :
    Mints home u (.type t) (u.typeToken home t).2 (u.typeToken home t).1 := by
  unfold Universe.typeToken
  split
  · rename_i d
    split
    · rename_i hd
      exact .typeDef hd
    · rename_i hd
      refine .typeSpec ?_
      rintro _ ⟨⟩
      exact hd
  · rename_i hne
    exact .typeSpec fun d hd ↦ absurd hd (hne d)

theorem mints_method {home : ModuleRef} {u u' : Universe} {parent : Ty} {name : String} {arity : Int} {own : Bool}
    {tok : Token} {e e' : OperandError} (hown : own = true ↔ Own home parent)
    (h : (if own = true then
        match u.methodByName parent name arity with
        | some m => pure (m.token, u)
        | none => throw e
      else if arity < 0 then throw e'
      else pure ((u.addMemberRef home ⟨parent, name, false, arity⟩).2,
      (u.addMemberRef home ⟨parent, name, false, arity⟩).1) :
        Except OperandError (Token × Universe)) = .ok (tok, u')) :
    Mints home u (.method parent name arity) tok u' := by
  split at h
  · rename_i ho
    split at h
    · rename_i m hm
      cases h
      exact .method (hown.mp ho) hm
    · cases h
  · rename_i ho
    split at h
    · cases h
    · cases h
      exact .methodRef fun hc ↦ ho (hown.mpr hc)

theorem token_mints {sc : Scope} {op : Opcode} {operand : String} {u u' : Universe} {tok : Token}
    (h : sc.token op operand u = .ok (tok, u')) :
    ∃ target, sc.Reads op operand target ∧ Mints sc.home u target tok u' := by
  unfold Scope.token at h
  dsimp only at h
  split at h
  · rename_i hcut
    obtain ⟨t, ht, h⟩ := bind_ok h
    cases h
    exact ⟨.type t, ⟨hcut, mapError_ok ht⟩, mints_typeToken ..⟩
  · rename_i typeName member hcut
    obtain ⟨parent, hparent, h⟩ := bind_ok h
    have hread := mapError_ok hparent
    have hown : (parent.scope == some sc.home && !parent.isInstance) = true ↔ Own sc.home parent := by
      simp [Own]
    by_cases hfield : namesField op = true
    · rw [if_pos hfield] at h
      refine ⟨.field parent member, ⟨typeName, hcut, hread, hfield⟩, ?_⟩
      split at h
      · rename_i ho
        split at h
        · rename_i f hf
          cases h
          exact .field (hown.mp ho) hf
        · cases h
      · rename_i ho
        cases h
        exact .fieldRef fun hc ↦ ho (hown.mpr hc)
    · rw [if_neg hfield] at h
      split at h
      · rename_i hslash
        refine ⟨.method parent member (-1), ⟨typeName, member, hcut, hread, Bool.eq_false_iff.mpr hfield, ?_⟩,
        mints_method hown h⟩
        rw [methodName, hslash]
      · rename_i name count hslash
        split at h
        · rename_i n hn
          split at h
          · cases h
          · refine ⟨.method parent name n, ⟨typeName, member, hcut, hread, Bool.eq_false_iff.mpr hfield, ?_⟩,
              mints_method hown h⟩
            rw [methodName, hslash]
            dsimp only
            rw [hn, Option.getD_some]
        · cases h

theorem Mints.filled {home : ModuleRef} {u u' : Universe} {target : Target} {tok : Token}
    (hin : home.index < u.modules.size) (h : Mints home u target tok u') : Filled home u u' := by
  cases h with
  | typeDef _ => exact .refl _ _
  | typeSpec _ => exact filled_addTypeSpec hin _
  | field _ _ => exact .refl _ _
  | fieldRef _ => exact filled_addMemberRef hin _
  | method _ _ => exact .refl _ _
  | methodRef _ => exact filled_addMemberRef hin _

section assembly

variable {σ ε : Type} {r : TokenResolver σ ε}

def noting (r : TokenResolver σ ε) : TokenResolver (σ × List (Opcode × String × Token)) ε := fun op operand s ↦
  (r op operand s.1).map fun (tok, s') ↦ (tok, s', s.2 ++ [(op, operand, tok)])

variable {a a' : Assembler} {s s' : σ} {log : List (Opcode × String × Token)}

theorem emitLine_asks {line : List Char} (h : emitLine (some r) a s line = .ok (a', s')) :
    s' = s ∨ ∃ op operand tok, r op operand s = .ok (tok, s') := by
  unfold emitLine at h
  dsimp only at h
  split at h
  · cases h
  rename_i op _
  split at h
  · cases h
  split at h
  · cases h
  unfold emitOperand at h
  split at h
  · dsimp only at h
    split at h
    · cases h
    · rename_i tok s₁ hr
      cases h
      exact .inr ⟨op, _, tok, hr⟩
  · cases hplain : emitPlain (ε := ε) a op (trim (String.ofList ((cutChars [' '] line).getD (line, [])).2)) with
    | error e =>
      rw [hplain] at h
      cases h
    | ok a₁ =>
      rw [hplain] at h
      cases h
      exact .inl rfl

theorem emitLine_noting (r : TokenResolver σ ε) (a : Assembler) (s : σ) (log : List (Opcode × String × Token))
    (line : List Char) : (emitLine (some (noting r)) a (s, log) line).map (Prod.map id Prod.fst) =
    emitLine (some r) a s line := by
  unfold emitLine
  dsimp only
  split
  · rfl
  rename_i op _
  split
  · rfl
  split
  · rfl
  unfold emitOperand
  split
  · dsimp only [noting]
    cases r op (trim (String.ofList ((cutChars [' '] line).getD (line, [])).2)) s <;> rfl
  · cases emitPlain (ε := ε) a op (trim (String.ofList ((cutChars [' '] line).getD (line, [])).2)) <;> rfl

theorem assembleLines_keeps {P : σ → Prop} (hr : ∀ op operand s tok s', P s → r op operand s = .ok (tok, s') → P s')
    {lines : List (List Char)} {n : Nat} (hs : P s)
    (h : assembleLines (some r) n a s lines = .ok (a', s')) : P s' := by
  induction lines generalizing n a s with
  | nil =>
    cases h
    exact hs
  | cons line lines ih =>
    unfold assembleLines at h
    dsimp only at h
    split at h
    · cases h
    split at h
    · exact ih hs h
    split at h
    · cases h
    · rename_i a₁ s₁ hline
      refine ih ?_ h
      rcases emitLine_asks hline with rfl | ⟨op, operand, tok, hask⟩
      · exact hs
      · exact hr op operand s tok s₁ hs hask

theorem assembleLines_noting (r : TokenResolver σ ε) (n : Nat) (a : Assembler) (s : σ)
    (log : List (Opcode × String × Token)) (lines : List (List Char)) :
    (assembleLines (some (noting r)) n a (s, log) lines).map (Prod.map id Prod.fst) = assembleLines (some r)
    n a s lines := by
  induction lines generalizing n a s log with
  | nil => rfl
  | cons line lines ih =>
    unfold assembleLines
    dsimp only
    split
    · rfl
    split
    · exact ih _ _ _ _
    have hline := emitLine_noting r ((splitLabels (stripComment (chomp line))).1.foldl Assembler.mark a) s log
      (splitLabels (stripComment (chomp line))).2
    rw [← hline]
    cases emitLine (some (noting r)) ((splitLabels (stripComment (chomp line))).1.foldl Assembler.mark a) (s, log)
        (splitLabels (stripComment (chomp line))).2 with
    | error e => rfl
    | ok p => exact ih _ _ _ _

end assembly

section bodies

variable {image : String} {sc : Scope} {u u' v : Universe}

/-- The tokens so far are tokens of targets, in universes that lie between the first and the present one. -/
structure Noted (sc : Scope) (u : Universe) (state : Universe × List (Opcode × String × Token)) : Prop where
  filled : Filled sc.home u state.1
  mints : ∀ op operand tok, (op, operand, tok) ∈ state.2 → ∃ target w w',
    sc.Reads op operand target ∧ Mints sc.home w target tok w' ∧ Filled sc.home u w ∧ Filled sc.home w' state.1

theorem Noted.step {state state' : Universe × List (Opcode × String × Token)} {op : Opcode}
    {operand : String} {tok : Token} (hin : sc.home.index < u.modules.size) (h : Noted sc u state)
    (hstep : noting sc.token op operand state = .ok (tok, state')) : Noted sc u state' := by
  obtain ⟨w, log⟩ := state
  unfold noting at hstep
  cases htoken : sc.token op operand w with
  | error e =>
    simp only [htoken] at hstep
    cases hstep
  | ok p =>
    obtain ⟨tok', w'⟩ := p
    simp only [htoken] at hstep
    cases hstep
    obtain ⟨target, hreads, hmints⟩ := token_mints htoken
    have hstep : Filled sc.home w w' := hmints.filled (h.filled.size ▸ hin)
    refine ⟨h.filled.trans hstep, ?_⟩
    intro op' operand' tok' hmem
    rcases List.mem_append.mp hmem with hmem | hmem
    · obtain ⟨target', w₁, w₂, hreads', hmints', hw₁, hw₂⟩ := h.mints _ _ _ hmem
      exact ⟨target', w₁, w₂, hreads', hmints', hw₁, hw₂.trans hstep⟩
    · cases List.mem_singleton.mp hmem
      exact ⟨target, w, w', hreads, hmints, h.filled, .refl _ _⟩

theorem assemble_noted {code : Bytes} {source : String} {log : List (Opcode × String × Token)}
    (hin : sc.home.index < u.modules.size)
    (h : assemble (some (noting sc.token)) (u, []) source = .ok (code, u', log)) :
    Noted sc u (u', log) ∧ assemble (some sc.token) u source = .ok (code, u') := by
  unfold assemble at h ⊢
  have hproj := assembleLines_noting sc.token 1 {} u [] (rawLines source)
  rw [← hproj]
  cases hlines : assembleLines (some (noting sc.token)) 1 {} (u, []) (rawLines source) with
  | error e =>
    rw [hlines] at h
    cases h
  | ok p =>
    obtain ⟨a, state⟩ := p
    rw [hlines] at h
    dsimp only at h
    cases hbytes : a.bytes with
    | error e =>
      rw [hbytes] at h
      cases h
    | ok bs =>
      rw [hbytes] at h
      cases h
      refine ⟨?_, ?_⟩
      · refine assembleLines_keeps (P := Noted sc u) (fun _ _ _ _ _ hs hstep ↦ hs.step hin hstep) ?_ hlines
        exact ⟨.refl _ _, fun _ _ _ hmem ↦ absurd hmem List.not_mem_nil⟩
      · simp only [Except.map, Prod.map, id, hbytes]

theorem filled_assemble {code : Bytes} {source : String} (hin : sc.home.index < u.modules.size)
    (h : assemble (some sc.token) u source = .ok (code, u')) : Filled sc.home u u' := by
  unfold assemble at h
  split at h
  · cases h
  · rename_i a w hlines
    split at h
    · cases h
    · cases h
      refine assembleLines_keeps (P := fun w ↦ Filled sc.home u w) ?_ (.refl _ _) hlines
      intro op operand w tok w' hw hstep
      obtain ⟨target, -, hmints⟩ := token_mints hstep
      exact hw.trans (hmints.filled (hw.size ▸ hin))

theorem filled_defineBody {m : Method} {md : MethodDecl} (hin : sc.home.index < u.modules.size) {k : Nat}
    (hid : m.id = .defined sc.home k) (h : defineBody image sc u (m, md) = .ok u') :
    Filled sc.home u u' ∧ (md.source ≠ "" → md.hex = "" →
      ∃ code v, assemble (some sc.token) u md.source = .ok (code, v) ∧ Filled sc.home v u') := by
  have hset : ∀ {v b}, Filled sc.home u v → Filled sc.home v (v.setBody m.id b) := by
    intro v b hv
    rw [hid]
    exact filled_setBody (hv.size ▸ hin) k b
  unfold defineBody at h
  dsimp only at h
  by_cases hbody : (!md.hasBody) = true
  · rw [if_pos hbody] at h
    cases h
    refine ⟨.refl _ _, fun hsource _ ↦ ?_⟩
    simp [MethodDecl.hasBody, hsource] at hbody
  rw [if_neg hbody] at h
  split at h
  · cases h
  obtain ⟨locals, -, h⟩ := bind_ok h
  split at h
  · rename_i hhex
    split at h
    · cases h
      exact ⟨hset (.refl _ _), fun _ hne ↦ absurd hne hhex⟩
    · cases h
  · split at h
    · rename_i p hassemble
      cases h
      have hfilled := filled_assemble hin hassemble
      exact ⟨hfilled.trans (hset hfilled), fun _ _ ↦ ⟨p.1, p.2, hassemble, hset hfilled⟩⟩
    · cases h

theorem Declares.filled {home : ModuleRef} {defs : List TypeDef} (h : Declares home defs u) (hf : Filled home u v) :
    Declares home defs v := by
  have hrecorded : ∀ t, v.recorded t = u.recorded t := by
    intro t
    rw [Universe.recorded, hf.members]
    rfl
  have htypesOf : ∀ m, v.typesOf m = u.typesOf m := by
    intro m
    rw [Universe.typesOf, hf.types]
    rfl
  have hsize : (v.tables home).methods.size = (u.tables home).methods.size := by
    simpa using congrArg Array.size hf.methods
  refine ⟨⟨?_, ?_, ?_⟩, ?_, ?_, ?_, ?_, ?_, ?_, ?_⟩
  · intro t m ht hm
    rw [hrecorded]
    exact h.settled.members t m ht (hf.size ▸ hm)
  · intro t slot m ht hm
    rw [hf.specials]
    exact h.settled.specials t slot m ht (hf.size ▸ hm)
  · intro m d hd
    rw [hf.size]
    exact h.settled.types m d (htypesOf m ▸ hd)
  · rw [hf.size]
    exact h.inside
  · intro d hd
    rw [hf.types]
    exact h.types d hd
  · intro d hd g hg
    rw [hf.fields]
    exact h.fields d hd g (hrecorded _ ▸ hg)
  · intro d hd id hid
    rw [hsize]
    exact h.methods d hd id (hrecorded _ ▸ hid)
  · intro k m hm
    have hbare : ((u.tables home).methods.map bare)[k]? = some (bare m) := by
      rw [← hf.methods, Array.getElem?_map, hm]
      rfl
    rw [Array.getElem?_map, Option.map_eq_some_iff] at hbare
    obtain ⟨m', hm', heq⟩ := hbare
    obtain ⟨hid, htoken, hscope⟩ := h.rows k m' hm'
    have hid' : (bare m').id = (bare m).id := congrArg Method.id heq
    have htoken' : (bare m').token = (bare m).token := congrArg Method.token heq
    have hscope' : (bare m').scope = (bare m).scope := congrArg Method.scope heq
    exact ⟨hid'.symm.trans hid, htoken'.symm.trans htoken, hscope'.symm.trans hscope⟩
  · intro t ht hne
    rw [hrecorded]
    exact h.others t ht hne
  · intro t slot ht
    rw [hf.specials]
    exact h.specials t slot ht

theorem filled_defineBodies {methods : List (Method × MethodDecl)} (hin : sc.home.index < u.modules.size)
    (hown : ∀ e ∈ methods, ∃ k, e.1.id = .defined sc.home k) (h : methods.foldlM (defineBody image sc) u = .ok v) :
    Filled sc.home u v := by
  refine foldlM_keeps (P := fun w ↦ Filled sc.home u w) ?_ (.refl _ _) h
  rintro ⟨m, md⟩ he w w' hw hstep
  obtain ⟨k, hk⟩ := hown _ he
  exact hw.trans (filled_defineBody (hw.size ▸ hin) hk hstep).1

end bodies

/-- Building an image gives an operand in the text of a method a token. -/
structure Assigns (img : Image) (refs : List (String × ModuleRef)) (u : Universe) (sc : Scope)
    (m : Method) (op : Opcode) (operand : String) (tok : Token) : Prop where
  intro ::
  within : ∃ v methods before md after w code w' log, img.declare refs u = .ok (sc, v, methods) ∧
    methods = before ++ (m, md) :: after ∧ before.foldlM (defineBody img.name sc) v = .ok w ∧
    md.source ≠ "" ∧ md.hex = "" ∧ assemble (some (noting sc.token)) (w, []) md.source = .ok (code, w', log) ∧
    (op, operand, tok) ∈ log

section build

variable {img : Image} {refs : List (String × ModuleRef)} {u x : Universe} {home : ModuleRef} {sc : Scope}

theorem Assigns.mints {m : Method} {op : Opcode} {operand : String} {tok : Token} (hu : Settled u)
    (h : img.build refs u = .ok (home, x)) (ha : Assigns img refs u sc m op operand tok) :
    sc.home = home ∧ Apart sc ∧ ∃ target w w', sc.Reads op operand target ∧ Declares home sc.defs w ∧
      Mints home w target tok w' ∧ Filled home w w' ∧ Filled home w' x := by
  obtain ⟨v, methods, before, md, after, w, code, w', log, hdeclare, rfl, hbefore, hsource, hhex, hassemble, hlog⟩ :=
    ha.within
  obtain ⟨hapart, -, hdecl⟩ := declares_declare hu hdeclare
  rw [build_eq, hdeclare] at h
  obtain ⟨_, heq, h⟩ := bind_ok h
  cases heq
  obtain ⟨y, hbodies, h⟩ := bind_ok h
  cases h
  rw [List.foldlM_append, hbefore] at hbodies
  change List.foldlM (defineBody img.name sc) w ((m, md) :: after) = .ok x at hbodies
  rw [List.foldlM_cons] at hbodies
  obtain ⟨z, hbody, hafter⟩ := bind_ok hbodies
  have hin := hdecl.declares.inside
  have hw : Filled sc.home v w :=
    filled_defineBodies hin (fun e he ↦ hdecl.own e (List.mem_append_left _ he)) hbefore
  obtain ⟨k, hk⟩ := hdecl.own (m, md) (List.mem_append_right _ List.mem_cons_self)
  have hwin : sc.home.index < w.modules.size := hw.size ▸ hin
  obtain ⟨hwz, htext⟩ := filled_defineBody hwin hk hbody
  obtain ⟨code', w₂, hassemble', hz⟩ := htext hsource hhex
  obtain ⟨hnoted, hplain⟩ := assemble_noted hwin hassemble
  rw [hplain] at hassemble'
  cases hassemble'
  have hzx : Filled sc.home z x :=
    filled_defineBodies (hwz.size ▸ hwin) (fun e he ↦ hdecl.own e (by simp [he])) hafter
  obtain ⟨target, w₁, w₂, hreads, hmints, hw₁, hw₂⟩ := hnoted.mints _ _ _ hlog
  refine ⟨rfl, hapart, target, w₁, w₂, hreads, hdecl.declares.filled (hw.trans hw₁), hmints, ?_, ?_⟩
  · exact hmints.filled (hw₁.size ▸ hwin)
  · exact hw₂.trans (hz.trans hzx)

theorem settled_empty : Settled {} := by
  refine ⟨fun t m _ _ ↦ by simp [Universe.recorded], fun t slot m _ _ ↦ by simp, fun m d hd ↦ ?_⟩
  simp [Universe.typesOf, Universe.tables] at hd

end build

end CilSsa.Image

