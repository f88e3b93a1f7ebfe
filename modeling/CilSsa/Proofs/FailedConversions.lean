import CilSsa.Proofs.TypedConversions
import CilSsa.Proofs.TypeRequests

namespace CilSsa.Lowering

open CilSsa.Bytecode CilSsa.Metadata
open CilSsa.Ssa (FuncId Function Instr Module StructDef Value)

/-- The unit `u` has all that `b` had, as it was there, with new types and methods put in front and new structs and
functions at the end. Only function `fn` may have got more code. -/
structure Added (fn : FuncId) (b u : CompilationUnit) : Prop where
  numbered : Numbered u.module
  types : ∃ new, u.types = new ++ b.types ∧ ∀ e ∈ new, e.1 ∉ b.types.map (·.1)
  methods : ∃ new, u.methods = new ++ b.methods ∧ ∀ e ∈ new, e.1 ∉ b.methods.map (·.1)
  functions : ∀ (i : Nat) (g : Function), b.module.functions[i]? = some g → i ≠ fn.index →
    u.module.functions[i]? = some g
  known : ∀ i : Nat, i < b.module.functions.size → i < u.module.functions.size
  live : b.module.liveFunctions <+: u.module.liveFunctions
  structs : ∀ (i : Nat) (d : StructDef), b.module.structs[i]? = some d → u.module.structs[i]? = some d
  liveStructs : b.module.liveStructs <+: u.module.liveStructs

section

variable {world : Universe} {fn g : FuncId} {b u u' : CompilationUnit} {t : Ty}

theorem Added.refl (fn : FuncId) (h : Numbered u.module) : Added fn u u :=
  ⟨h, ⟨[], rfl, List.forall_mem_nil _⟩, ⟨[], rfl, List.forall_mem_nil _⟩, fun _ _ h _ ↦ h, fun _ h ↦ h, List.prefix_rfl,
  fun _ _ h ↦ h, List.prefix_rfl⟩

theorem Added.same (h : Added fn b u) (ht : u'.types = u.types) (hms : u'.methods = u.methods)
    (hm : u'.module = u.module) : Added fn b u' :=
  ⟨hm ▸ h.numbered, ht ▸ h.types, hms ▸ h.methods, hm ▸ h.functions, hm ▸ h.known, hm ▸ h.live, hm ▸ h.structs,
    hm ▸ h.liveStructs⟩

def Mine (fn : FuncId) (b : CompilationUnit) (g : FuncId) : Prop := g = fn ∨ b.module.functions.size ≤ g.index

theorem Added.modify (h : Added fn b u) (hg : Mine fn b g) {G G' : Function} (hG : u.module.function? g = some G)
    (hid : G'.id = G.id) : Added fn b { u with module := u.module.modifyFunction g fun _ ↦ G' } := by
  refine ⟨h.numbered.modify hG hid, h.types, h.methods, fun i G hG hi ↦ ?_, fun i hi ↦ ?_, h.live,
    h.structs, h.liveStructs⟩
  · have hlt := (Array.getElem?_eq_some_iff.mp hG).1
    have hne : g.index ≠ i := by
      rcases hg with rfl | hg
      · exact fun heq ↦ hi heq.symm
      · omega
    simp only [Module.modifyFunction, Array.getElem?_modify, if_neg hne]
    exact h.functions i G hG hi
  · simpa [Module.modifyFunction] using h.known i hi

theorem Added.withFunction (h : Added fn b u) {G : Function} (hG : G.id = ⟨u.module.functions.size⟩) :
    Added fn b { u with module := withFunction u.module G } :=
  ⟨h.numbered.withFunction hG, h.types, h.methods, fun i F hF hi ↦ withFunction_kept _ _ i F (h.functions i F hF hi),
    fun i hi ↦
    by simpa [Lowering.withFunction] using Nat.lt_succ_of_lt (h.known i hi), h.live.trans (List.prefix_append _ _),
    h.structs, h.liveStructs⟩

instance stable_added : Stable (Added fn b) (Added fn b) where
  fails h := h
  same h hs := h.same hs.types hs.methods hs.module
  sameFailed h hs := h.same hs.types hs.methods hs.module

theorem growable_added (hg : Mine fn b g) : Growable (Added fn b) (Added fn b) g where
  append := by
    intro u k i h
    cases hG : u.module.function? g with
    | none => simp only [Module.append, hG]; exact h
    | some G =>
      rw [append_eq hG]
      exact h.modify hg hG (append_id G k i)
  memset := by
    intro u h
    rcases memset_cases u.module with hms | ⟨-, G, hG, -, -, hms⟩ <;> rw [hms]
    · exact h
    · exact h.withFunction hG

theorem Added.structs_le (h : Added fn b u) : b.module.structs.size ≤ u.module.structs.size := by
  by_contra hlt
  have hlt : u.module.structs.size < b.module.structs.size := by omega
  have := (Array.getElem?_eq_some_iff.mp (h.structs _ _ (Array.getElem?_eq_getElem hlt))).1
  omega

variable {compile : Ty → Compile CompiledType}

theorem Added.register_type (h : Added fn b u) (hnew : t ∉ b.types.map (·.1)) (ct : CompiledType) (j : Journal) :
    Added fn b { u with types := (t, ct) :: u.types, journal := j } := by
  obtain ⟨new, htypes, hold⟩ := h.types
  exact { h with types := ⟨(t, ct) :: new, by rw [htypes]; rfl, List.forall_mem_cons.mpr ⟨hnew, hold⟩⟩ }

theorem spec_compileAggregate_added (hcompile : ∀ t, Spec (Added fn b) (compile t) (fun _ ↦ Added fn b) (Added fn b))
    (hnew : t ∉ b.types.map (·.1)) {v : CompilationUnit} (hv : Added fn b v) :
    Spec (· = v) (compileAggregate world compile t) (fun _ ↦ Added fn b) (Added fn b) := by
  refine (spec_compileAggregate_of (K := fun _ ↦ Added fn b) (M := fun _ _ ↦ Added fn b) (J := fun _ ↦ Added fn b) hv
    (fun name _ _ ↦ ?_) (fun _ ↦ spec_compileMembers_keeps hcompile (fun _ hu ↦ hu) t _)
    (fun _ _ u hu ↦ hu.same rfl rfl rfl)
    (fun _ body u hu _ ↦ ?_) (fun _ u _ hu ↦ hu.same rfl rfl rfl) (fun _ _ hu ↦ hu)
    fun _ hu ↦ hu.same rfl rfl rfl).imp (fun _ hu ↦ hu) fun _ _ ⟨_, _, hu⟩ ↦ hu
  · have hstruct : Added fn b { v with module := withStruct v.module name } := { hv with
      numbered := ⟨hv.numbered.ids, hv.numbered.live⟩
      structs := fun i d hd ↦ by
        have hd' := hv.structs i d hd
        simp only [withStruct]
        rw [Array.getElem?_push, if_neg (Nat.ne_of_lt (Array.getElem?_eq_some_iff.mp hd').1)]
        exact hd'
      liveStructs := hv.liveStructs.trans (List.prefix_append _ _) }
    exact (hstruct.register_type hnew _ v.journal).same rfl rfl rfl
  · refine Added.same (u := { u with module := withBody u.module v.module.structs.size body }) { hu with
      numbered := ⟨hu.numbered.ids, hu.numbered.live⟩
      structs := fun i d hd ↦ ?_ } rfl rfl rfl
    have hlt := (Array.getElem?_eq_some_iff.mp hd).1
    have hle := hv.structs_le
    rw [getElem?_withBody, if_neg (by omega)]
    exact hu.structs i d hd

theorem spec_compileType_added (fuel : Nat) (t : Ty) :
    Spec (Added fn b) (compileType world fuel t) (fun _ ↦ Added fn b) (Added fn b) :=
  (spec_compileType_of (J := fun _ : Unit ↦ Added fn b) (R := fun _ _ _ ↦ True) (fun hu ↦ hu) (fun _ _ ↦ trivial)
    (fun _ ↦ trivial)
    (fun hv hl _ hu ↦ ⟨trivial, hu.register_type (hv.types.elim fun _ ht ↦ not_registered ht.1 hl) _ _⟩)
    (fun hcompile _ hl hv ↦ (spec_compileAggregate_added (fun t ↦ (hcompile () t).imp (fun _ hu ↦ hu) fun _ _ hu ↦ hu.2)
      (hv.types.elim fun _ ht ↦ not_registered ht.1 hl) hv).imp (fun _ hu ↦ hu) fun _ _ hu ↦
      ⟨trivial, hu⟩) fuel () t).imp
    (fun _ hu ↦ hu) fun _ _ hu ↦ hu.2

theorem spec_codeType_added (t : Ty) : Spec (Added fn b) (codeType world t) (fun _ ↦ Added fn b) (Added fn b) :=
  (spec_compileType_added _ t).bind fun _ ↦ .pure fun _ hu ↦ hu

theorem Added.register (h : Added fn b u) {m : MethodId} (hnew : m ∉ b.methods.map (·.1)) (f : FuncId) (j : Journal) :
    Added fn b { u with methods := (m, f) :: u.methods, journal := j } := by
  obtain ⟨new, hmethods, hold⟩ := h.methods
  exact ⟨h.numbered, h.types, ⟨(m, f) :: new, by rw [hmethods]; rfl, List.forall_mem_cons.mpr ⟨hnew, hold⟩⟩,
    h.functions, h.known, h.live, h.structs, h.liveStructs⟩

theorem spec_register_added {m : Method} (hnew : m.id ∉ b.methods.map (·.1)) (sig : Ssa.Ty) :
    Spec (Added fn b) (register m sig) (fun g u ↦ Mine fn b g ∧ Added fn b u) (Added fn b) := by
  refine spec_register_of (fun _ hu ↦ hu) fun v _ _ _ _ hv _ _ ↦ ⟨.inr ?_, (hv.withFunction rfl).register hnew _ _⟩
  by_contra hlt
  have hlt : v.module.functions.size < b.module.functions.size := Nat.not_le.mp hlt
  exact Nat.lt_irrefl _ (hv.known _ hlt)

theorem spec_verify_added (m : Method) (f : FuncId) (span : Trace.Span) :
    Spec (Added fn b) (verify m f span) (fun _ ↦ Added fn b) (Added fn b) := by
  refine .of_get fun v ↦ .forget fun hv ↦ ?_
  split
  · exact .pure fun _ hu ↦ hu
  · refine (spec_endSpan span _ true).bind fun _ ↦ ?_
    exact Spec.bind (Q := fun _ ↦ Added fn b) (.modify fun u hu ↦ hu.same rfl rfl rfl) fun _ ↦ .throw fun _ hu ↦ hu

theorem spec_optimise_added (hg : Mine fn b g) (span : Trace.Span) :
    Spec (Added fn b) (optimise g span) (fun _ ↦ Added fn b) (Added fn b) := by
  refine .of_get fun v ↦ .forget fun hv ↦ ?_
  split
  · exact .pure fun _ hu ↦ hu
  · rename_i G hG
    have hsame := Passes.sameHeading_runPasses Passes.Pass.all G
    exact Spec.bind (Q := fun _ ↦ Added fn b) (.set fun u _ ↦ hv.modify hg hG hsame.id) fun _ ↦ .pure fun _ hu ↦ hu

theorem spec_compileMethod_added (hworld : Consistent world) (fuel : Nat) {m : Method} (hm : Found world m) :
    Spec (Added fn b) (compileMethod world fuel m) (fun _ ↦ Added fn b) (Added fn b) := by
  induction fuel generalizing m with
  | zero => exact .throw fun _ hu ↦ hu
  | succ fuel ih =>
    have hadd : ∀ g, Mine fn b g → ∀ u name, Added fn b u →
        Added fn b { u with module := (u.module.addBlock g name).1 } := by
      intro g hg u name hu
      unfold Module.addBlock
      cases hG : u.module.function? g with
      | none => exact hu
      | some G => exact hu.modify hg hG (uniqueName_kept G _).2.2.1
    have hbody : ∀ (m : Method) (body : Body) (args : List Ty) (g : FuncId), Mine fn b g →
        Spec (Added fn b) (buildBody world (compileMethod world fuel) m body args g) (fun _ ↦ Added fn b)
        (Added fn b) := by
      intro m body args g hg
      have hgrow : Growable (Added fn b) (Added fn b) g := growable_added hg
      unfold buildBody
      refine (spec_beginSpan _ _).bind fun span ↦ spec_inside (.of_get fun v ↦ .forget fun hv ↦ ?_)
      split
      · exact .pure fun _ hu ↦ hu
      · rename_i G hG
        have hlower : Spec (Added fn b) (lowerBody world (compileMethod world fuel) m body args G) (fun _ ↦ Added fn b)
            (Added fn b) :=
          spec_lowerBody (hv.numbered.ids _ G hG) (spec_compileType_added _)
            (fun id m hm ↦ ih (hworld id m hm)) (hadd g hg) (hadd g hg)
        refine (spec_failing (fun h hs ↦ h.same hs.types hs.methods hs.module) hlower).bind fun blocks ↦ ?_
        refine (spec_verify_added m g span).bind fun _ ↦ .of_get fun v' ↦ .forget fun _ ↦ ?_
        dsimp only
        split
        · exact (spec_optimise_added hg span).bind fun _ ↦ spec_endSpan _ _ _
        · exact Spec.bind (Q := fun _ ↦ Added fn b) (.pure fun _ hu ↦ hu) fun _ ↦ spec_endSpan _ _ _
    rw [compileMethod]
    refine .of_get fun v ↦ ?_
    split
    · exact .forget fun _ ↦ .pure fun _ hu ↦ hu
    · rename_i hl
      refine .forget fun hv ↦ ?_
      have hnew : m.id ∉ b.methods.map (·.1) := by
        obtain ⟨new, hmethods, -⟩ := hv.methods
        have hkey := not_mem_keys_of_lookup hl
        rw [hmethods, List.map_append] at hkey
        exact fun hmem ↦ hkey (List.mem_append_right _ hmem)
      refine Spec.bind (Q := fun _ ↦ Added fn b) ?_ fun args ↦
        (spec_signature_keeps (fun _ hu ↦ hu) spec_codeType_added m args).bind fun sig ↦
        (spec_register_added hnew sig).bind fun g ↦ .of_and fun hg ↦ ?_
      · unfold argumentTypes
        dsimp only
        split
        · split
          · exact .pure fun _ hu ↦ hu
          · exact .throw fun _ hu ↦ hu
        · exact .pure fun _ hu ↦ hu
      · split
        · exact .pure fun _ hu ↦ hu
        · exact (hbody m _ args g hg).bind fun _ ↦ .pure fun _ hu ↦ hu

theorem run_read_bind {α : Type} (site : Site) (f : Site → Lower α) : (read >>= f).run site = (f site).run site :=
    by rfl

/-- Where no conversion exists and no number is taken for a reference, a conversion that fails does nothing. -/
theorem spec_convertFrom_none {site : Site} {target : Ty} (h : convertible site.world target t = false)
    (hnumber : target.isByRef = false ∨ t ≠ .prim .int32 ∧ t ≠ .prim .int64) (v : Value) (slot : Bool) (s : Stage) :
    Spec (· = u) (((convertFrom target t v slot).run site).run s) (fun _ _ ↦ True) (· = u) := by
  have hdirect : ∀ {t v slot}, convertible site.world target t = false →
      (target.isByRef = false ∨ t ≠ .prim .int32 ∧ t ≠ .prim .int64) →
      Spec (· = u) (((convertDirectly ⟨t, v, slot⟩ target).run site).run s) (fun _ _ ↦ True) (· = u) := by
    intro t v slot h hnumber
    have hno : (target.isByRef && (t == .prim .int32 || t == .prim .int64)) = false := by
      rcases hnumber with hr | ⟨h32, h64⟩
      · rw [hr, Bool.false_and]
      · rw [beq_eq_false_iff_ne.mpr h32, beq_eq_false_iff_ne.mpr h64, Bool.or_false, Bool.and_false]
    have hrun : ((convertDirectly ⟨t, v, slot⟩ target).run site).run s = throw (.cast t target "") := by
      unfold convertDirectly
      simp only [hno, Bool.false_eq_true, if_false, run_read_bind, h, Bool.not_false, if_true]
      rfl
    rw [hrun]
    exact .throw fun _ hu ↦ hu
  fun_induction convertFrom target t v slot with
  | case1 e v slot heq => exact .pure fun _ _ ↦ trivial
  | case2 e v slot _ _ => exact .pure fun _ _ ↦ trivial
  | case3 v slot =>
    have hself : convertible site.world target target = true := by
      cases target <;> simp [convertible]
    rw [convertible, hself] at h
    simp at h
  | case4 e v slot _ _ _ _ =>
    have helem : convertible site.world target e = false := by
      rw [convertible] at h
      simp only [Bool.or_eq_false_iff] at h
      exact h.1.2
    have hrun : ((do
        if convertible (← read).world target e then
          let w ← load v
          convertFrom target e w false
        else convertDirectly ⟨.byref e, v, slot⟩ target : Lower Operand).run site).run s =
        ((convertDirectly ⟨.byref e, v, slot⟩ target).run site).run s := by
      simp only [run_read_bind, helem, Bool.false_eq_true, if_false]
    rw [hrun]
    exact hdirect h hnumber
  | case5 v slot => exact .pure fun _ _ ↦ trivial
  | case6 t v slot _ _ _ => exact .pure fun _ _ ↦ trivial
  | case7 t v slot => exact hdirect h hnumber

end

section

variable {world : Universe} {u u' : CompilationUnit}

def convertAt (site : Site) (v : Operand) (target : Ty) (s : Stage) (u : CompilationUnit) :
    Except CompileError (Operand × Stage) × CompilationUnit :=
  (((convert v target).run site).run s).run.run u

/-- A conversion that fails, asked of any unit outside of a request, leaves what was registered and the code that was
there: new types and methods come in front, new structs and functions at the end, and every type that was registered is
still given out as it was. It does nothing at all where no conversion exists and no number is taken for a reference. -/
theorem failed_conversion_adds (hworld : Consistent world) {site : Site} {fuel : Nat} (hsite : site.world = world)
    (hcompile : site.compile = compileMethod world fuel) {v : Operand} {target : Ty} {s : Stage} {e : CompileError}
    (hu : Numbered u.module) (hfails : convertAt site v target s u = (.error e, u')) :
    Added s.fn u u' ∧
    (∀ t ct, t ≠ .missing → u.types.lookup t = some ct → ∀ limit, Compiles (compileType world (limit + 1) t) u' ct u') ∧
    (convertible world target v.type = false →
      (target.isByRef = false ∨ v.type ≠ .prim .int32 ∧ v.type ≠ .prim .int64) → u' = u) := by
  subst hsite
  have hadded : Added s.fn u u' := by
    have hgrow : Growable (Added s.fn u) (Added s.fn u) s.fn := growable_added (.inl rfl)
    have hsupports : Supports (Added s.fn u) (Added s.fn u) site := by
      refine ⟨spec_compileType_added _, fun id m hm ↦ ?_⟩
      rw [hcompile]
      exact spec_compileMethod_added hworld fuel (hworld id m hm)
    have hsafe : SafeAt (Added s.fn u) (Added s.fn u) s.fn site (convert v target) := safe_convert v target
    exact (hsafe s rfl u (.refl s.fn hu)).2 e u' hfails
  refine ⟨hadded, fun t ct hne hl limit ↦ ?_, fun hno hnumber ↦ ?_⟩
  · obtain ⟨new, htypes, hnew⟩ := hadded.types
    have hkeep : u'.types.lookup t = some ct := by
      rw [htypes, List.lookup_append, hl]
      have hnone : new.lookup t = none := by
        rw [List.lookup_eq_none_iff]
        intro e he
        obtain ⟨l₁, l₂, hlist, -⟩ := List.lookup_eq_some_iff.mp hl
        have hmem : t ∈ u.types.map (·.1) := by simp [hlist]
        exact bne_iff_ne.mpr fun heq ↦ hnew e he (heq ▸ hmem)
      rw [hnone]
      rfl
    rw [compileType, if_neg hne]
    refine Compiles.bind_iff.mpr ⟨u', u', Compiles.get_iff.mpr ⟨rfl, rfl⟩, ?_⟩
    rw [hkeep]
    exact Compiles.pure_iff.mpr ⟨rfl, rfl⟩
  · exact (spec_convertFrom_none hno hnumber v.value v.slot s u rfl).2 e u' hfails

end

def objectType : Ty := .defined ⟨⟨0, ""⟩, 1, "", "Object", .refType, 0⟩

def brokenPair : Ty := aggregate 0 "Broken"

def brokenWorld : Universe := worldOfFields brokenPair brokenPair #[] #[memberField brokenPair "object" objectType]

/-- A new unit with a function of one number that is yet to be written. -/
def writingUnit : CompilationUnit := { freshUnit with module := withFunction freshUnit.module (bareFunction .i32) }

def brokenSite : Site := { bareSite with world := brokenWorld, compile := compileMethod brokenWorld brokenWorld.nestingLimit }

theorem consistent_brokenWorld : Consistent brokenWorld := by
  intro id m hm
  have hrecorded : ∀ t, (brokenWorld.recorded t).methods = #[] := by
    intro t
    rw [brokenWorld, recorded_worldOfFields]
    split <;> rfl
  cases id with
  | defined home row =>
    rcases home with ⟨_ | i, name⟩
    · have hnone : (#[] : Array Method)[row]? = some m := hm
      simp at hnone
    · have hnone : (#[] : Array Method)[row]? = some m := hm
      simp at hnone
  | special owner slot =>
    have hnone : ∀ id : MethodId, brokenWorld.specials[id]? = none := fun id ↦ Std.HashMap.getElem?_empty
    unfold Universe.method? at hm
    dsimp only at hm
    rw [hnone] at hm
    dsimp only at hm
    split at hm
    · rw [hrecorded] at hm
      cases hm
    · cases hm

theorem broken_pointer_fails (fuel : Nat) : ∃ e u', (compileType brokenWorld (fuel + 3) (.pointer brokenPair)).run.run
    writingUnit =
      (.error e, u') ∧ u'.types.length = 1 ∧ u'.module.structList.length = 1 ∧
      (request (compileType brokenWorld (fuel + 3) brokenPair) writingUnit).1.toOption.isSome = false ∧
      (request (compileType brokenWorld (fuel + 3) brokenPair) u').1.toOption.isSome = true := by
  delta compileType compileType._f compileAggregate
  simp only [Universe.instanceFields, Universe.fields, Universe.membersOf, brokenWorld, recorded_worldOfFields]
  exact ⟨_, _, rfl, rfl, rfl, rfl, rfl⟩

theorem run_bind_fails {α β : Type} {c : Compile α} {f : α → Compile β} {u u' : CompilationUnit} {e : CompileError}
    (h : c.run.run u = (.error e, u')) : (c >>= f).run.run u = (.error e, u') := by
  change (ExceptT.bindCont f (c.run.run u).1).run (c.run.run u).2 = _
  rw [h]
  rfl

theorem convertAt_pointer {site : Site} {p : Prim} {elem : Ty} {v : Value} {s : Stage} {u u' : CompilationUnit}
    {e : CompileError} (hnumeric : numeric (.prim p) (.pointer elem) = true)
    (hfails : (compileType site.world site.world.nestingLimit (.pointer elem)).run.run u = (.error e, u')) :
    convertAt site ⟨.prim p, v, false⟩ (.pointer elem) s u = (.error e, u') := by
  have hconvertible : convertible site.world (.pointer elem) (.prim p) = true := by
    rw [convertible, hnumeric]
    · simp
    · simp
  have hcounterpart : (((counterpart (.pointer elem)).run site).run s).run.run u = (.error e, u') :=
    run_bind_fails (run_bind_fails hfails)
  have hdirect : (convertDirectly ⟨.prim p, v, false⟩ (.pointer elem)).run site =
      (counterpart (.pointer elem) >>= fun dst ↦ do
        return ⟨.pointer elem, ← convertValue ⟨.prim p, v, false⟩ (.pointer elem) dst, false⟩ :
          Lower Operand).run site := by
    have hreference : (Ty.pointer elem).isByRef = false := rfl
    unfold convertDirectly
    simp only [hreference, Bool.false_and, Bool.false_eq_true, if_false, run_read_bind, hconvertible, Bool.not_true]
  have hconvert : convert ⟨.prim p, v, false⟩ (.pointer elem) = convertDirectly ⟨.prim p, v, false⟩
      (.pointer elem) := by
    have haddress : (Ty.prim p).isAddress = false := rfl
    simp [convert, convertFrom, haddress]
  rw [convertAt, hconvert, hdirect]
  exact run_bind_fails hcounterpart

theorem numbered_writingUnit : Numbered writingUnit.module := by
  refine Numbered.withFunction ⟨fun j g hg ↦ ?_, fun j hj ↦ ?_⟩ rfl
  · cases hg
  · cases hj

theorem broken_conversion_fails : ∃ e u',
    convertAt brokenSite ⟨.prim .int32, .param ⟨0⟩ 0 .i32, false⟩ (.pointer brokenPair) { fn := ⟨0⟩ } writingUnit =
    (.error e, u') ∧
      u'.types.length = 1 ∧ u'.module.structList.length = 1 ∧
      (getType brokenWorld brokenPair writingUnit).1.toOption.isSome = false ∧
      (getType brokenWorld brokenPair u').1.toOption.isSome = true := by
  obtain ⟨e, u', hrun, hrest⟩ := broken_pointer_fails 9997
  exact ⟨e, u', convertAt_pointer rfl hrun, hrest⟩

/-- A unit that only made a function for its caller refuses the aggregate. It gives it out once a conversion has failed.
-/
theorem failed_conversion_leaves_aggregate : ∃ e u',
    Consistent brokenWorld ∧ freshUnit.Reachable brokenWorld ∧ freshUnit.module.Precedes writingUnit.module ∧
      convertAt brokenSite ⟨.prim .int32, .param ⟨0⟩ 0 .i32, false⟩ (.pointer brokenPair) { fn := ⟨0⟩ } writingUnit =
        (.error e, u') ∧
      u'.types ≠ writingUnit.types ∧ u'.module.structList ≠ writingUnit.module.structList ∧
      (getType brokenWorld brokenPair writingUnit).1.toOption.isSome = false ∧
      (getType brokenWorld brokenPair u').1.toOption.isSome = true := by
  obtain ⟨e, u', hrun, htypes, hstructs, hbefore, hafter⟩ := broken_conversion_fails
  refine ⟨e, u', consistent_brokenWorld, .create "" {} false _ {} Trace.Tracing.nop 0, precedes_withFunction _ _,
    hrun, fun h ↦ ?_, fun h ↦ ?_, hbefore, hafter⟩
  · rw [h] at htypes
    cases htypes
  · rw [h] at hstructs
    cases hstructs

theorem failed_conversion_adds_broken : ∃ e u',
    Consistent brokenWorld ∧ Numbered writingUnit.module ∧
      convertAt brokenSite ⟨.prim .int32, .param ⟨0⟩ 0 .i32, false⟩ (.pointer brokenPair) { fn := ⟨0⟩ } writingUnit =
        (.error e, u') ∧
      u'.types.length = 1 ∧ Added ⟨0⟩ writingUnit u' := by
  obtain ⟨e, u', hrun, htypes, -⟩ := broken_conversion_fails
  exact ⟨e, u', consistent_brokenWorld, numbered_writingUnit, hrun, htypes,
    (failed_conversion_adds consistent_brokenWorld rfl rfl numbered_writingUnit hrun).1⟩

end CilSsa.Lowering

