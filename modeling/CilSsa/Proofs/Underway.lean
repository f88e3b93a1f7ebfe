import CilSsa.Proofs.LayoutAnswers
import CilSsa.Proofs.PassFrame
import CilSsa.Proofs.Registry

namespace CilSsa.Lowering

open CilSsa.Bytecode CilSsa.Metadata CilSsa.Text CilSsa.Passes
open CilSsa.Ssa (BlockId FuncId Function Instr Module StructDef memsetName)

/-- Function `g`, which has no code, was declared for a method that takes `args`, where 32-bit integers are taken for
such. -/
def DeclaredAs (world : Universe) (m : Method) (args : List Ty) (g : Function) : Prop :=
  ∃ name ret params, g = ⟨g.id, name, .func ret params, params.map fun t ↦ ⟨"", t⟩, #[], #[], [], 0⟩ ∧
    (∃ v v', Compiles (argumentTypes m) v args v') ∧
      ∃ v v', KnowsInt32 v ∧ Compiles (signature world m args) v (.func ret params) v'

/-- The body of a method was lowered into function `f` of the module `M`, in a unit that knows the sizes of integers and
pointers and takes 32-bit integers for such. -/
def LoweredInto (world : Universe) (m : Method) (body : Body) (f : FuncId) (M : Module) : Prop :=
  ∃ fuel args g u count u', DeclaredAs world m args g ∧ g.id = f ∧ KnowsInt32 u ∧ u.engine.layouts.Plain ∧
    Numbered u.module ∧ u.module.function? f = some g ∧
      Compiles (lowerBody world (compileMethod world fuel) m body args g) u count u' ∧ u'.module = M

/-- The body of function `f` was lowered and passed verification when the module had got so far, and stands as it was
then or as the passes left it. -/
def Verified (world : Universe) (m : Method) (body : Body) (u : CompilationUnit) (f : FuncId) : Prop :=
  ∃ (M : Module) (F : Function), M.Precedes u.module ∧ M.function? f = some F ∧ F.isDeclaration = false ∧
  M.verify F = [] ∧
    LoweredInto world m body f M ∧ u.module.function? f = some (if u.optimize then (runPasses Pass.all F).1 else F)

/-- A registered method that has a body has a function with a verified one. -/
def Finished (world : Universe) (u : CompilationUnit) (e : MethodId × FuncId) : Prop :=
  ∀ m body, world.method? e.1 = some m → m.body = some body → Verified world m body u e.2

/-- An engine that at most learnt layouts, and knows the sizes of integers and pointers. -/
structure Learns (e d : Machine.Engine) : Prop where
  engine : d = { e with layouts := d.layouts }
  layouts : d.layouts.Plain

/-- A unit that has all the code of the unit `b` as it was there. -/
structure Kept (b u : CompilationUnit) : Prop where
  coherent : Coherent u
  optimize : u.optimize = b.optimize
  functions : ∀ (i : Nat) (g : Function), b.module.functions[i]? = some g → u.module.functions[i]? = some g
  live : b.module.liveFunctions <+: u.module.liveFunctions
  structs : ∀ (i : Nat) (d : StructDef), b.module.structs[i]? = some d → u.module.structs[i]? = some d
  engine : Learns b.engine u.engine
  closed : u.closed = b.closed

/-- What a request that began in the unit `b` did so far: it noted down the types and methods that it registered, and
left alone all that was there. -/
structure Since (b u : CompilationUnit) : Prop extends Kept b u where
  types : ∃ new, u.types = new ++ b.types ∧ u.journal.types = new.map (·.1) ∧ ∀ e ∈ new, e.1 ∉ b.types.map (·.1)
  methods : ∃ new, u.methods = new ++ b.methods ∧ u.journal.methods = new.map (·.1)

/-- What a compilation has under way: functions whose body is not complete, and what they are registered for, those of
them that have blocks, structs that still lack their body, and how many aggregates are being built. -/
structure Underway where
  functions : FuncId → Prop
  entries : MethodId × FuncId → Prop
  begun : FuncId → Prop
  structs : Nat → Prop
  depth : Nat

namespace Underway

variable (w : Underway)

def nothing : Underway := ⟨fun _ ↦ False, fun _ ↦ False, fun _ ↦ False, fun _ ↦ False, 0⟩

def declared (e : MethodId × FuncId) : Underway :=
  { w with functions := fun g ↦ g = e.2 ∨ w.functions g, entries := fun e' ↦ e' = e ∨ w.entries e' }

def started (f : FuncId) : Underway := { w with begun := fun g ↦ g = f ∨ w.begun g }

theorem started_started (f : FuncId) : (w.started f).started f = w.started f := by
  simp only [started, or_self_left]

def hollow (id : Nat) : Underway := { w with structs := fun i ↦ i = id ∨ w.structs i }

def deeper : Underway := { w with depth := w.depth + 1 }

end Underway

/-- A unit in the middle of a request that began in `b`: all is complete but what is under way, and that is new. -/
structure Open (world : Universe) (b : CompilationUnit) (w : Underway) (u : CompilationUnit) :
    Prop extends Since b u where
  building : u.building = w.depth
  complete : ∀ e ∈ u.methods, ¬ w.functions e.2 → Finished world u e
  pending : ∀ f, w.functions f → b.module.functions.size ≤ f.index ∧ f.index < u.module.functions.size
  begun : ∀ f, w.begun f → ∃ F, u.module.function? f = some F ∧ F.isDeclaration = false
  bodies : ∀ id ∈ u.module.liveStructs, ¬ w.structs id → ((u.module.structs[id]?).bind (·.body)).isSome = true
  hollow : ∀ id, w.structs id → b.module.structs.size ≤ id
  entries : ∀ e, w.entries e → e ∈ u.methods
  int32 : KnowsInt32 u

section

variable {world : Universe} {b u u' : CompilationUnit} {w : Underway}

theorem Verified.mono {m : Method} {body : Body} {f : FuncId} (h : Verified world m body u f)
    (hm : u.module.Precedes u'.module) (hopt : u'.optimize = u.optimize)
    (hf : u'.module.function? f = u.module.function? f) : Verified world m body u' f := by
  obtain ⟨M, F, hpre, hF, hdecl, hverify, hlowered, hfun⟩ := h
  exact ⟨M, F, hpre.trans hm, hF, hdecl, hverify, hlowered, by rw [hf, hopt, hfun]⟩

theorem Finished.mono {e : MethodId × FuncId} (h : Finished world u e) (hm : u.module.Precedes u'.module)
    (hopt : u'.optimize = u.optimize) (hf : u'.module.function? e.2 = u.module.function? e.2) : Finished world u' e :=
  fun m body hm' hbody ↦ (h m body hm' hbody).mono hm hopt hf

theorem Coherent.of_registry (h : Coherent u) (hm : u'.module = u.module) (ht : u'.types = u.types)
    (hms : u'.methods = u.methods) : Coherent u' := by
  exact ⟨hm ▸ h.numbered, hms ▸ h.keys, by rw [hms, hm]; exact h.functions, hm ▸ h.names, hm ▸ h.spelled,
    by rw [ht, hm]; exact h.structs, hm ▸ h.structNames, hm ▸ h.structSpelled, ht ▸ h.kinds,
    by rw [ht, hm]; exact h.entries, ht ▸ h.structKeys⟩

theorem Learnt.plain {m : Module} {s s' : Ssa.Layouts} (h : Learnt m s s') (hs : s.Plain) : s'.Plain := by
  induction h with
  | nothing => exact hs
  | asked t _ ih => exact ih.learn m t

theorem Learns.same (h : Learns b.engine u.engine) (hs : SameEngine u u') : Learns b.engine u'.engine :=
  ⟨hs.engine.trans (by rw [h.engine]), hs.layouts.plain h.layouts⟩

theorem KnowsInt32.of_types (h : KnowsInt32 u) (ht : u'.types = u.types) : KnowsInt32 u' := by
  unfold KnowsInt32
  rw [ht]
  exact h

theorem KnowsInt32.cons (h : KnowsInt32 u) {t : Ty} {ct : CompiledType} (hct : t = int32 → ct.code = .i32)
    (ht : u'.types = (t, ct) :: u.types) : KnowsInt32 u' := by
  intro ct' hl
  rw [ht, List.lookup_cons] at hl
  split at hl
  · rename_i heq
    cases hl
    exact hct (eq_of_beq heq).symm
  · exact h ct' hl

theorem Since.same (h : Since b u) (hs : SameEngine u u') : Since b u' := by
  have hc := h.coherent.of_registry hs.module hs.types hs.methods
  have hengine := h.engine.same hs
  have hclosed := hs.closed.trans h.closed
  obtain ⟨ho, hm, ht, hms, hj, -⟩ := hs.toSameRegistry
  exact ⟨⟨hc, ho.trans h.optimize, hm ▸ h.functions, hm ▸ h.live, hm ▸ h.structs, hengine, hclosed⟩,
    by rw [ht, hj]; exact h.types,
    by rw [hms, hj]; exact h.methods⟩

theorem Open.same (h : Open world b w u) (hs : SameEngine u u') : Open world b w u' := by
  have hc := h.toSince.same hs
  obtain ⟨ho, hm, ht, hms, hj, hb⟩ := hs.toSameRegistry
  refine ⟨hc, hb.trans h.building, ?_, hm ▸ h.pending, hm ▸ h.begun, hm ▸ h.bodies, h.hollow, hms ▸ h.entries,
    h.int32.of_types ht⟩
  intro e he hpend
  rw [hms] at he
  exact (h.complete e he hpend).mono (hm ▸ .refl _) ho (by rw [hm])

theorem precedes_modify {m : Module} {fn : FuncId} {F F' : Function} (hF : m.function? fn = some F) (hid : F'.id = F.id)
    (hname : F'.name = F.name) (hsig : F'.signature = F.signature) : m.Precedes (m.modifyFunction fn fun _ ↦ F') := by
  refine ⟨fun i g hg ↦ ?_, fun i d hd ↦ ⟨d, hd, rfl, fun _ h ↦ h⟩⟩
  simp only [Module.modifyFunction, Array.getElem?_modify]
  split
  · rename_i hi
    subst hi
    cases hg.symm.trans hF
    exact ⟨F', by rw [hg]; rfl, hid, hname, hsig⟩
  · exact ⟨g, hg, rfl, rfl, rfl⟩

theorem function?_modify_ne {m : Module} {fn f : FuncId} (g : Function → Function) (h : f ≠ fn) :
    (m.modifyFunction fn g).function? f = m.function? f := by
  simp only [Module.function?, Module.modifyFunction, Array.getElem?_modify]
  rw [if_neg]
  intro hi
  exact h (by cases f; cases fn; cases hi; rfl)

theorem Open.modify (h : Open world b w u) {fn : FuncId} {F F' : Function} (hfn : w.functions fn)
    (hF : u.module.function? fn = some F) (hid : F'.id = F.id) (hname : F'.name = F.name)
    (hsig : F'.signature = F.signature) (hdecl : F.isDeclaration = false → F'.isDeclaration = false) :
    Open world b w { u with module := u.module.modifyFunction fn fun _ ↦ F' } := by
  have hpre := precedes_modify hF hid hname hsig
  refine ⟨⟨⟨h.coherent.modify hF hid hname, h.optimize, ?_, h.live, h.structs, h.engine, h.closed⟩, h.types, h.methods⟩,
    h.building, ?_, ?_, ?_, h.bodies, h.hollow, h.entries, h.int32⟩
  · intro i g hg
    have hlt := (Array.getElem?_eq_some_iff.mp hg).1
    have hle := (h.pending fn hfn).1
    simp only [Module.modifyFunction, Array.getElem?_modify]
    rw [if_neg (by omega)]
    exact h.functions i g hg
  · intro e he hpend
    refine (h.complete e he hpend).mono hpre rfl (function?_modify_ne _ ?_)
    rintro rfl
    exact hpend hfn
  · intro f hf
    simpa [Module.modifyFunction] using h.pending f hf
  · intro f hf
    obtain ⟨G, hG, hGdecl⟩ := h.begun f hf
    by_cases hfe : f = fn
    · subst hfe
      cases hG.symm.trans hF
      exact ⟨F', function?_modify hF F', hdecl hGdecl⟩
    · exact ⟨G, (function?_modify_ne _ hfe).trans hG, hGdecl⟩

theorem precedes_withFunction (m : Module) (g : Function) : m.Precedes (withFunction m g) :=
  ⟨fun i f hf ↦ ⟨f, withFunction_kept m g i f hf, rfl, rfl, rfl⟩, fun _ d hd ↦ ⟨d, hd, rfl, fun _ h ↦ h⟩⟩

theorem precedes_withStruct (m : Module) (name : String) : m.Precedes (withStruct m name) := by
  refine ⟨fun i g hg ↦ ⟨g, hg, rfl, rfl, rfl⟩, fun i d hd ↦ ⟨d, ?_, rfl, fun _ h ↦ h⟩⟩
  rw [withStruct, Array.getElem?_push, if_neg (Nat.ne_of_lt (Array.getElem?_eq_some_iff.mp hd).1)]
  exact hd

theorem precedes_setBody {m : Module} {id : Nat} (body : List Ssa.Ty) (hnone : (m.structs[id]?).bind (·.body) = none) :
    m.Precedes (withBody m id body) := by
  refine ⟨fun i g hg ↦ ⟨g, hg, rfl, rfl, rfl⟩, fun i d hd ↦ ?_⟩
  rw [getElem?_withBody]
  split
  · rename_i hi
    subst hi
    rw [hd] at hnone ⊢
    refine ⟨_, rfl, rfl, fun ts hts ↦ ?_⟩
    rw [Option.bind_some, hts] at hnone
    cases hnone
  · exact ⟨d, hd, rfl, fun _ h ↦ h⟩

theorem Coherent.function?_withFunction (h : Coherent u) (g : Function) {e : MethodId × FuncId} (he : e ∈ u.methods) :
    (withFunction u.module g).function? e.2 = u.module.function? e.2 := by
  obtain ⟨f, hf, -⟩ := h.function?_of_mem he
  rw [hf]
  exact withFunction_kept u.module g _ f hf

theorem Open.memset (h : Open world b w u) : Open world b w { u with module := u.module.memset.1 } := by
  have hc := h.coherent.memset
  rcases memset_cases u.module with hms | ⟨-, g, -, -, -, hms⟩
  · rw [hms]
    exact h
  · rw [hms] at hc ⊢
    refine ⟨⟨⟨hc, h.optimize, ?_, ?_, h.structs, h.engine, h.closed⟩, h.types, h.methods⟩, h.building, ?_,
    ?_, ?_, h.bodies,
      h.hollow, h.entries, h.int32⟩
    · exact fun i f hf ↦ withFunction_kept _ g i f (h.functions i f hf)
    · exact h.live.trans (List.prefix_append _ _)
    · exact fun e he hpend ↦
        (h.complete e he hpend).mono (precedes_withFunction _ g) rfl (h.coherent.function?_withFunction g he)
    · intro f hf
      have := h.pending f hf
      simp only [withFunction, Array.size_push]
      omega
    · intro f hf
      obtain ⟨F, hF, hdecl⟩ := h.begun f hf
      exact ⟨F, withFunction_kept _ g _ F hF, hdecl⟩

theorem Open.register (h : Open world b w u) {g : Function} {k : MethodId} (hid : g.id = ⟨u.module.functions.size⟩)
    (hfree : u.module.functionCalled? g.name = none) (hspelled : composed g.name = g.name) (hname : g.name ≠ memsetName)
    (hk : k ∉ u.methods.map (·.1)) :
    Open world b (w.declared (k, g.id)) { u with
      module := withFunction u.module g
      methods := (k, g.id) :: u.methods
      journal := { u.journal with methods := k :: u.journal.methods } } := by
  obtain ⟨new, hnew, hjournal⟩ := h.methods
  refine ⟨⟨⟨h.coherent.register hid hfree hspelled hname hk _, h.optimize, ?_, ?_, h.structs, h.engine, h.closed⟩,
    h.types, ?_⟩, h.building, ?_, ?_, ?_, h.bodies, h.hollow, ?_, h.int32⟩
  · exact fun i f hf ↦ withFunction_kept _ g i f (h.functions i f hf)
  · exact h.live.trans (List.prefix_append _ _)
  · refine ⟨(k, g.id) :: new, ?_, ?_⟩
    · rw [hnew]
      rfl
    · rw [hjournal]
      rfl
  · intro e he hpend
    rcases List.mem_cons.mp he with rfl | he
    · exact absurd (.inl rfl) hpend
    · refine (h.complete e he fun hp ↦ hpend (.inr hp)).mono (precedes_withFunction _ g) rfl ?_
      exact h.coherent.function?_withFunction g he
  · intro f hf
    simp only [withFunction, Array.size_push]
    rcases hf with rfl | hf
    · have hsize : b.module.functions.size ≤ u.module.functions.size := by
        by_contra hlt
        have hlt : u.module.functions.size < b.module.functions.size := by omega
        have := (Array.getElem?_eq_some_iff.mp (h.functions _ _ (Array.getElem?_eq_getElem hlt))).1
        omega
      rw [hid]
      exact ⟨hsize, Nat.lt_succ_self _⟩
    · have := h.pending f hf
      omega
  · intro f hf
    obtain ⟨F, hF, hdecl⟩ := h.begun f hf
    exact ⟨F, withFunction_kept _ g _ F hF, hdecl⟩
  · rintro e (rfl | he)
    · exact List.mem_cons_self
    · exact List.mem_cons_of_mem _ (h.entries e he)

theorem PlainCode.int32 {K : Ty → Ssa.Ty → Prop} {c : Ssa.Ty} (h : PlainCode K Lowering.int32 c) : c = .i32 := by
  cases h with
  | void h => cases h
  | scalar h => exact (Option.some.inj h).symm
  | bytes h => cases h
  | address h => cases h

theorem Open.withPlain (h : Open world b w u) {K : Ty → Ssa.Ty → Prop} {t : Ty} {c : Ssa.Ty} (hc : PlainCode K t c)
    (hnew : t ∉ b.types.map (·.1)) : Open world b w (u.withPlain t c) := by
  have hcode : CompiledType.struct? ⟨t, c, []⟩ = none := by
    have := hc.isStruct
    cases c <;> first | rfl | cases this
  obtain ⟨new, htypes, hjournal, hold⟩ := h.types
  refine ⟨⟨⟨h.coherent.remember hc.kind_ne hcode _, h.optimize, h.functions, h.live, h.structs, h.engine, h.closed⟩, ?_,
    h.methods⟩, h.building, h.complete, h.pending, h.begun, h.bodies, h.hollow, h.entries, h.int32.cons ?_ rfl⟩
  on_goal 2 =>
    rintro rfl
    exact hc.int32
  refine ⟨(t, ⟨t, c, []⟩) :: new, ?_, ?_, ?_⟩
  · exact congrArg _ htypes
  · exact congrArg _ hjournal
  · exact List.forall_mem_cons.mpr ⟨hnew, hold⟩

theorem Open.withStruct (h : Open world b w u) {t : Ty} {name : String} (hkind : t.kind = .valueType)
    (hkey : t ∉ u.types.map (·.1)) (hfree : some name ∉ u.module.liveStructs.map u.module.structNameOf)
    (hspelled : composed name = name) (members : List Field) :
    Open world b (w.hollow u.module.structs.size) { u with
      module := withStruct u.module name
      types := (t, ⟨t, .struct u.module.structs.size name, members⟩) :: u.types
      journal := { u.journal with types := t :: u.journal.types } } := by
  obtain ⟨new, htypes, hjournal, hold⟩ := h.types
  have hpre := precedes_withStruct u.module name
  have hint : t = Lowering.int32 → Ssa.Ty.struct u.module.structs.size name = .i32 := by
    rintro rfl
    cases hkind
  refine ⟨⟨⟨h.coherent.withStruct hkind hkey hfree hspelled members _, h.optimize, h.functions, h.live, ?_,
    h.engine, h.closed⟩, ?_, h.methods⟩, h.building, ?_, h.pending, h.begun, ?_, ?_, h.entries, h.int32.cons hint rfl⟩
  on_goal 2 =>
    refine ⟨(t, ⟨t, .struct u.module.structs.size name, members⟩) :: new, ?_, ?_, ?_⟩
    · rw [htypes]
      rfl
    · rw [hjournal]
      rfl
    · intro e he
      rcases List.mem_cons.mp he with rfl | he
      · intro hmem
        rw [htypes, List.map_append] at hkey
        exact hkey (List.mem_append_right _ hmem)
      · exact hold e he
  · intro i d hd
    have hd' := h.structs i d hd
    simp only [Lowering.withStruct]
    rw [Array.getElem?_push, if_neg (Nat.ne_of_lt (Array.getElem?_eq_some_iff.mp hd').1)]
    exact hd'
  · exact fun e he hpend ↦ (h.complete e he hpend).mono hpre rfl rfl
  · intro id hid hno
    have hne : id ≠ u.module.structs.size := fun hid' ↦ hno (.inl hid')
    have hlive : id ∈ u.module.liveStructs := by
      rcases List.mem_append.mp hid with hid | hid
      · exact hid
      · exact absurd (List.mem_singleton.mp hid) hne
    simp only [Lowering.withStruct]
    rw [Array.getElem?_push, if_neg hne]
    exact h.bodies id hlive fun hs ↦ hno (.inr hs)
  · intro id hid
    rcases hid with rfl | hid
    · by_contra hlt
      have hlt : u.module.structs.size < b.module.structs.size := by omega
      have := (Array.getElem?_eq_some_iff.mp (h.structs _ _ (Array.getElem?_eq_getElem hlt))).1
      omega
    · exact h.hollow id hid

theorem Open.setBody {id : Nat} (h : Open world b (w.hollow id) u) {body : List Ssa.Ty}
    (hnone : (u.module.structs[id]?).bind (·.body) = none) :
    Open world b w { u with module := withBody u.module id body } := by
  have hpre := precedes_setBody body hnone
  refine ⟨⟨⟨h.coherent.setBody id body, h.optimize, h.functions, h.live, ?_, h.engine, h.closed⟩, h.types, h.methods⟩,
    h.building, ?_, h.pending, h.begun, ?_, fun i hi ↦ h.hollow i (.inr hi), h.entries, h.int32⟩
  · intro i d hd
    have hlt := (Array.getElem?_eq_some_iff.mp hd).1
    have hle := h.hollow id (.inl rfl)
    rw [getElem?_withBody, if_neg (by omega)]
    exact h.structs i d hd
  · exact fun e he hpend ↦ (h.complete e he hpend).mono hpre rfl rfl
  · intro i hi hno
    rw [getElem?_withBody]
    split
    · rename_i heq
      subst heq
      have hlt := h.coherent.liveStruct_lt hi
      simp [hlt]
    · rename_i hne
      refine h.bodies i hi fun hs ↦ ?_
      rcases hs with rfl | hs
      · exact hne rfl
      · exact hno hs

theorem Open.counted (h : Open world b w u) (n : Nat) :
    Open world b { w with depth := n } { u with building := n } := by
  exact ⟨⟨⟨h.coherent.of_registry rfl rfl rfl, h.optimize, h.functions, h.live, h.structs, h.engine, h.closed⟩, h.types,
    h.methods⟩, rfl, h.complete, h.pending, h.begun, h.bodies, h.hollow, h.entries, h.int32⟩

theorem Open.addBlock (h : Open world b w u) {fn : FuncId} (hfn : w.functions fn) (name : String) :
    Open world b (w.started fn) { u with module := (u.module.addBlock fn name).1 } := by
  have hlt := (h.pending fn hfn).2
  obtain ⟨F, hF⟩ : ∃ F, u.module.function? fn = some F := ⟨_, Array.getElem?_eq_getElem hlt⟩
  have hadd : (u.module.addBlock fn name).1 = u.module.modifyFunction fn fun _ ↦ (F.addBlock name).1 := by
    simp only [Module.addBlock, hF]
  have hkept := uniqueName_kept F (if name = "" then "bb" else name)
  have hdecl : (F.addBlock name).1.isDeclaration = false := by
    simp [Function.isDeclaration, Function.addBlock]
  rw [hadd]
  have hopen : Open world b w { u with module := u.module.modifyFunction fn fun _ ↦ (F.addBlock name).1 } :=
    h.modify hfn hF hkept.2.2.1 hkept.2.2.2.1 hkept.2.2.2.2.1 fun _ ↦ hdecl
  refine ⟨hopen.toSince, hopen.building, hopen.complete, hopen.pending, ?_, hopen.bodies, hopen.hollow, hopen.entries,
    hopen.int32⟩
  intro f hf
  rcases hf with rfl | hf
  · exact ⟨_, function?_modify hF _, hdecl⟩
  · exact hopen.begun f hf

theorem Open.append (h : Open world b w u) {fn : FuncId} (hfn : w.functions fn) (k : Nat) (i : Instr) :
    Open world b w { u with module := (u.module.append ⟨fn, k⟩ i).1 } := by
  have hlt := (h.pending fn hfn).2
  obtain ⟨F, hF⟩ : ∃ F, u.module.function? fn = some F := ⟨_, Array.getElem?_eq_getElem hlt⟩
  have happend : (u.module.append ⟨fn, k⟩ i).1 = u.module.modifyFunction fn fun _ ↦ (F.append k i).1 := by
    simp only [Module.append, hF]
  rw [happend]
  refine h.modify hfn hF (append_id F k i) (append_name F k i) (append_signature F k i) fun hdecl ↦ ?_
  simp only [Function.isDeclaration, Array.isEmpty, Function.append, (uniqueName_kept F i.name).2.1,
    Array.size_modify] at hdecl ⊢
  exact hdecl

end

section

variable {world : Universe} {b : CompilationUnit} {w : Underway}

instance stable_open : Stable (Open world b w) (Since b) where
  fails h := h.toSince
  same h hs := h.same hs.toSameEngine
  sameFailed h hs := h.same hs.toSameEngine

theorem growable_open {fn : FuncId} (hfn : w.functions fn) : Growable (Open world b w) (Since b) fn where
  append k i h := h.append hfn k i
  memset h := h.memset

def SameMethods (v u : CompilationUnit) : Prop :=
  u.methods = v.methods ∧ u.module.liveFunctions = v.module.liveFunctions

/-- Types are compiled and no method or function is added since the unit `v₀`. -/
def Typing (world : Universe) (b : CompilationUnit) (w : Underway) (v₀ u : CompilationUnit) : Prop :=
  Open world b w u ∧ SameMethods v₀ u

def Mistyped (b v₀ u : CompilationUnit) : Prop := Since b u ∧ SameMethods v₀ u

variable {v₀ : CompilationUnit}

theorem Typing.fails {u : CompilationUnit} (h : Typing world b w v₀ u) : Mistyped b v₀ u := ⟨h.1.toSince, h.2⟩

theorem spec_newStruct {E : CompilationUnit → Prop} (base : String) (v : CompilationUnit) :
    Spec (· = v) (newStruct base) (fun st u ↦ ∃ name, (composed name = name ∧
      some name ∉ v.module.liveStructs.map v.module.structNameOf ∧ st = .struct v.module.structs.size name) ∧
      u = { v with module := withStruct v.module name }) E := by
  have htaken : ∀ n, (v.module.structNamed? n).isSome = true →
      some (composed n) ∈ v.module.liveStructs.map v.module.structNameOf := by
    intro n hn
    rw [Module.structNamed?, Option.isSome_map, List.find?_isSome] at hn
    obtain ⟨i, hi, heq⟩ := hn
    exact List.mem_map.mpr ⟨i, hi, by simpa [Module.structNameOf] using heq⟩
  have hfree := freeName_free htaken base
  rw [List.length_map] at hfree
  generalize hname : freeName (fun n ↦ (v.module.structNamed? n).isSome) base (v.module.liveStructs.length + 1) 0 = name
    at hfree
  have hnone : v.module.structNamed? name = none := by simpa using hfree
  have hnamed : v.module.namedStruct name =
      (withStruct v.module (composed name), .struct v.module.structs.size (composed name)) := by
    simp only [Module.namedStruct, hnone]
    rfl
  refine .of_get fun _ ↦ ?_
  rintro v ⟨rfl, rfl⟩
  dsimp only
  rw [hname, hnamed]
  refine Spec.bind (P := fun _ ↦ True) (Q := fun _ u' ↦ u' = { v with module := withStruct v.module (composed name) })
    (.set fun _ _ ↦ rfl) (fun _ ↦ .pure fun u' hu' ↦ ⟨composed name, ⟨composed_composed name, ?_, rfl⟩, hu'⟩) _ trivial
  intro hmem
  obtain ⟨i, hi, heq⟩ := List.mem_map.mp hmem
  rw [Module.structNamed?, Option.map_eq_none_iff, List.find?_eq_none] at hnone
  exact hnone i hi (by simpa [Module.structNameOf] using heq)

/-- How a property of units comes through the compilation of an aggregate: `K` holds while its members are compiled, `M`
once they are, `J` from when its struct has the body. -/
theorem spec_compileAggregate_of {compile : Ty → Compile CompiledType} {t : Ty} {v : CompilationUnit}
    {K J : String → CompilationUnit → Prop} {M : String → List Ssa.Ty → CompilationUnit → Prop}
    {E : CompilationUnit → Prop} (hopen : E v)
    (hbegin : ∀ name, composed name = name → some name ∉ v.module.liveStructs.map v.module.structNameOf →
    K name { v with
      module := withStruct v.module name
      types := (t, ⟨t, .struct v.module.structs.size name, world.instanceFields t⟩) :: v.types
      journal := { v.journal with types := t :: v.journal.types }
      building := v.building + 1 })
    (hmembers : ∀ name, Spec (K name) (compileMembers compile t (world.instanceFields t)) (M name) E)
    (hfails : ∀ name body u, M name body u → E { u with building := u.building - 1 })
    (hbody : ∀ name body u, M name body u → (u.module.structs[v.module.structs.size]?).bind (·.body) = none →
      J name { u with module := withBody u.module v.module.structs.size body, building := u.building - 1 })
    (hlayouts : ∀ name u st, J name u →
      J name { u with engine := { u.engine with layouts := (u.engine.layouts.of u.module st).2 } })
    (hunsized : ∀ name u, J name u → E u) (habandoned : ∀ u, E u → E { u with building := u.building - 1 }) :
    Spec (· = v) (compileAggregate world compile t) (fun ct u ↦
      ∃ name, ct = ⟨t, .struct v.module.structs.size name, world.instanceFields t⟩ ∧ J name u) E := by
  unfold compileAggregate
  split
  · exact .throw_bind fun _ hu ↦ hu ▸ hopen
  refine (spec_newStruct _ v).bind fun st ↦ .of_exists fun name ↦ .of_and ?_
  rintro ⟨hspelled, hfree, rfl⟩
  refine Spec.bind (Q := fun ct u ↦ ct = ⟨t, .struct v.module.structs.size name, world.instanceFields t⟩ ∧
    K name { u with building := u.building + 1 }) (.of_run (fun _ ↦ rfl) ?_) fun ct ↦ .of_and ?_
  · rintro u rfl
    exact ⟨rfl, hbegin name hspelled hfree⟩
  rintro rfl
  refine Spec.bind (Q := fun _ ↦ K name) (.modify fun _ hu ↦ hu) fun _ ↦
    ((hmembers name).abandoning (habandoned _)).bind fun body ↦ ?_
  refine Spec.bind (Q := fun _ u ↦ ∃ u₀, M name body u₀ ∧ u = { u₀ with building := u₀.building - 1 })
    (.modify fun u hu ↦ ⟨u, hu, rfl⟩) fun _ ↦ .of_get ?_
  rintro _ _ ⟨rfl, u, hu, rfl⟩
  unfold Module.setBody
  dsimp only
  split
  · exact Spec.throw_bind (P := fun w ↦ w = { u with building := u.building - 1 })
      (fun _ hw ↦ hw ▸ hfails name body u hu) _ rfl
  · rename_i hset
    split at hset
    · cases hset
    · rename_i hnone
      cases hset
      rw [Option.not_isSome_iff_eq_none] at hnone
      exact Spec.bind (P := fun w ↦ w = { u with building := u.building - 1 }) (Q := fun _ ↦ J name)
        (.set fun _ _ ↦ hbody name body u hu hnone) (fun _ ↦ spec_layOut (fun _ hw ↦ hlayouts name _ _ hw)
          (fun _ hw ↦ ⟨name, rfl, hw⟩) fun _ ↦ hunsized name _) _ rfl

theorem not_registered {v : CompilationUnit} {new : List (Ty × CompiledType)} {t : Ty} (ht : v.types = new ++ b.types)
    (hl : v.types.lookup t = none) : t ∉ b.types.map (·.1) := by
  have hkey := not_mem_keys_of_lookup hl
  rw [ht, List.map_append] at hkey
  exact fun hmem ↦ hkey (List.mem_append_right _ hmem)

theorem spec_compileAggregate {compile : Ty → Compile CompiledType}
    (hcompile : ∀ w t, Spec (Typing world b w v₀) (compile t) (fun _ ↦ Typing world b w v₀) (Mistyped b v₀)) {t : Ty}
    (hkind : t.kind = .valueType) {v : CompilationUnit} (hkey : t ∉ v.types.map (·.1)) (hv : Typing world b w v₀ v) :
    Spec (· = v) (compileAggregate world compile t) (fun _ ↦ Typing world b w v₀) (Mistyped b v₀) := by
  have hcounted : ∀ {w u} (n : Nat), Typing world b w v₀ u → Typing world b { w with depth := n } v₀
    { u with building := n } :=
    fun n hu ↦ ⟨hu.1.counted n, hu.2⟩
  refine (spec_compileAggregate_of (K := fun _ ↦ Typing world b (w.hollow v.module.structs.size).deeper v₀)
    (M := fun _ _ ↦ Typing world b (w.hollow v.module.structs.size).deeper v₀) (J := fun _ ↦ Typing world b w v₀)
    hv.fails
    (fun name hspelled hfree ↦ ?_) (fun _ ↦ spec_compileMembers_keeps (hcompile _) (fun _ hu ↦ hu.fails) _ _)
      (fun _ _ u hu ↦ ?_)
    (fun _ body u hu hnone ↦ ?_) (fun _ u st hu ↦ ⟨hu.1.same ⟨⟨rfl, rfl, rfl, rfl, rfl, rfl⟩, .asked st .nothing,
      rfl, rfl⟩, hu.2⟩)
    (fun _ _ hu ↦ hu.fails) fun _ hu ↦ ⟨{ hu.1 with coherent := hu.1.coherent.of_registry rfl rfl rfl }, hu.2⟩).imp
    (fun _ hu ↦ hu) fun _ _ hu ↦ hu.elim fun _ hu ↦ hu.2
  · rw [hv.1.building]
    exact ⟨(hv.1.withStruct hkind hkey hfree hspelled _).counted _, hv.2⟩
  · rw [hu.1.building]
    exact (hcounted w.depth hu).fails
  · rw [hu.1.building]
    exact ⟨(hu.1.setBody (w := w.deeper) hnone).counted w.depth, hu.2⟩

theorem spec_compileType (fuel : Nat) (w : Underway) (t : Ty) :
    Spec (Typing world b w v₀) (compileType world fuel t) (fun _ ↦ Typing world b w v₀) (Mistyped b v₀) :=
  (spec_compileType_of (J := fun w ↦ Typing world b w v₀) (R := fun _ _ _ ↦ True) (fun hu ↦ hu.fails)
    (fun _ _ ↦ trivial) (fun _ ↦ trivial)
    (fun hv hl hc hu ↦ ⟨trivial, hu.1.withPlain hc (hv.1.types.elim fun _ ht ↦ not_registered ht.1 hl), hu.2⟩)
    (fun hcompile hk hl hv ↦ (spec_compileAggregate (fun w t ↦ (hcompile w t).imp (fun _ hu ↦ hu) fun _ _ hu ↦ hu.2) hk
      (not_mem_keys_of_lookup hl) hv).imp (fun _ hu ↦ hu) fun _ _ hu ↦ ⟨trivial, hu⟩) fuel w t).imp (fun _ hu ↦ hu)
      fun _ _ hu ↦ hu.2

theorem spec_type (limit : Nat) (t : Ty) :
    Spec (Open world b w) (compileType world limit t) (fun _ ↦ Open world b w) (Since b) := by
  intro u hu
  obtain ⟨hok, herror⟩ := spec_compileType limit w t u ⟨hu, rfl, rfl⟩
  exact ⟨fun a u' hc ↦ (hok a u' hc).1, fun e u' hc ↦ (herror e u' hc).1⟩

theorem spec_register {m : Method} {args : List Ty} (hm : m.id ∉ v₀.methods.map (·.1))
    (hargs : ∃ v v', Compiles (argumentTypes m) v args v') {sig : Ssa.Ty}
    (hsig : ∃ v v', KnowsInt32 v ∧ Compiles (signature world m args) v sig v') :
    Spec (Typing world b w v₀) (register m sig) (fun f u ↦ Open world b (w.declared (m.id, f)) u ∧
      ∃ g, (DeclaredAs world m args g ∧ g.id = f) ∧ u.module.function? f = some g) (Since b) := by
  refine .of_get fun v ↦ ?_
  obtain ⟨j, hcandidate⟩ := freeName_candidate (fun n ↦ (v.module.functionNamed? n).isSome) (functionName m)
    (v.module.liveFunctions.length + 1)
  dsimp only
  rw [hcandidate]
  have hfails : ∀ u, u = v ∧ Typing world b w v₀ v → Since b u := fun _ hu ↦ hu.1 ▸ hu.2.1.toSince
  have hspelled := composed_composed (candidate (functionName m) j)
  have hname := functionName_ne_memset m j
  unfold Module.addFunction Module.functionNamed?
  generalize composed (candidate (functionName m) j) = name at hspelled hname ⊢
  split
  · exact .throw hfails
  rename_i hadd
  split at hadd
  · rename_i ret params
    split at hadd
    · cases hadd
    rename_i hnone
    rw [Option.not_isSome_iff_eq_none] at hnone
    cases hadd
    refine Spec.bind (.set fun u hu ↦ ?_) fun _ ↦ .pure fun _ hu ↦ hu
    have hk : m.id ∉ v.methods.map (·.1) := hu.2.2.1 ▸ hm
    let g : Function :=
      ⟨⟨v.module.functions.size⟩, name, .func ret params, params.map fun t ↦ ⟨"", t⟩, #[], #[], [], 0⟩
    exact ⟨hu.2.1.register (g := g) rfl hnone hspelled hname hk, g, ⟨⟨name, ret, params, rfl, hargs, hsig⟩, rfl⟩,
      by simp [Module.function?, g]⟩
  · cases hadd

/-- A function that is under way, and was lowered and verified. -/
def Checked (world : Universe) (b : CompilationUnit) (w : Underway) (m : Method) (body : Body) (f : FuncId)
    (u : CompilationUnit) : Prop :=
  Open world b (w.started f) u ∧ LoweredInto world m body f u.module ∧ ∃ F, u.module.function? f = some F ∧
    u.module.verify F = []

variable {m : Method} {body : Body} {f : FuncId}

theorem spec_verify (span : Trace.Span) (hf : w.functions f) :
    Spec (fun u ↦ LoweredInto world m body f u.module ∧ Open world b (w.started f) u) (verify m f span)
      (fun _ ↦ Checked world b w m body f) (Since b) := by
  refine .of_get fun v ↦ ?_
  split
  · rename_i hverify
    refine .pure fun u hu ↦ ?_
    obtain ⟨rfl, hlowered, hu⟩ := hu
    obtain ⟨F, hF⟩ : ∃ F, u.module.function? f = some F := ⟨_, Array.getElem?_eq_getElem (hu.pending f hf).2⟩
    rw [hF] at hverify
    exact ⟨hu, hlowered, F, hF, hverify⟩
  · refine Spec.bind (Q := fun _ ↦ Open world b (w.started f)) ?_ fun _ ↦
      .bind (Q := fun _ ↦ Open world b (w.started f)) ?_ fun _ ↦ .throw fun _ hu ↦ hu.toSince
    · exact (spec_endSpan (J := Open world b (w.started f)) (E := Since b) span _ true).imp (fun _ hu ↦ hu.1 ▸ hu.2.2)
        fun _ _ hu ↦ hu
    · exact .modify fun _ hu ↦ hu.same ⟨⟨rfl, rfl, rfl, rfl, rfl, rfl⟩, .nothing, rfl, rfl⟩

theorem Open.entry {u : CompilationUnit} (h : Open world b (w.declared (m.id, f)) u) (hm : Found world m)
    {e : MethodId × FuncId} (he : e ∈ u.methods) (hef : e.2 = f) {m' : Method} (hm' : world.method? e.1 = some m') :
    m' = m := by
  obtain rfl : e = (m.id, f) :=
    List.inj_on_of_nodup_map h.coherent.values he (h.entries _ (.inl rfl)) (by rw [hef])
  exact Option.some.inj (hm'.symm.trans hm)

theorem Open.finish {u : CompilationUnit} (h : Open world b ((w.declared (m.id, f)).started f) u) (hm : Found world m)
    (hbody : m.body = some body) (hf : Verified world m body u f) : Open world b w u := by
  refine ⟨h.toSince, h.building, fun e he hpend ↦ ?_, fun g hg ↦ h.pending g (.inr hg),
    fun g hg ↦ h.begun g (.inr hg), h.bodies, h.hollow, fun e he ↦ h.entries e (.inr he), h.int32⟩
  by_cases hef : e.2 = f
  · intro m' body' hm' hbody'
    obtain rfl := Open.entry (w := w.started f) h hm he hef hm'
    cases hbody.symm.trans hbody'
    exact hef ▸ hf
  · exact h.complete e he fun hp ↦ hp.elim hef hpend

theorem Checked.finish {u : CompilationUnit} (h : Checked world b (w.declared (m.id, f)) m body f u)
    (hm : Found world m) (hbody : m.body = some body) (hopt : u.optimize = false) : Open world b w u := by
  obtain ⟨hopen, hlowered, F, hF, hverify⟩ := h
  obtain ⟨F', hF', hdecl⟩ := hopen.begun f (.inl rfl)
  cases hF'.symm.trans hF
  exact hopen.finish hm hbody ⟨u.module, F, .refl _, hF, hdecl, hverify, hlowered, by rw [hF, hopt]; rfl⟩

theorem spec_optimise (span : Trace.Span) (hm : Found world m) (hbody : m.body = some body) :
    Spec (fun u ↦ Checked world b (w.declared (m.id, f)) m body f u ∧ u.optimize = true) (optimise f span)
      (fun _ ↦ Open world b w) (Since b) := by
  refine .of_get fun v ↦ ?_
  cases hF : v.module.function? f with
  | none =>
    refine .pure fun u hu ↦ ?_
    obtain ⟨rfl, ⟨-, -, F, hF', -⟩, -⟩ := hu
    cases hF.symm.trans hF'
  | some F =>
    refine Spec.bind (Q := fun _ ↦ Open world b w) (.set fun u hu ↦ ?_) fun _ ↦ .pure fun _ hu ↦ hu
    obtain ⟨rfl, ⟨hopen, hlowered, F₁, hF₁, hverify⟩, hopt⟩ := hu
    cases hF₁.symm.trans hF
    obtain ⟨F₂, hF₂, hdecl⟩ := hopen.begun f (.inl rfl)
    cases hF₂.symm.trans hF
    have hsame := sameHeading_runPasses Pass.all F
    refine (hopen.modify (.inl rfl) hF hsame.id hsame.name hsame.signature fun _ ↦ hsame.isDeclaration.trans
      hdecl).finish hm hbody ?_
    refine ⟨u.module, F, precedes_modify hF hsame.id hsame.name hsame.signature, hF, hdecl, hverify, hlowered, ?_⟩
    rw [function?_modify hF, if_pos hopt]

instance stable_function {J E : CompilationUnit → Prop} [h : Stable J E] {g : Function} :
    Stable (fun u ↦ J u ∧ u.module.function? f = some g) E where
  fails hu := h.fails hu.1
  same hu hs := ⟨h.same hu.1 hs, hs.module ▸ hu.2⟩
  sameFailed hu hs := h.sameFailed hu hs

theorem spec_buildBody {fuel : Nat} {args : List Ty} {g : Function} (hworld : Consistent world) (hm : Found world m)
    (hbody : m.body = some body) (hg : DeclaredAs world m args g) (hid : g.id = f)
    (hmethods : ∀ w m, Found world m →
    Spec (Open world b w) (compileMethod world fuel m) (fun _ ↦ Open world b w) (Since b)) :
    Spec (fun u ↦ Open world b (w.declared (m.id, f)) u ∧ u.module.function? f = some g)
      (buildBody world (compileMethod world fuel) m body args f) (fun _ ↦ Open world b w) (Since b) := by
  have hlower : Spec (fun u ↦ Open world b (w.declared (m.id, f)) u ∧ u.module.function? f = some g)
      (lowerBody world (compileMethod world fuel) m body args g)
      (fun _ u ↦ LoweredInto world m body f u.module ∧ Open world b ((w.declared (m.id, f)).started f) u)
        (Since b) := by
    have hgrow : Growable (Open world b ((w.declared (m.id, f)).started f)) (Since b) f := growable_open (.inl rfl)
    have hopen : Spec (Open world b (w.declared (m.id, f))) (lowerBody world (compileMethod world fuel) m body args g)
        (fun _ ↦ Open world b ((w.declared (m.id, f)).started f)) (Since b) := by
      refine spec_lowerBody hid (spec_type _) (fun id m hm ↦ hmethods _ m (hworld id m hm))
        (fun u name hu ↦ hu.addBlock (.inl rfl) name) fun u name hu ↦ ?_
      rw [← Underway.started_started]
      exact hu.addBlock (.inl rfl) name
    refine ((hopen.imp (fun _ hu ↦ hu.1) fun _ _ hu ↦ hu).traced).imp (fun _ hu ↦ hu) fun count u hu ↦ ?_
    obtain ⟨hu, v, ⟨hv, hfound⟩, hc⟩ := hu
    exact ⟨⟨fuel, args, g, v, count, u, hg, hid, hv.int32, hv.engine.layouts, hv.coherent.numbered, hfound, hc, rfl⟩,
      hu⟩
  unfold buildBody
  refine (spec_beginSpan _ _).bind fun span ↦ spec_inside (.of_get fun v ↦ ?_)
  refine Spec.forget (P := fun u ↦ Open world b (w.declared (m.id, f)) u ∧ u.module.function? f = some g) fun hv ↦ ?_
  rw [hv.2]
  refine (spec_failing (fun h hs ↦ h.same hs.toSameEngine) hlower).bind fun blocks ↦ ?_
  refine (spec_verify (w := w.declared (m.id, f)) span (.inl rfl)).bind fun _ ↦ .of_get fun v' ↦ ?_
  have hend : ∀ span : Trace.Span, Spec (Open world b w) (endSpan (span.attr "blocks" (toString blocks)) "ok" false)
    (fun _ ↦ Open world b w) (Since b) := fun span ↦ spec_endSpan _ _ _
  dsimp only
  split
  · rename_i hopt
    refine Spec.bind (Q := fun _ ↦ Open world b w) ?_ hend
    exact (spec_optimise span hm hbody).imp (fun u hu ↦ hu.1 ▸ ⟨hu.2, hopt⟩) fun _ _ hu ↦ hu
  · rename_i hopt
    refine Spec.bind (Q := fun _ ↦ Open world b w) (.pure fun u hu ↦ ?_) hend
    rw [hu.1]
    exact hu.2.finish hm hbody (by simpa using hopt)

theorem Open.declare {u : CompilationUnit} (h : Open world b (w.declared (m.id, f)) u) (hm : Found world m)
    (hbody : m.body = none) : Open world b w u := by
  refine ⟨h.toSince, h.building, fun e he hpend ↦ ?_, fun g hg ↦ h.pending g (.inr hg), h.begun, h.bodies, h.hollow,
    fun e he ↦ h.entries e (.inr he), h.int32⟩
  by_cases hef : e.2 = f
  · intro m' body hm' hbody'
    obtain rfl := h.entry hm he hef hm'
    cases hbody.symm.trans hbody'
  · exact h.complete e he fun hp ↦ hp.elim hef hpend

/-- A method is compiled, and all that it needs is registered and complete with it. -/
theorem spec_compileMethod (hworld : Consistent world) (fuel : Nat) (w : Underway) {m : Method} (hm : Found world m) :
    Spec (Open world b w) (compileMethod world fuel m) (fun _ ↦ Open world b w) (Since b) := by
  induction fuel generalizing w m with
  | zero => exact .throw fun _ hu ↦ hu.toSince
  | succ fuel ih =>
    rw [compileMethod]
    refine .of_get fun v ↦ ?_
    split
    · exact .pure fun _ hu ↦ hu.1 ▸ hu.2
    · rename_i hlookup
      refine Spec.imp (P := Typing world b w v) ?_ (fun u hu ↦ ?_) fun _ _ hu ↦ hu
      on_goal 2 =>
        rw [hu.1]
        exact ⟨hu.2, rfl, rfl⟩
      have hcode : ∀ t, Spec (Typing world b w v) (codeType world t) (fun _ ↦ Typing world b w v) (Mistyped b v) :=
        fun t ↦ (spec_compileType _ w t).bind fun _ ↦ .pure fun _ hu ↦ hu
      have hfails : ∀ u, Typing world b w v u → Mistyped b v u := fun _ hu ↦ hu.fails
      refine ((spec_argumentTypes_keeps hfails m).weaken fun _ hu ↦ hu.1).traced.bind fun args ↦ ?_
      refine Spec.imp (P := fun u ↦ (∃ v v', Compiles (argumentTypes m) v args v') ∧ Typing world b w v u)
        (.of_and fun hargs ↦ ?_) (fun u hu ↦ ⟨hu.2.imp fun _ hc ↦ ⟨u, hc.2⟩, hu.1⟩) fun _ _ hu ↦ hu
      refine ((spec_signature_keeps hfails hcode m args).weaken fun _ hu ↦ hu.1).traced.bind fun sig ↦ ?_
      refine Spec.imp (P := fun u ↦ (∃ v v', KnowsInt32 v ∧ Compiles (signature world m args) v sig v') ∧
        Typing world b w v u) (.of_and fun hsig ↦ ?_) (fun u hu ↦ ⟨hu.2.imp fun _ hc ↦ ⟨u, hc.1.1.int32, hc.2⟩, hu.1⟩)
        fun _ _ hu ↦ hu
      refine (spec_register (not_mem_keys_of_lookup hlookup) hargs hsig).bind fun f ↦ ?_
      split
      · rename_i hbody
        exact .pure fun u hu ↦ hu.1.declare hm hbody
      · rename_i body hbody
        refine Spec.bind (Q := fun _ ↦ Open world b w) ?_ fun _ ↦ .pure fun _ hu ↦ hu
        refine Spec.imp (P := fun u ↦ ∃ g, (DeclaredAs world m args g ∧ g.id = f) ∧
          (Open world b (w.declared (m.id, f)) u ∧ u.module.function? f = some g))
          (.of_exists fun g ↦ .of_and fun hg ↦ spec_buildBody hworld hm hbody hg.1 hg.2 fun w m hm ↦ ih w hm)
          (fun u hu ↦ hu.2.imp fun g hg ↦ ⟨hg.1, hu.1, hg.2⟩) fun _ _ hu ↦ hu

end

end CilSsa.Lowering

