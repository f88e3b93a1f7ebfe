import CilSsa.Proofs.Invocation
import CilSsa.Proofs.Underway

namespace CilSsa.Lowering

open CilSsa.Bytecode CilSsa.Metadata CilSsa.Text CilSsa.Passes CilSsa.Machine
open CilSsa.Ssa (BlockId FuncId Function Instr Module StructDef memsetName)

/-! ### What a failure takes back -/

section

variable {b v : CompilationUnit}

theorem Kept.nameOf (h : Kept b v) (hb : Coherent b) {i : Nat} (hi : i ∈ b.module.liveFunctions) :
    v.module.nameOf i = b.module.nameOf i := by
  have hlt := hb.numbered.live i hi
  have hfun := h.functions i _ (Array.getElem?_eq_getElem hlt)
  rw [Module.nameOf, Module.nameOf, hfun, Array.getElem?_eq_getElem hlt]

theorem Kept.not_live (h : Kept b v) (hb : Coherent b) {e : MethodId × FuncId} {new : List (MethodId × FuncId)}
    (hmethods : v.methods = e :: new ++ b.methods) : e.2.index ∉ b.module.liveFunctions := by
  intro hlive
  have he : e ∈ v.methods := by rw [hmethods]; exact List.mem_cons_self
  have hname := (h.coherent.live_of_mem he).2
  rw [h.nameOf hb hlive] at hname
  have hold : e.2.index ∈ b.methods.map (·.2.index) := by
    rw [← List.mem_reverse, hb.functions]
    exact List.mem_filter.mpr ⟨hlive, by simpa using hname⟩
  have hnodup := h.coherent.values
  rw [hmethods, List.cons_append, List.map_cons, List.map_append] at hnodup
  exact (List.nodup_cons.mp hnodup).1 (List.mem_append_right _ hold)

theorem filter_keys_of_not_mem {α β : Type} [DecidableEq α] {l : List (α × β)} {a : α} (h : a ∉ l.map (·.1)) :
    l.filter (·.1 ≠ a) = l := by
  rw [List.filter_eq_self]
  intro e he
  have hne : e.1 ≠ a := fun heq ↦ h (heq ▸ List.mem_map_of_mem he)
  simpa using hne

theorem Kept.forgetMethods (hb : Coherent b) (new : List (MethodId × FuncId)) (h : Kept b v)
    (hmethods : v.methods = new ++ b.methods) :
    Kept b ((new.map (·.1)).foldl CompilationUnit.forgetMethod v) ∧
      ((new.map (·.1)).foldl CompilationUnit.forgetMethod v).methods = b.methods ∧
      ((new.map (·.1)).foldl CompilationUnit.forgetMethod v).types = v.types ∧
      ((new.map (·.1)).foldl CompilationUnit.forgetMethod v).journal = v.journal := by
  induction new generalizing v with
  | nil => exact ⟨h, hmethods, rfl, rfl⟩
  | cons e new ih =>
    have hkeys := h.coherent.keys
    rw [hmethods, List.cons_append, List.map_cons, List.nodup_cons] at hkeys
    have hlookup : v.methods.lookup e.1 = some e.2 := by
      rw [hmethods, List.cons_append, List.lookup_cons]
      simp
    have hrest : v.methods.filter (·.1 ≠ e.1) = new ++ b.methods := by
      rw [hmethods, List.cons_append, List.filter_cons_of_neg (by simp), filter_keys_of_not_mem hkeys.1]
    have heq := forgetMethod_eq h.coherent hlookup
    have hkept : Kept b (v.forgetMethod e.1) := by
      refine ⟨h.coherent.forgetMethod e.1, ?_, ?_, ?_, ?_, ?_, ?_⟩ <;> rw [heq]
      · exact h.optimize
      · exact h.functions
      · obtain ⟨more, hmore⟩ := h.live
        dsimp only
        rw [← hmore, List.filter_append, List.filter_eq_self.mpr]
        · exact List.prefix_append _ _
        · intro i hi
          have hne : i ≠ e.2.index := fun heq ↦ h.not_live hb hmethods (heq ▸ hi)
          simpa using hne
      · exact h.structs
      · exact h.engine
      · exact h.closed
    have hnext := ih hkept (by rw [heq]; exact hrest)
    rw [List.map_cons, List.foldl_cons]
    refine ⟨hnext.1, hnext.2.1, hnext.2.2.1.trans ?_, hnext.2.2.2.trans ?_⟩ <;> rw [heq]

theorem forgetType_types (h : Coherent v) (t : Ty) : (v.forgetType t).types = v.types.filter (·.1 ≠ t) := by
  cases ht : v.types.lookup t with
  | none => rw [filter_keys_of_not_mem (not_mem_keys_of_lookup ht), CompilationUnit.forgetType, ht]
  | some ct => rw [forgetType_eq h ht]

theorem Kept.forgetType (h : Kept b v) (t : Ty) : Kept b (v.forgetType t) ∧ (v.forgetType t).methods = v.methods := by
  cases ht : v.types.lookup t with
  | none =>
    rw [CompilationUnit.forgetType, ht]
    exact ⟨h, rfl⟩
  | some ct =>
    have hc := h.coherent.forgetType t
    rw [forgetType_eq h.coherent ht] at hc ⊢
    exact ⟨⟨hc, h.optimize, h.functions, h.live, h.structs, h.engine, h.closed⟩, rfl⟩

theorem Kept.forgetTypes (ts : List Ty) (h : Kept b v) (hold : ∀ t ∈ ts, t ∉ b.types.map (·.1))
    (hnew : ∃ new, v.types = new ++ b.types ∧ ∀ e ∈ new, e.1 ∈ ts) :
    Kept b (ts.foldl CompilationUnit.forgetType v) ∧ (ts.foldl CompilationUnit.forgetType v).types = b.types ∧
      (ts.foldl CompilationUnit.forgetType v).methods = v.methods := by
  induction ts generalizing v with
  | nil =>
    obtain ⟨new, htypes, hnew⟩ := hnew
    cases new with
    | nil => exact ⟨h, htypes, rfl⟩
    | cons e new => exact absurd (hnew e List.mem_cons_self) List.not_mem_nil
  | cons t ts ih =>
    obtain ⟨new, htypes, hnew⟩ := hnew
    have hnext := h.forgetType t
    have hnew' : ∃ new, (v.forgetType t).types = new ++ b.types ∧ ∀ e ∈ new, e.1 ∈ ts := by
      refine ⟨new.filter (·.1 ≠ t), ?_, ?_⟩
      · rw [forgetType_types h.coherent, htypes, List.filter_append, filter_keys_of_not_mem (hold t List.mem_cons_self)]
      · intro e he
        obtain ⟨hmem, hne⟩ := List.mem_filter.mp he
        exact (List.mem_cons.mp (hnew e hmem)).resolve_left (by simpa using hne)
    obtain ⟨hkept, htypes', hmethods⟩ := ih hnext.1 (fun t ht ↦ hold t (List.mem_cons_of_mem _ ht)) hnew'
    exact ⟨hkept, htypes', hmethods.trans hnext.2⟩

/-- Of what a failed request added nothing stays but, perhaps, the function that fills memory. -/
structure RolledBack (b v : CompilationUnit) : Prop extends Kept b v where
  types : v.types = b.types
  methods : v.methods = b.methods
  journal : v.journal = {}
  building : v.building = 0
  liveStructs : v.module.liveStructs = b.module.liveStructs
  liveFunctions : v.module.liveFunctions = b.module.liveFunctions ∨
    ∃ i, v.module.liveFunctions = b.module.liveFunctions ++ [i] ∧ v.module.nameOf i = some memsetName ∧
      some memsetName ∉ b.module.liveFunctions.map b.module.nameOf

theorem Kept.liveFunctions (h : Kept b v) (hb : Coherent b) (hmethods : v.methods = b.methods) :
    v.module.liveFunctions = b.module.liveFunctions ∨
      ∃ i, v.module.liveFunctions = b.module.liveFunctions ++ [i] ∧ v.module.nameOf i = some memsetName ∧
        some memsetName ∉ b.module.liveFunctions.map b.module.nameOf := by
  obtain ⟨more, hmore⟩ := h.live
  have hfun := h.coherent.functions
  have hold : (b.module.liveFunctions.filter fun i ↦ v.module.nameOf i ≠ some memsetName) =
      b.module.liveFunctions.filter fun i ↦ b.module.nameOf i ≠ some memsetName := by
    apply List.filter_congr
    intro i hi
    rw [h.nameOf hb hi]
  rw [hmethods, hb.functions, ← hmore, List.filter_append, hold, List.self_eq_append_right,
    List.filter_eq_nil_iff] at hfun
  have hmemset : ∀ i ∈ more, v.module.nameOf i = some memsetName := fun i hi ↦ by simpa using hfun i hi
  have hnames := h.coherent.names
  rw [← hmore, List.map_append, List.map_congr_left fun i hi ↦ h.nameOf hb hi, List.nodup_append] at hnames
  obtain ⟨-, hnodup, hdisjoint⟩ := hnames
  cases more with
  | nil => exact .inl (by rw [← hmore, List.append_nil])
  | cons i rest =>
    have hi := hmemset i List.mem_cons_self
    cases rest with
    | nil =>
      exact .inr ⟨i, hmore.symm, hi, fun hmem ↦ hdisjoint _ hmem _ (List.mem_map_of_mem List.mem_cons_self) hi.symm⟩
    | cons j rest =>
      have hj := hmemset j (List.mem_cons_of_mem _ List.mem_cons_self)
      rw [List.map_cons, List.map_cons, hi, hj] at hnodup
      exact absurd List.mem_cons_self (List.nodup_cons.mp hnodup).1

theorem Since.rollBack (h : Since b v) (hb : Coherent b) : RolledBack b v.rollBack := by
  obtain ⟨new, htypes, hjournal, hold⟩ := h.types
  obtain ⟨new', hmethods, hjournal'⟩ := h.methods
  obtain ⟨hkept, hms, hts, -⟩ := h.toKept.forgetMethods hb new' hmethods
  have hold' : ∀ t ∈ new.map (·.1), t ∉ b.types.map (·.1) := by
    intro t ht
    obtain ⟨e, he, rfl⟩ := List.mem_map.mp ht
    exact hold e he
  have hundone := hkept.forgetTypes (new.map (·.1)) hold' ⟨new, hts.trans htypes, fun e he ↦ List.mem_map_of_mem he⟩
  have hroll : v.rollBack = { (new.map (·.1)).foldl CompilationUnit.forgetType
      ((new'.map (·.1)).foldl CompilationUnit.forgetMethod v) with journal := {}, building := 0 } := by
    rw [CompilationUnit.rollBack, hjournal, hjournal']
  rw [hroll]
  generalize (new.map (·.1)).foldl CompilationUnit.forgetType ((new'.map (·.1)).foldl CompilationUnit.forgetMethod v) =
    v' at hundone
  obtain ⟨hk, htypes', hmethods'⟩ := hundone
  have hc : Coherent { v' with journal := {}, building := 0 } := hk.coherent.of_registry rfl rfl rfl
  refine ⟨⟨hc, hk.optimize, hk.functions, hk.live, hk.structs, hk.engine, hk.closed⟩, htypes',
    hmethods'.trans hms, rfl, rfl, ?_, hk.liveFunctions hb (hmethods'.trans hms)⟩
  rw [← hc.structs, ← hb.structs]
  exact congrArg (fun ts ↦ (ts.filterMap (·.2.struct?)).reverse) htypes'

end

/-! ### Units between requests -/

/-- A unit that is not in the middle of a request: what is registered is complete, and no call runs on its engine, which
is open as long as the unit is. -/
structure Orderly (world : Universe) (u : CompilationUnit) : Prop where
  coherent : Coherent u
  finished : ∀ e ∈ u.methods, Finished world u e
  bodies : ∀ id ∈ u.module.liveStructs, ((u.module.structs[id]?).bind (·.body)).isSome = true
  journal : u.journal = {}
  building : u.building = 0
  int32 : KnowsInt32 u
  idle : SlotMachine.Idle u.engine
  opened : u.engine.closed = true → u.closed = true

section

variable {world : Universe} {u u' : CompilationUnit}

theorem Orderly.same (h : Orderly world u) (hs : SameRegistry u u') (hidle : SlotMachine.Idle u'.engine)
    (hopened : u'.engine.closed = true → u'.closed = true) : Orderly world u' := by
  obtain ⟨ho, hm, ht, hms, hj, hb⟩ := hs
  refine ⟨h.coherent.of_registry hm ht hms, ?_, hm ▸ h.bodies, hj.trans h.journal, hb.trans h.building,
    h.int32.of_types ht, hidle, hopened⟩
  intro e he
  rw [hms] at he
  exact (h.finished e he).mono (hm ▸ .refl _) ho (by rw [hm])

theorem Orderly.open (h : Orderly world u) : Open world u .nothing u where
  coherent := h.coherent
  optimize := rfl
  functions _ _ hg := hg
  live := List.prefix_rfl
  structs _ _ hd := hd
  engine := ⟨rfl, h.idle.layouts⟩
  closed := rfl
  types := ⟨[], rfl, by rw [h.journal]; rfl, fun e he ↦ absurd he List.not_mem_nil⟩
  methods := ⟨[], rfl, by rw [h.journal]; rfl⟩
  building := h.building
  complete e he _ := h.finished e he
  pending _ hf := hf.elim
  begun _ hf := hf.elim
  bodies id hid _ := h.bodies id hid
  hollow _ hid := hid.elim
  entries _ he := he.elim
  int32 := h.int32

theorem Learns.idle {e d : Engine} (h : Learns e d) (he : SlotMachine.Idle e) : SlotMachine.Idle d :=
  ⟨by rw [h.engine]; exact he.bottom, by rw [h.engine]; exact he.top, h.layouts⟩

theorem Kept.opened {b : CompilationUnit} (h : Kept b u) (hb : b.engine.closed = true → b.closed = true)
    (hclosed : u.engine.closed = true) : u.closed = true := by
  rw [h.engine.engine] at hclosed
  exact h.closed.trans (hb hclosed)

theorem Open.orderly {b : CompilationUnit} (h : Open world b .nothing u) (hb : Orderly world b) :
    Orderly world { u with journal := {} } := by
  refine ⟨h.coherent.of_registry rfl rfl rfl, ?_, fun id hid ↦ h.bodies id hid fun hs ↦ hs, rfl, h.building, h.int32,
    h.engine.idle hb.idle, h.toKept.opened hb.opened⟩
  exact fun e he ↦ (h.complete e he fun hf ↦ hf).mono (.refl _) rfl rfl

theorem RolledBack.orderly {b : CompilationUnit} (h : RolledBack b u) (hb : Orderly world b) : Orderly world u := by
  refine ⟨h.coherent, ?_, ?_, h.journal, h.building, hb.int32.of_types h.types, h.engine.idle hb.idle,
    h.toKept.opened hb.opened⟩
  · intro e he
    rw [h.methods] at he
    obtain ⟨g, hg, -⟩ := hb.coherent.function?_of_mem he
    refine (hb.finished e he).mono ⟨?_, ?_⟩ h.optimize ?_
    · exact fun i g hg ↦ ⟨g, h.functions i g hg, rfl, rfl, rfl⟩
    · exact fun i d hd ↦ ⟨d, h.structs i d hd, rfl, fun _ hts ↦ hts⟩
    · rw [hg]
      exact h.functions _ g hg
  · intro id hid
    rw [h.liveStructs] at hid
    have hlt := hb.coherent.liveStruct_lt hid
    rw [h.structs id _ (Array.getElem?_eq_getElem hlt), ← Array.getElem?_eq_getElem hlt]
    exact hb.bodies id hid

theorem RolledBack.refl (h : Orderly world u) : RolledBack u u :=
  ⟨h.open.toKept, rfl, rfl, h.journal, h.building, rfl, .inl rfl⟩

theorem request_open {α : Type} (c : Compile α) (h : u.journal = {}) (hopen : u.closed = false) :
    (∃ a v, Compiles c u a v ∧ request c u = (.ok a, { v with journal := {} })) ∨
      ∃ e v, c.run.run u = (.error e, v) ∧ request c u = (.error e, v.rollBack) := by
  have hjournal : { u with journal := {} } = u := by rw [← h]
  unfold request
  rw [if_neg (by simp [hopen]), hjournal]
  split
  · rename_i a v hrun
    exact .inl ⟨a, v, hrun, rfl⟩
  · rename_i e v hrun
    exact .inr ⟨e, v, hrun, rfl⟩

theorem request_cases {α : Type} (c : Compile α) (h : u.journal = {}) : request c u = (.error .closed, u) ∨
    (∃ a v, Compiles c u a v ∧ request c u = (.ok a, { v with journal := {} })) ∨
    ∃ e v, c.run.run u = (.error e, v) ∧ request c u = (.error e, v.rollBack) := by
  cases hclosed : u.closed with
  | true => exact .inl (by rw [request, if_pos hclosed])
  | false => exact .inr (request_open c h hclosed)

theorem Orderly.request {α : Type} {c : Compile α} (h : Orderly world u)
    (hc : Spec (Open world u .nothing) c (fun _ ↦ Open world u .nothing) (Since u)) :
    Orderly world (request c u).2 ∧ ∀ e, (request c u).1 = .error e → RolledBack u (request c u).2 := by
  obtain ⟨hok, herror⟩ := hc u h.open
  rcases request_cases c h.journal with hr | ⟨a, v, hrun, hr⟩ | ⟨e, v, hrun, hr⟩ <;> rw [hr]
  · exact ⟨h, fun _ _ ↦ .refl h⟩
  · refine ⟨(hok a v hrun).orderly h, fun e he ↦ ?_⟩
    cases he
  · have hback : RolledBack u v.rollBack := (herror e v hrun).rollBack h.coherent
    exact ⟨hback.orderly h, fun _ _ ↦ hback⟩

theorem rollBack_induction {P : CompilationUnit → Prop} {v : CompilationUnit} (h : P v)
    (hmethod : ∀ w k, P w → P (w.forgetMethod k)) (htype : ∀ w t, P w → P (w.forgetType t))
    (hreset : ∀ w, P w → P { w with journal := {}, building := 0 }) : P v.rollBack := by
  have hmethods : ∀ (ks : List MethodId) (w : CompilationUnit), P w → P (ks.foldl CompilationUnit.forgetMethod w) := by
    intro ks
    induction ks with
    | nil => exact fun _ hw ↦ hw
    | cons k ks ih => exact fun w hw ↦ ih _ (hmethod w k hw)
  have htypes : ∀ (ts : List Ty) (w : CompilationUnit), P w → P (ts.foldl CompilationUnit.forgetType w) := by
    intro ts
    induction ts with
    | nil => exact fun _ hw ↦ hw
    | cons t ts ih => exact fun w hw ↦ ih _ (htype w t hw)
  exact hreset _ (htypes _ _ (hmethods _ _ h))

theorem rollBack_sublist (v : CompilationUnit) : v.rollBack.module.liveFunctions.Sublist v.module.liveFunctions := by
  refine rollBack_induction (P := fun w ↦ w.module.liveFunctions.Sublist v.module.liveFunctions) (.refl _)
    (fun w k hw ↦ ?_) (fun w t hw ↦ ?_) fun _ hw ↦ hw
  · unfold CompilationUnit.forgetMethod
    split
    · exact hw
    · dsimp only
      split
      · exact List.eraseP_sublist.trans hw
      · exact hw
  · unfold CompilationUnit.forgetType
    split
    · exact hw
    · dsimp only
      split <;> exact hw

theorem Orderly.getType (h : Orderly world u) (t : Ty) : Orderly world (getType world t u).2 ∧
    ∀ e, (Lowering.getType world t u).1 = .error e → RolledBack u (Lowering.getType world t u).2 ∧
      (Lowering.getType world t u).2.module.liveFunctions = u.module.liveFunctions := by
  have hspec : Spec (Typing world u .nothing u) (compileType world world.nestingLimit t) (fun _ ↦ Typing world u .nothing u)
      (Mistyped u u) := spec_compileType _ .nothing t
  obtain ⟨horderly, hback⟩ := h.request (spec_type _ t)
  refine ⟨horderly, fun e he ↦ ⟨hback e he, ?_⟩⟩
  have hlive := (hback e he).live
  refine (hlive.eq_of_length_le ?_).symm
  rw [Lowering.getType] at he
  rcases request_cases (compileType world world.nestingLimit t) h.journal with hr | ⟨a, v, hrun, hr⟩ | ⟨e, v, hrun, hr⟩ <;>
    rw [hr] at he ⊢
  · cases he
  · have hsame := ((hspec u ⟨h.open, rfl, rfl⟩).2 e v hrun).2.2
    rw [← hsame]
    exact (rollBack_sublist v).length_le

theorem Orderly.getMethod (h : Orderly world u) (hworld : Consistent world) {m : Method} (hm : Found world m) :
    Orderly world (getMethod world m u).2 ∧
      ∀ e, (Lowering.getMethod world m u).1 = .error e → RolledBack u (Lowering.getMethod world m u).2 :=
  h.request (spec_compileMethod hworld _ .nothing hm)

theorem Orderly.functionAddress (h : Orderly world u) (hworld : Consistent world) {m : Method} (hm : Found world m) :
    Orderly world (u.functionAddress world m).2 := by
  have hget := (h.getMethod hworld hm).1
  unfold CompilationUnit.functionAddress
  split
  · rename_i e u' hrun
    rw [hrun] at hget
    exact hget
  · rename_i f u' hrun
    rw [hrun] at hget
    have hstays := addressFound_stays u'.module
    have hmemory := addressFound_memory u'.module
    exact hget.same ⟨rfl, rfl, rfl, rfl, rfl, rfl⟩ ⟨(hstays _ _ _).bottom.trans hget.idle.bottom,
      (congrArg (·.stack.top) (hmemory _ _ _)).trans hget.idle.top, (hstays _ _ _).layouts hget.idle.layouts⟩
      fun hclosed ↦ hget.opened ((hstays _ _ _).closed.symm.trans hclosed)

theorem Orderly.invokeFor (h : Orderly world u) (hworld : Consistent world) {m : Method}
    (hm : Found world m) (fuel : Nat) (args : List UInt64) : Orderly world (u.invokeFor fuel world m args).2 := by
  have hget := h.functionAddress hworld hm
  unfold CompilationUnit.invokeFor
  split
  · rename_i e u' hrun
    rw [hrun] at hget
    exact hget
  · rename_i address u' hrun
    rw [hrun] at hget
    have hstays := callAddress_stays u'.module fuel address args u'.engine
    exact hget.same ⟨rfl, rfl, rfl, rfl, rfl, rfl⟩ ⟨hstays.bottom.trans hget.idle.bottom,
      callAddress_stack _ _ _ _ hget.idle.top, hstays.layouts hget.idle.layouts⟩
      fun hclosed ↦ hget.opened (hstays.closed.symm.trans hclosed)

end

/-- The units that requests lead to. -/
inductive CompilationUnit.Reachable (world : Universe) : CompilationUnit → Prop
  | create (name : String) (resolver : Resolver) (optimize : Bool) (limits : Limits) (tracing : Trace.Tracing)
      (tracer : Trace.TracerId) (traceParent : Nat) :
      Reachable world { CompilationUnit.create name resolver optimize limits with tracing, tracer, traceParent }
  | type {u : CompilationUnit} (t : Ty) : Reachable world u → Reachable world (getType world t u).2
  | method {u : CompilationUnit} {m : Method} (hm : Found world m) :
      Reachable world u → Reachable world (getMethod world m u).2
  | address {u : CompilationUnit} {m : Method} (hm : Found world m) :
      Reachable world u → Reachable world (u.functionAddress world m).2
  | invoke {u : CompilationUnit} {m : Method} (hm : Found world m) (fuel : Nat) (args : List UInt64) :
      Reachable world u → Reachable world (u.invokeFor fuel world m args).2
  | close {u : CompilationUnit} : Reachable world u → Reachable world u.close

section

variable {world : Universe} {u : CompilationUnit}

theorem Orderly.create (name : String) (resolver : Resolver) (optimize : Bool) (limits : Limits)
    (tracing : Trace.Tracing) (tracer : Trace.TracerId) (traceParent : Nat) :
    Orderly world { CompilationUnit.create name resolver optimize limits with tracing, tracer, traceParent } := by
  refine ⟨⟨⟨?_, ?_⟩, ?_, rfl, ?_, ?_, rfl, ?_, ?_, ?_, ?_, ?_⟩, ?_, ?_, rfl, rfl, nofun, ⟨rfl, rfl, .empty⟩, nofun⟩ <;>
    simp [CompilationUnit.create]

theorem CompilationUnit.Reachable.orderly (hworld : Consistent world) (h : u.Reachable world) : Orderly world u := by
  induction h with
  | create name resolver optimize limits tracing tracer traceParent => exact .create name resolver optimize limits _ _ _
  | type t _ ih => exact (ih.getType t).1
  | method hm _ ih => exact (ih.getMethod hworld hm).1
  | address hm _ ih => exact ih.functionAddress hworld hm
  | invoke hm fuel args _ ih => exact ih.invokeFor hworld hm fuel args
  | close _ ih => exact ih.same ⟨rfl, rfl, rfl, rfl, rfl, rfl⟩ ⟨rfl, rfl, ih.idle.layouts⟩ fun _ ↦ rfl

/-- What holds of a unit between requests, for its methods, for its types and for what it noted down. -/
structure Registry (world : Universe) (u : CompilationUnit) : Prop where
  keys : (u.methods.map (·.1)).Nodup
  values : (u.methods.map (·.2)).Nodup
  functions : ∀ f : FuncId, f ∈ u.methods.map (·.2) ↔
    f.index ∈ u.module.liveFunctions ∧ u.module.nameOf f.index ≠ some memsetName
  names : (u.module.liveFunctions.map u.module.nameOf).Nodup
  verified : ∀ e ∈ u.methods, Finished world u e
  aggregates : ∀ e ∈ u.types, e.1.kind = .valueType ↔ e.2.struct?.isSome = true
  structKeys : ((u.types.filter (·.2.struct?.isSome)).map (·.1)).Nodup
  structValues : (u.types.filterMap (·.2.struct?)).Nodup
  structs : ∀ id, id ∈ u.types.filterMap (·.2.struct?) ↔ id ∈ u.module.liveStructs
  bodies : ∀ id ∈ u.module.liveStructs, ((u.module.structs[id]?).bind (·.body)).isSome = true
  journal : u.journal = {}
  building : u.building = 0

theorem Coherent.functions_iff (h : Coherent u) (f : FuncId) : f ∈ u.methods.map (·.2) ↔
    f.index ∈ u.module.liveFunctions ∧ u.module.nameOf f.index ≠ some memsetName := by
  have hindex : f ∈ u.methods.map (·.2) ↔ f.index ∈ (u.methods.map (·.2.index)).reverse := by
    rw [List.mem_reverse, List.mem_map, List.mem_map]
    constructor
    · rintro ⟨e, he, rfl⟩
      exact ⟨e, he, rfl⟩
    · rintro ⟨e, he, hindex⟩
      refine ⟨e, he, ?_⟩
      cases f
      cases hindex
      rfl
  rw [hindex, h.functions, List.mem_filter, decide_eq_true_eq]

theorem Orderly.registry (h : Orderly world u) : Registry world u where
  keys := h.coherent.keys
  values := by
    have hindex : u.methods.map (·.2.index) = (u.methods.map (·.2)).map FuncId.index := by
      rw [List.map_map]
      rfl
    exact List.Nodup.of_map FuncId.index (hindex ▸ h.coherent.values)
  functions := h.coherent.functions_iff
  names := h.coherent.names
  verified := h.finished
  aggregates := h.coherent.kinds
  structKeys := h.coherent.structKeys
  structValues := by
    rw [← List.nodup_reverse, h.coherent.structs]
    exact List.Nodup.of_map _ h.coherent.structNames
  structs id := by rw [← h.coherent.structs, List.mem_reverse]
  bodies := h.bodies
  journal := h.journal
  building := h.building

/-- Between requests the types and methods of a unit go with its code and all is complete; a request for a type or a
method that fails leaves types and methods as they were. -/
theorem registry_between_requests (hworld : Consistent world) (h : u.Reachable world) :
    Registry world u ∧
      (∀ t e, (getType world t u).1 = .error e →
        (getType world t u).2.types = u.types ∧ (getType world t u).2.methods = u.methods) ∧
      ∀ m e, Found world m → (getMethod world m u).1 = .error e →
        (getMethod world m u).2.types = u.types ∧ (getMethod world m u).2.methods = u.methods := by
  have horderly := h.orderly hworld
  refine ⟨horderly.registry, fun t e he ↦ ?_, fun m e hm he ↦ ?_⟩
  · have hback := ((horderly.getType t).2 e he).1
    exact ⟨hback.types, hback.methods⟩
  · have hback := (horderly.getMethod hworld hm).2 e he
    exact ⟨hback.types, hback.methods⟩

end

/-! ### The code that a failure leaves -/

section

variable {world : Universe} {b u v : CompilationUnit}

theorem RolledBack.structList (h : RolledBack b v) (hb : Coherent b) : v.module.structList = b.module.structList := by
  unfold Module.structList
  rw [h.liveStructs]
  apply List.filterMap_congr
  intro i hi
  have hlt := hb.liveStruct_lt hi
  rw [h.structs i _ (Array.getElem?_eq_getElem hlt), Array.getElem?_eq_getElem hlt]

theorem Kept.filterMap_live (h : Kept b v) (hb : Coherent b) :
    (b.module.liveFunctions.filterMap fun i ↦ v.module.functions[i]?) = b.module.functionList := by
  apply List.filterMap_congr
  intro i hi
  have hlt := hb.numbered.live i hi
  rw [h.functions i _ (Array.getElem?_eq_getElem hlt), Array.getElem?_eq_getElem hlt]

theorem RolledBack.functionList (h : RolledBack b v) (hb : Coherent b) :
    v.module.functionList = b.module.functionList ∨ ∃ g, v.module.functionList = b.module.functionList ++ [g] ∧
      g.name = memsetName ∧ ∀ f ∈ b.module.functionList, f.name ≠ memsetName := by
  rcases h.liveFunctions with hlive | ⟨i, hlive, hname, hfree⟩
  · left
    rw [Module.functionList, hlive]
    exact h.filterMap_live hb
  · right
    obtain ⟨g, hg, hgname⟩ := Option.map_eq_some_iff.mp hname
    refine ⟨g, ?_, hgname, ?_⟩
    · rw [Module.functionList, hlive, List.filterMap_append, h.filterMap_live hb, List.filterMap_cons_some hg]
      rfl
    · intro f hf heq
      obtain ⟨j, hj, hjf⟩ := List.mem_filterMap.mp hf
      exact hfree (List.mem_map.mpr ⟨j, hj, by rw [Module.nameOf, hjf, ← heq]; rfl⟩)

/-- A failed request for a type leaves the functions and structs of the module as they were. One for a method does so
too, but that the function that fills memory may be declared then and was not before. -/
theorem failed_request_module (hworld : Consistent world) (h : u.Reachable world) :
    (∀ t e, (getType world t u).1 = .error e →
      (getType world t u).2.module.functionList = u.module.functionList ∧
        (getType world t u).2.module.structList = u.module.structList) ∧
    ∀ m e, Found world m → (getMethod world m u).1 = .error e →
      (getMethod world m u).2.module.structList = u.module.structList ∧
        ((getMethod world m u).2.module.functionList = u.module.functionList ∨
          ∃ g, (getMethod world m u).2.module.functionList = u.module.functionList ++ [g] ∧ g.name = memsetName ∧
            ∀ f ∈ u.module.functionList, f.name ≠ memsetName) := by
  have horderly := h.orderly hworld
  refine ⟨fun t e he ↦ ?_, fun m e hm he ↦ ?_⟩
  · obtain ⟨hback, hlive⟩ := (horderly.getType t).2 e he
    refine ⟨?_, hback.structList horderly.coherent⟩
    rw [Module.functionList, hlive]
    exact hback.filterMap_live horderly.coherent
  · have hback := (horderly.getMethod hworld hm).2 e he
    exact ⟨hback.structList horderly.coherent, hback.functionList horderly.coherent⟩

end

/-- A method that clears a local and then takes from an empty stack: `pop; ret`. -/
def popMethod : Method :=
  { id := .defined ⟨0, ""⟩ 0, name := "Pop", owner := none, params := [], ret := .void, isStatic := true,
    isCtor := false, body := some ⟨8, [.prim .int32], [0x26, 0x2a]⟩, token := ⟨0x06000001⟩, scope := ⟨0, ""⟩ }

def returnMethod : Method :=
  { popMethod with
    id := .defined ⟨0, ""⟩ 1, name := "Return", body := some ⟨8, [.prim .int32], [0x2a]⟩, token := ⟨0x06000002⟩ }

def worldOf (methods : Array Method) : Universe := { modules := #[{ ref := ⟨0, ""⟩, methods }] }

theorem method?_worldOf {methods : Array Method} {id : MethodId} {m : Method}
    (hm : (worldOf methods).method? id = some m) : ∃ row : Nat, methods[row]? = some m := by
  cases id with
  | defined home row =>
    rcases home with ⟨i, name⟩
    cases i with
    | zero => exact ⟨row, hm⟩
    | succ i =>
      have hnone : (#[] : Array Method)[row]? = some m := hm
      simp at hnone
  | special owner slot =>
    have hnone : ∀ id : MethodId, (worldOf methods).specials[id]? = none := fun id ↦ Std.HashMap.getElem?_empty
    unfold Universe.method? at hm
    dsimp only at hm
    rw [hnone] at hm
    dsimp only at hm
    split at hm
    · have hrecorded : ∀ t, (worldOf methods).recorded t = {} := fun t ↦ Std.HashMap.getD_empty
      rw [hrecorded] at hm
      cases hm
    · cases hm

theorem worldOf_consistent {methods : Array Method}
    (h : ∀ (i : Nat) (m : Method), methods[i]? = some m → m.id = .defined ⟨0, ""⟩ i) :
    Consistent (worldOf methods) := by
  intro id m hm
  obtain ⟨row, hrow⟩ := method?_worldOf hm
  rw [Found, h row m hrow]
  exact hrow

theorem worldOf_single {m : Method} (h : m.id = .defined ⟨0, ""⟩ 0) : Consistent (worldOf #[m]) := by
  refine worldOf_consistent fun i m' hm ↦ ?_
  obtain _ | i := i
  · cases hm
    exact h
  · simp at hm

def smallWorld : Universe := worldOf #[popMethod, returnMethod]

theorem smallWorld_consistent : Consistent smallWorld := by
  refine worldOf_consistent fun i m hm ↦ ?_
  obtain _ | _ | i := i
  · cases hm
    rfl
  · cases hm
    rfl
  · simp at hm

def freshUnit : CompilationUnit := .create "" {} false (.ofRequest 0 0 0)

theorem freshUnit_reachable : freshUnit.Reachable smallWorld := .create "" {} false _ {} Trace.Tracing.nop 0

/-- A method is asked for that fails and then one that does not. -/
theorem registry_between_two_requests :
    Consistent smallWorld ∧
    (getMethod smallWorld returnMethod (getMethod smallWorld popMethod freshUnit).2).2.methods.length = 1 ∧
      Registry smallWorld (getMethod smallWorld returnMethod (getMethod smallWorld popMethod freshUnit).2).2 := by
  have hlength : (getMethod smallWorld returnMethod (getMethod smallWorld popMethod freshUnit).2).2.methods.length =
      1 := by
    decide +kernel
  refine ⟨smallWorld_consistent, hlength, (registry_between_requests smallWorld_consistent ?_).1⟩
  exact .method rfl (.method rfl freshUnit_reachable)

/-- A failed request leaves the function that fills memory behind. -/
theorem failed_request_declares_memset : ¬ ∀ (world : Universe) (u : CompilationUnit) (m : Method) (e : CompileError),
    Consistent world → u.Reachable world → Found world m → (getMethod world m u).1 = .error e →
      (getMethod world m u).2.module.functionList = u.module.functionList := by
  intro h
  have hfails : (getMethod smallWorld popMethod freshUnit).1.toOption = none := by decide +kernel
  have hlength : (getMethod smallWorld popMethod freshUnit).2.module.functionList.length = 1 := by decide +kernel
  cases hr : (getMethod smallWorld popMethod freshUnit).1 with
  | ok f =>
    rw [hr] at hfails
    cases hfails
  | error e =>
    rw [h smallWorld freshUnit popMethod e smallWorld_consistent freshUnit_reachable rfl hr] at hlength
    cases hlength

theorem failed_request_module_pop : Consistent smallWorld ∧ freshUnit.Reachable smallWorld ∧
    (getMethod smallWorld popMethod freshUnit).1.toOption = none ∧
    (getMethod smallWorld popMethod freshUnit).2.module.structList = freshUnit.module.structList := by
  have hfails : (getMethod smallWorld popMethod freshUnit).1.toOption = none := by decide +kernel
  refine ⟨smallWorld_consistent, freshUnit_reachable, hfails, ?_⟩
  cases hr : (getMethod smallWorld popMethod freshUnit).1 with
  | ok f =>
    rw [hr] at hfails
    cases hfails
  | error e => exact ((failed_request_module smallWorld_consistent freshUnit_reachable).2 popMethod e rfl hr).1

end CilSsa.Lowering

