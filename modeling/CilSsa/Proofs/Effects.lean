import CilSsa.Lowering.Method
import CilSsa.Proofs.Emission

namespace CilSsa.Ssa

/-- The names that slots ask for, those of arguments apart. -/
inductive SlotName : String → Prop
  | buffer : SlotName "evalstack"
  | top : SlotName "evalstack.top"
  | local (i : Nat) : SlotName ("loc" ++ toString i)
  | spill : SlotName "spill"
  | object : SlotName "new"

attribute [grind ←] SlotName.buffer SlotName.top SlotName.local SlotName.spill SlotName.object

namespace Instr

/-- What lowering makes: instructions that ask for no name, and slots. -/
inductive Hinted (i : Instr) : Prop
  | unnamed (h : i.name = "")
  | slot (hop : i.op = .alloca) (h : SlotName i.name)

variable {v p : Value} {t : Ty}

@[grind ←] theorem hinted_load : (load p "").Hinted := .unnamed rfl

@[grind ←] theorem hinted_store {v p : Option Value} : (store v p).Hinted := .unnamed rfl

@[grind ←] theorem hinted_gep {fields : Option (List Ty)} {index : Int} : (gep fields p index "").Hinted := .unnamed rfl

@[grind ←] theorem hinted_binary {op : Op} {a b : Value} : (binary op a b "").Hinted := .unnamed rfl

@[grind ←] theorem hinted_icmp {c : Pred} {a b : Option Value} : (icmp c a b "").Hinted := .unnamed rfl

@[grind ←] theorem hinted_fcmp {c : Pred} {a b : Option Value} : (fcmp c a b "").Hinted := .unnamed rfl

@[grind ←] theorem hinted_select {c a b : Value} : (select c a b "").Hinted := .unnamed rfl

@[grind ←] theorem hinted_cast {op : Op} {v : Option Value} : (cast op v t "").Hinted := .unnamed rfl

@[grind ←] theorem hinted_call {f : FuncId} {args : List (Option Value)} : (call f t args "").Hinted :=
    .unnamed (ite_self "")

@[grind ←] theorem hinted_br {dest : Option BlockId} : (br dest).Hinted := .unnamed rfl

@[grind ←] theorem hinted_condbr {c : Option Value} {yes no : Option BlockId} : (condbr c yes no).Hinted := .unnamed rfl

@[grind ←] theorem hinted_ret {v : Option Value} : (ret v).Hinted := .unnamed rfl

@[grind ←] theorem hinted_retVoid : retVoid.Hinted := .unnamed rfl

theorem hinted_intCast? {signed : Bool} : ∀ i ∈ intCast? v t signed "", i.Hinted := by
  intro i hi
  unfold intCast? at hi
  split at hi
  · cases hi
    exact .unnamed rfl
  · split at hi
    · cases hi
      exact .unnamed rfl
    · cases hi

theorem hinted_floatCast? : ∀ i ∈ floatCast? v t "", i.Hinted := by
  intro i hi
  unfold floatCast? at hi
  split at hi
  · cases hi
  · split at hi <;> (cases hi; exact .unnamed rfl)

theorem hinted_pointerCast? : ∀ i ∈ pointerCast? v t "", i.Hinted := by
  intro i hi
  unfold pointerCast? at hi
  split at hi
  · cases hi
  · cases hi
    exact .unnamed rfl

end Instr

end CilSsa.Ssa

namespace CilSsa.Lowering

open CilSsa.Bytecode CilSsa.Metadata
open CilSsa.Ssa (BlockId Const FuncId Function Instr Module Origin SlotName Value)

section

variable {α β : Type} {P R E : CompilationUnit → Prop}

/-- From a unit with `P` a compilation gives a result and a unit with `Q`, or fails and leaves a unit with `E`. -/
def Spec (P : CompilationUnit → Prop) (c : Compile α) (Q : α → CompilationUnit → Prop) (E : CompilationUnit → Prop) :
    Prop :=
  ∀ u, P u → (∀ a u', Compiles c u a u' → Q a u') ∧ ∀ e u', c.run.run u = (.error e, u') → E u'

theorem Spec.pure {a : α} {Q : α → CompilationUnit → Prop} (h : ∀ u, P u → Q a u) : Spec P (pure a) Q E := by
  intro u hu
  constructor
  · intro a' u' hc
    obtain ⟨rfl, rfl⟩ := Compiles.pure_iff.mp hc
    exact h u hu
  · intro e u' hc
    cases hc

theorem Spec.throw {e : CompileError} {Q : α → CompilationUnit → Prop} (h : ∀ u, P u → E u) :
    Spec P (throw e) Q E := by
  intro u hu
  constructor
  · intro a u' hc
    exact absurd hc Compiles.throw_iff
  · intro e' u' hc
    cases hc
    exact h u hu

theorem Spec.bind {c : Compile α} {f : α → Compile β} {Q : α → CompilationUnit → Prop} {S : β → CompilationUnit → Prop}
    (hc : Spec P c Q E) (hf : ∀ a, Spec (Q a) (f a) S E) : Spec P (c >>= f) S E := by
  intro u hu
  obtain ⟨hok, herror⟩ := hc u hu
  constructor
  · intro b u' h
    obtain ⟨a, u₁, h₁, h₂⟩ := Compiles.bind_iff.mp h
    exact (hf a u₁ (hok a u₁ h₁)).1 b u' h₂
  · intro e u' h
    have hrun : (c >>= f).run.run u = (ExceptT.bindCont f (c.run.run u).1).run (c.run.run u).2 := rfl
    rw [hrun] at h
    rcases hc' : c.run.run u with ⟨_ | a, u₁⟩
    · rw [hc'] at h
      cases h
      exact herror _ _ hc'
    · rw [hc'] at h
      exact (hf a u₁ (hok a u₁ hc')).2 e u' h

theorem Spec.imp {c : Compile α} {P' : CompilationUnit → Prop} {Q Q' : α → CompilationUnit → Prop}
    (h : Spec P c Q E) (hp : ∀ u, P' u → P u) (hq : ∀ a u, Q a u → Q' a u) : Spec P' c Q' E :=
  fun u hu ↦ ⟨fun a u' hc ↦ hq a u' ((h u (hp u hu)).1 a u' hc), (h u (hp u hu)).2⟩

theorem Spec.weaken {c : Compile α} {E' : CompilationUnit → Prop} {Q : α → CompilationUnit → Prop} (h : Spec P c Q E)
    (hE : ∀ u, E u → E' u) : Spec P c Q E' :=
  fun u hu ↦ ⟨(h u hu).1, fun e u' hc ↦ hE u' ((h u hu).2 e u' hc)⟩

theorem Spec.and {P' : CompilationUnit → Prop} {Q Q' : α → CompilationUnit → Prop} {c : Compile α} (h : Spec P c Q E)
    (h' : Spec P' c Q' fun _ ↦ True) : Spec (fun u ↦ P u ∧ P' u) c (fun a u ↦ Q a u ∧ Q' a u) E := fun u hu ↦
  ⟨fun a u' hc ↦ ⟨(h u hu.1).1 a u' hc, (h' u hu.2).1 a u' hc⟩, (h u hu.1).2⟩

theorem Spec.traced {c : Compile α} {Q : α → CompilationUnit → Prop} (h : Spec P c Q E) :
    Spec P c (fun a u ↦ Q a u ∧ ∃ v, P v ∧ Compiles c v a u) E :=
  fun v hv ↦ ⟨fun a u hc ↦ ⟨(h v hv).1 a u hc, v, hv, hc⟩, (h v hv).2⟩

theorem Spec.of_and {p : Prop} {c : Compile α} {Q : α → CompilationUnit → Prop} (h : p → Spec P c Q E) :
    Spec (fun u ↦ p ∧ P u) c Q E :=
  fun u hu ↦ h hu.1 u hu.2

theorem Spec.of_exists {ι : Type} {I : ι → CompilationUnit → Prop} {c : Compile α} {Q : α → CompilationUnit → Prop}
    (h : ∀ i, Spec (I i) c Q E) : Spec (fun u ↦ ∃ i, I i u) c Q E := by
  rintro u ⟨i, hi⟩
  exact h i u hi

theorem Spec.throw_bind {e : CompileError} {f : α → Compile β} {S : β → CompilationUnit → Prop} (h : ∀ u, P u → E u) :
    Spec P (MonadExcept.throw e >>= f) S E :=
  Spec.bind (Q := fun _ _ ↦ False) (.throw h) fun _ _ hu ↦ hu.elim

theorem Spec.get {Q : CompilationUnit → CompilationUnit → Prop} (h : ∀ u, P u → Q u u) : Spec P get Q E := by
  intro u hu
  constructor
  · intro a u' hc
    obtain ⟨rfl, rfl⟩ := Compiles.get_iff.mp hc
    exact h u hu
  · intro e u' hc
    cases hc

theorem Spec.set {v : CompilationUnit} {Q : PUnit → CompilationUnit → Prop} (h : ∀ u, P u → Q ⟨⟩ v) :
    Spec P (set v) Q E := by
  intro u hu
  constructor
  · intro a u' hc
    obtain rfl := Compiles.set_iff.mp hc
    exact h u hu
  · intro e u' hc
    cases hc

theorem Spec.modify {f : CompilationUnit → CompilationUnit} {Q : PUnit → CompilationUnit → Prop}
    (h : ∀ u, P u → Q ⟨⟩ (f u)) : Spec P (modify f) Q E := by
  intro u hu
  constructor
  · intro a u' hc
    obtain rfl := Compiles.modify_iff.mp hc
    exact h u hu
  · intro e u' hc
    cases hc

theorem Spec.adapt {c : Compile α} {Q : α → CompilationUnit → Prop} {g : CompileError → CompileError}
    (h : Spec P c Q E) : Spec P (ExceptT.adapt g c : Compile α) Q E := by
  have hrun : ∀ u, (ExceptT.adapt g c : Compile α).run.run u = ((c.run.run u).1.mapError g, (c.run.run u).2) :=
    fun _ ↦ rfl
  intro u hu
  obtain ⟨hok, herror⟩ := h u hu
  rcases hc : c.run.run u with ⟨_ | a, u₁⟩
  · constructor
    · intro a u' h'
      rw [Compiles, hrun, hc] at h'
      cases h'
    · intro e u' h'
      rw [hrun, hc] at h'
      cases h'
      exact herror _ _ hc
  · constructor
    · intro a u' h'
      rw [Compiles, hrun, hc] at h'
      cases h'
      exact hok _ _ hc
    · intro e u' h'
      rw [hrun, hc] at h'
      cases h'

theorem Spec.of_get {f : CompilationUnit → Compile β} {S : β → CompilationUnit → Prop}
    (h : ∀ v, Spec (fun u ↦ u = v ∧ P v) (f v) S E) : Spec P (MonadState.get >>= f) S E :=
  Spec.bind (Q := fun v u ↦ u = v ∧ P v) (Spec.get fun _ hu ↦ ⟨rfl, hu⟩) h

theorem Spec.forget {v : CompilationUnit} {c : Compile β} {S : β → CompilationUnit → Prop} (h : P v → Spec P c S E) :
    Spec (fun u ↦ u = v ∧ P v) c S E := by
  rintro u ⟨rfl, hu⟩
  exact h hu u hu

theorem Spec.of_run {c : Compile α} {Q : α → CompilationUnit → Prop} {g : CompilationUnit → α}
    {h : CompilationUnit → CompilationUnit} (hrun : ∀ u, c.run.run u = (.ok (g u), h u))
    (hq : ∀ u, P u → Q (g u) (h u)) : Spec P c Q E := by
  intro u hu
  constructor
  · intro a u' hc
    rw [Compiles, hrun] at hc
    cases hc
    exact hq u hu
  · intro e u' hc
    rw [hrun] at hc
    cases hc

theorem Spec.mapM {f : α → Compile β} {as : List α} (h : ∀ a ∈ as, Spec P (f a) (fun _ ↦ P) E) :
    Spec P (as.mapM f) (fun _ ↦ P) E := by
  induction as with
  | nil => exact .pure fun _ hu ↦ hu
  | cons a as ih =>
    rw [List.mapM_cons]
    refine (h a List.mem_cons_self).bind fun b ↦ ?_
    refine (ih fun a ha ↦ h a (List.mem_cons_of_mem _ ha)).bind fun bs ↦ ?_
    exact .pure fun _ hu ↦ hu

theorem Spec.forM {f : α → Compile PUnit} {as : List α} (h : ∀ a ∈ as, Spec P (f a) (fun _ ↦ P) E) :
    Spec P (as.forM f) (fun _ ↦ P) E := by
  induction as with
  | nil => exact .pure fun _ hu ↦ hu
  | cons a as ih =>
    exact (h a List.mem_cons_self).bind fun _ ↦ ih fun a ha ↦ h a (List.mem_cons_of_mem _ ha)

end

/-- Two units with the same types and methods, the same code and the same record of the current request. -/
structure SameRegistry (u u' : CompilationUnit) : Prop where
  optimize : u'.optimize = u.optimize
  module : u'.module = u.module
  types : u'.types = u.types
  methods : u'.methods = u.methods
  journal : u'.journal = u.journal
  building : u'.building = u.building

/-- Layouts that came to be known by asking for types of the module `m`. -/
inductive Learnt (m : Module) (s : Ssa.Layouts) : Ssa.Layouts → Prop
  | nothing : Learnt m s s
  | asked {s' : Ssa.Layouts} (t : Ssa.Ty) : Learnt m s s' → Learnt m s (s'.of m t).2

/-- Moreover the engine at most learnt layouts, and the unit was not closed. -/
structure SameEngine (u u' : CompilationUnit) : Prop extends SameRegistry u u' where
  layouts : Learnt u.module u.engine.layouts u'.engine.layouts
  engine : u'.engine = { u.engine with layouts := u'.engine.layouts }
  closed : u'.closed = u.closed

/-- Nor was anything rejected. -/
structure SameUpToLayouts (u u' : CompilationUnit) : Prop extends SameEngine u u' where
  rejections : u'.rejections = u.rejections

theorem SameUpToLayouts.of_engine {u u' : CompilationUnit} (h : SameRegistry u u') (hr : u'.rejections = u.rejections)
    (he : u'.engine = u.engine) (hclosed : u'.closed = u.closed) : SameUpToLayouts u u' :=
  ⟨⟨h, he ▸ .nothing, by rw [he], hclosed⟩, hr⟩

/-- Nor was anything traced. -/
structure SameTraced (u u' : CompilationUnit) : Prop extends SameUpToLayouts u u' where
  tracing : u'.tracing = u.tracing
  tracer : u'.tracer = u.tracer
  traceParent : u'.traceParent = u.traceParent
  spans : u'.spans = u.spans

def Found (world : Universe) (m : Method) : Prop := world.method? m.id = some m

def Consistent (world : Universe) : Prop := ∀ id m, world.method? id = some m → Found world m

/-- The property `J` of a unit is about its types, methods and code and about what was traced, and about layouts only so
far as these may be learnt at any time. A compilation may fail where `J` holds: then `E` does. -/
class Steady (J E : CompilationUnit → Prop) : Prop where
  fails : ∀ {u}, J u → E u
  still : ∀ {u u'}, J u → SameTraced u u' → J u'

/-- The properties `J` of a unit and `E` of one where a compilation failed are not about what was traced either. -/
class Stable (J E : CompilationUnit → Prop) : Prop where
  fails : ∀ {u}, J u → E u
  same : ∀ {u u'}, J u → SameUpToLayouts u u' → J u'
  sameFailed : ∀ {u u'}, E u → SameUpToLayouts u u' → E u'

instance Stable.steady {J E : CompilationUnit → Prop} [h : Stable J E] : Steady J E where
  fails := h.fails
  still hu hs := h.same hu hs.toSameUpToLayouts

section

variable {α β : Type} (J E : CompilationUnit → Prop) (fn : FuncId)

def Safe (c : Emit α) : Prop := ∀ s, s.fn = fn → Spec J (c.run s) (fun p u ↦ p.2.fn = fn ∧ J u) E

def SafeAt (site : Site) (c : Lower α) : Prop := Safe J E fn (c.run site)

variable {J E fn} {site : Site}

@[grind ←] theorem Safe.bind {c : Emit α} {f : α → Emit β} (hc : Safe J E fn c) (hf : ∀ a, Safe J E fn (f a)) :
    Safe J E fn (c >>= f) := by
  intro s hs
  refine (hc s hs).bind fun p ↦ ?_
  intro u hu
  exact hf p.1 p.2 hu.1 u hu.2

@[grind ←] theorem Safe.pure (a : α) : Safe J E fn (pure a) := fun _ hs ↦ .pure fun _ hu ↦ ⟨hs, hu⟩

@[grind ←] theorem Safe.get : Safe J E fn (get : Emit Stage) := fun _ hs ↦ .pure fun _ hu ↦ ⟨hs, hu⟩

@[grind ←] theorem Safe.modifyGet {f : Stage → α × Stage} (h : ∀ s, (f s).2.fn = s.fn) :
    Safe J E fn (modifyGet f : Emit α) :=
  fun s hs ↦ .pure fun _ hu ↦ ⟨(h s).trans hs, hu⟩

@[grind ←] theorem Safe.modify {f : Stage → Stage} (h : ∀ s, (f s).fn = s.fn) : Safe J E fn (modify f : Emit PUnit) :=
  fun s hs ↦ .pure fun _ hu ↦ ⟨(h s).trans hs, hu⟩

theorem Safe.of_get {f : Stage → Emit α} (h : ∀ s, s.fn = fn → Spec J ((f s).run s) (fun p u ↦ p.2.fn = fn ∧ J u) E) :
    Safe J E fn (MonadState.get >>= f) := by
  intro s hs u hu
  exact h s hs u hu

theorem Safe.set_bind {v : Stage} {c : Emit α} (hv : v.fn = fn) (hc : Safe J E fn c) (s : Stage) :
    Spec J ((set v >>= fun _ ↦ c : Emit α).run s) (fun p u ↦ p.2.fn = fn ∧ J u) E :=
  fun u hu ↦ hc v hv u hu

@[grind ←] theorem Safe.lift {c : Compile α} (h : Spec J c (fun _ ↦ J) E) : Safe J E fn (liftM c : Emit α) :=
  fun _ hs ↦ h.bind fun _ ↦ .pure fun _ hu ↦ ⟨hs, hu⟩

@[grind ←] theorem Safe.mapM {f : α → Emit β} {as : List α} (h : ∀ a ∈ as, Safe J E fn (f a)) :
    Safe J E fn (as.mapM f) := by
  induction as with
  | nil => exact .pure _
  | cons a as ih =>
    rw [List.mapM_cons]
    refine (h a List.mem_cons_self).bind fun b ↦ ?_
    exact (ih fun a ha ↦ h a (List.mem_cons_of_mem _ ha)).bind fun bs ↦ .pure _

@[grind ←] theorem Safe.forM {f : α → Emit PUnit} {as : List α} (h : ∀ a ∈ as, Safe J E fn (f a)) :
    Safe J E fn (as.forM f) := by
  induction as with
  | nil => exact .pure _
  | cons a as ih => exact (h a List.mem_cons_self).bind fun _ ↦ ih fun a ha ↦ h a (List.mem_cons_of_mem _ ha)

@[grind ←] theorem SafeAt.bind {c : Lower α} {f : α → Lower β} (hc : SafeAt J E fn site c)
    (hf : ∀ a, SafeAt J E fn site (f a)) : SafeAt J E fn site (c >>= f) := Safe.bind hc hf

@[grind ←] theorem SafeAt.pure (a : α) : SafeAt J E fn site (pure a) := Safe.pure a

@[grind ←] theorem SafeAt.read_bind {f : Site → Lower β} (h : SafeAt J E fn site (f site)) :
    SafeAt J E fn site (read >>= f) := h

@[grind ←] theorem SafeAt.lift {c : Emit α} (h : Safe J E fn c) : SafeAt J E fn site (liftM c) := h

@[grind ←] theorem SafeAt.compile {c : Compile α} (h : Spec J c (fun _ ↦ J) E) :
    SafeAt J E fn site (liftM c : Lower α) :=
  Safe.lift h

@[grind ←] theorem Safe.unit : Safe J E fn (getThe CompilationUnit) := Safe.lift (.get fun _ hu ↦ hu)

@[grind ←] theorem SafeAt.stage : SafeAt J E fn site (getThe Stage) := Safe.get

@[grind ←] theorem SafeAt.unit : SafeAt J E fn site (getThe CompilationUnit) := Safe.unit

theorem SafeAt.modifyThe {f : Stage → Stage} (h : ∀ s, (f s).fn = s.fn) : SafeAt J E fn site (modifyThe Stage f) :=
  Safe.modify h

@[grind ←] theorem SafeAt.mapM {f : α → Lower β} {as : List α} (h : ∀ a ∈ as, SafeAt J E fn site (f a)) :
    SafeAt J E fn site (as.mapM f) := by
  induction as with
  | nil => exact .pure _
  | cons a as ih =>
    rw [List.mapM_cons]
    refine (h a List.mem_cons_self).bind fun b ↦ ?_
    exact (ih fun a ha ↦ h a (List.mem_cons_of_mem _ ha)).bind fun bs ↦ .pure _

@[grind ←] theorem SafeAt.forM {f : α → Lower PUnit} {as : List α} (h : ∀ a ∈ as, SafeAt J E fn site (f a)) :
    SafeAt J E fn site (as.forM f) := by
  induction as with
  | nil => exact .pure _
  | cons a as ih => exact (h a List.mem_cons_self).bind fun _ ↦ ih fun a ha ↦ h a (List.mem_cons_of_mem _ ha)

@[grind ←] theorem safe_constant (c : Const) : Safe J E fn (constant c) := Safe.modifyGet fun _ ↦ rfl

@[grind ←] theorem safe_intConst (t : Ssa.Ty) (n : Int) : Safe J E fn (intConst t n) := by grind [intConst]

@[grind ←] theorem safe_push (v : Operand) : Safe J E fn (push v) := Safe.modify fun _ ↦ rfl

@[grind ←] theorem safe_settleEntry (start : Nat) : Safe J E fn (settleEntry start) := by
  refine .modify fun s ↦ ?_
  split <;> rfl

theorem spec_onModule {f : Module → Module × α} (h : ∀ u, J u → J { u with module := (f u.module).1 }) :
    Spec J (onModule f) (fun _ ↦ J) E :=
  .of_run (fun _ ↦ rfl) h

theorem spec_cleaned {P E E' : CompilationUnit → Prop} {Q : α → CompilationUnit → Prop} {c : Compile α}
    {g : CompileError → CompilationUnit → CompilationUnit} (h : Spec P c Q E) (hE : ∀ {e : CompileError} {u},
    E u → E' (g e u)) : Spec P (tryCatch c fun e ↦ do
      modify (g e)
      throw e) Q E' := by
  have hrun : ∀ u, (tryCatch c fun e ↦ do
      modify (g e)
      throw e : Compile α).run.run u = (ExceptT.tryCatch c fun e ↦ do
        modify (g e)
        MonadExcept.throw e).run.run u := fun _ ↦ rfl
  intro u hu
  obtain ⟨hok, herror⟩ := h u hu
  simp only [Compiles, hrun, ExceptT.tryCatch, ExceptT.run_mk, StateT.run_bind]
  rcases hc : StateT.run c u with ⟨_ | a, u₁⟩
  · constructor
    · intro a u' h'
      cases h'
    · intro e u' h'
      cases h'
      exact hE (herror _ _ hc)
  · constructor
    · intro a u' h'
      cases h'
      exact hok _ _ hc
    · intro e u' h'
      cases h'

theorem Spec.failing {P E E' : CompilationUnit → Prop} {Q : α → CompilationUnit → Prop}
    {span : Trace.Span} {c : Compile α} (h : Spec P c Q E) (hE : ∀ {e : CompileError} {u}, E u →
    E' { u with tracing := (span.finish u.tracing e.message true).1 }) :
    Spec P (failing span c) Q E' :=
  spec_cleaned h hE

theorem Spec.abandoning {P E E' : CompilationUnit → Prop} {Q : α → CompilationUnit → Prop} {c : Compile α}
    (h : Spec P c Q E) (hE : ∀ {u}, E u → E' { u with building := u.building - 1 }) : Spec P (abandoning c) Q E' :=
  spec_cleaned (g := fun _ u ↦ { u with building := u.building - 1 }) h hE

theorem spec_failing {P E : CompilationUnit → Prop} {Q : α → CompilationUnit → Prop} {span : Trace.Span} {c : Compile α}
    (hE : ∀ {u u'}, E u → SameUpToLayouts u u' → E u') (h : Spec P c Q E) : Spec P (failing span c) Q E :=
  h.failing fun hu ↦ hE hu (.of_engine ⟨rfl, rfl, rfl, rfl, rfl, rfl⟩ rfl rfl rfl)

theorem Spec.inside {P P' E E' : CompilationUnit → Prop} {Q Q' : α → CompilationUnit → Prop} {span : Trace.Span}
    {c : Compile α} (h : Spec P' c Q' E') (hP : ∀ u, P u → P' { u with spans := span.id :: u.spans })
    (hQ : ∀ a u, Q' a u → Q a { u with spans := u.spans.tail }) (hE : ∀ u, E' u → E { u with spans := u.spans.tail }) :
    Spec P (inside span c) Q E := by
  have hrun : ∀ u, (Lowering.inside span c).run.run u = ((c.run.run { u with spans := span.id :: u.spans }).1,
      { (c.run.run { u with spans := span.id :: u.spans }).2 with
        spans := (c.run.run { u with spans := span.id :: u.spans }).2.spans.tail }) := fun _ ↦ rfl
  intro u hu
  obtain ⟨hok, herror⟩ := h _ (hP u hu)
  rcases hc : c.run.run { u with spans := span.id :: u.spans } with ⟨_ | a, u₁⟩
  · constructor
    · intro a u' h'
      rw [Compiles, hrun, hc] at h'
      cases h'
    · intro e u' h'
      rw [hrun, hc] at h'
      cases h'
      exact hE _ (herror _ _ hc)
  · constructor
    · intro a u' h'
      rw [Compiles, hrun, hc] at h'
      cases h'
      exact hQ _ _ (hok _ _ hc)
    · intro e u' h'
      rw [hrun, hc] at h'
      cases h'

/-- Laying an aggregate out, the last thing done for it, changes nothing but what the engine knows of layouts. -/
theorem spec_layOut {P E : CompilationUnit → Prop} {Q : CompiledType → CompilationUnit → Prop} {t : Ty} {st : Ssa.Ty}
    {ct : CompiledType}
    (h : ∀ u, P u → P { u with engine := { u.engine with layouts := (u.engine.layouts.of u.module st).2 } })
    (hgives : ∀ u, P u → Q ct u) (hfails : ∀ u, P u → E u) : Spec P (do
      let u ← get
      let (r, layouts) := u.engine.layouts.of u.module st
      set { u with engine := { u.engine with layouts } }
      match r with
      | .ok _ => return ct
      | .error (.noBody s) =>
        if u.building = 0 then throw (.unsupportedType t (.layout (.noBody s))) else return ct
      | .error e => throw (.unsupportedType t (.layout e)) : Compile CompiledType) Q E := by
  refine .of_get fun v ↦ .forget fun hv ↦ ?_
  have hlearnt := h v hv
  generalize v.engine.layouts.of v.module st = found at hlearnt ⊢
  rcases found with ⟨r, layouts⟩
  refine Spec.bind (Q := fun _ ↦ P) (.set fun _ _ ↦ hlearnt) fun _ ↦ ?_
  split
  · exact .pure hgives
  · split
    · exact .throw hfails
    · exact .pure hgives
  · exact .throw hfails

variable [hJ : Steady J E]

include hJ

@[grind ←] theorem Safe.throw {e : CompileError} : Safe J E fn (throw e : Emit α) :=
  fun _ _ ↦ .throw fun _ hu ↦ hJ.fails hu

@[grind ←] theorem SafeAt.throw {e : CompileError} : SafeAt J E fn site (throw e : Lower α) := Safe.throw

theorem spec_layoutOf (t : Ssa.Ty) : Spec J (layoutOf t) (fun _ ↦ J) E := by
  refine .of_get fun v ↦ ?_
  have hlearnt : Learnt v.module v.engine.layouts (v.engine.layouts.of v.module t).2 := .asked t .nothing
  generalize v.engine.layouts.of v.module t = found at hlearnt ⊢
  rcases found with ⟨r, layouts⟩
  refine .bind (Q := fun _ ↦ J) (.set ?_) fun _ ↦ ?_
  · rintro u ⟨rfl, hu⟩
    exact hJ.still hu ⟨⟨⟨⟨rfl, rfl, rfl, rfl, rfl, rfl⟩, hlearnt, rfl, rfl⟩, rfl⟩, rfl, rfl, rfl, rfl⟩
  · cases r with
    | error e => exact .throw fun _ hu ↦ hJ.fails hu
    | ok l => exact .pure fun _ hu ↦ hu

@[grind ←] theorem spec_sizeOf (t : Ssa.Ty) : Spec J (sizeOf t) (fun _ ↦ J) E :=
  (spec_layoutOf t).bind fun _ ↦ .pure fun _ hu ↦ hu

@[grind ←] theorem spec_resolve (ask : Resolver → Except ResolutionError α × Resolver × List Resolver.Attempt) :
    Spec J (resolve ask) (fun _ ↦ J) E := by
  refine .of_get fun v ↦ ?_
  rcases ask v.resolver with ⟨r, resolver, attempts⟩
  refine .bind (Q := fun _ ↦ J) (.set ?_) fun _ ↦ ?_
  · rintro u ⟨rfl, hu⟩
    exact hJ.still hu ⟨.of_engine ⟨rfl, rfl, rfl, rfl, rfl, rfl⟩ rfl rfl rfl, rfl, rfl, rfl, rfl⟩
  · cases r with
    | error e => exact .throw fun _ hu ↦ hJ.fails hu
    | ok l => exact .pure fun _ hu ↦ hu

end

section

variable {J E : CompilationUnit → Prop} [hJ : Stable J E]

include hJ

@[grind ←] theorem spec_beginSpan (scope : Trace.Scope) (name : String) : Spec J (beginSpan scope name) (fun _ ↦ J) E :=
  .of_run (fun _ ↦ rfl) fun _ hu ↦ hJ.same hu (.of_engine ⟨rfl, rfl, rfl, rfl, rfl, rfl⟩ rfl rfl rfl)

@[grind ←] theorem spec_endSpan (span : Trace.Span) (detail : String) (failed : Bool) :
    Spec J (endSpan span detail failed) (fun _ ↦ J) E :=
  .modify fun _ hu ↦ hJ.same hu (.of_engine ⟨rfl, rfl, rfl, rfl, rfl, rfl⟩ rfl rfl rfl)

theorem spec_inside {K : CompilationUnit → Prop} [hK : Stable K E] {α : Type} {span : Trace.Span} {c : Compile α}
    (h : Spec J c (fun _ ↦ K) E) : Spec J (inside span c) (fun _ ↦ K) E :=
  h.inside (fun _ hu ↦ hJ.same hu (.of_engine ⟨rfl, rfl, rfl, rfl, rfl, rfl⟩ rfl rfl rfl))
    (fun _ _ hu ↦ hK.same hu (.of_engine ⟨rfl, rfl, rfl, rfl, rfl, rfl⟩ rfl rfl rfl))
    fun _ hu ↦ hJ.sameFailed hu (.of_engine ⟨rfl, rfl, rfl, rfl, rfl, rfl⟩ rfl rfl rfl)

end

/-- Further, `J` holds through such instructions added to function `fn` as lowering makes. -/
class Extendable (J E : CompilationUnit → Prop) (fn : FuncId) : Prop extends Steady J E where
  append : ∀ {u} (b : Nat) {i : Instr}, i.Hinted → J u → J { u with module := (u.module.append ⟨fn, b⟩ i).1 }
  memset : ∀ {u}, J u → J { u with module := u.module.memset.1 }

/-- Or through any instructions added to function `fn`. -/
class Growable (J E : CompilationUnit → Prop) (fn : FuncId) : Prop extends Stable J E where
  append : ∀ {u} (b : Nat) (i : Instr), J u → J { u with module := (u.module.append ⟨fn, b⟩ i).1 }
  memset : ∀ {u}, J u → J { u with module := u.module.memset.1 }

instance Growable.extendable {J E : CompilationUnit → Prop} {fn : FuncId} [h : Growable J E fn] :
    Extendable J E fn where
  append b _ _ hu := h.append b _ hu
  memset := h.memset

section

variable {J E : CompilationUnit → Prop} {fn : FuncId} {b : Nat} {i : Instr}

theorem safe_append (h : ∀ u, J u → J { u with module := (u.module.append ⟨fn, b⟩ i).1 }) :
    Safe J E fn (emitAt b i) := by
  rintro s rfl
  have hc : Spec J (onModule fun m ↦ m.append ⟨s.fn, b⟩ i) (fun _ ↦ J) E := spec_onModule h
  exact Safe.lift hc s rfl

theorem Growable.safe_emitAt [hfn : Growable J E fn] (b : Nat) (i : Instr) : Safe J E fn (emitAt b i) :=
  safe_append fun _ hu ↦ hfn.append b i hu

theorem Growable.safe_emit [hfn : Growable J E fn] (i : Instr) : Safe J E fn (emit i) := Safe.get.bind fun s ↦
    hfn.safe_emitAt s.block i

theorem Growable.safe_slotFor [hfn : Growable J E fn] (t : Ssa.Ty) (name : String) : Safe J E fn (slotFor t name) :=
    hfn.safe_emitAt 0 _

end

section

variable {J E : CompilationUnit → Prop} {fn : FuncId} [hfn : Extendable J E fn]

include hfn

@[grind ←] theorem safe_emitAt (b : Nat) {i : Instr} (hi : i.Hinted) : Safe J E fn (emitAt b i) :=
  safe_append fun _ hu ↦ hfn.append b hi hu

@[grind ←] theorem safe_clearAt (b : Nat) (dst : Value) (size : Int) : Safe J E fn (clearAt b dst size) := by
  rintro s rfl
  have h : Spec J (onModule fun m ↦ m.appendMemset ⟨s.fn, b⟩ dst 0 (Number.wordOfInt size) fun k ↦
    .made (s.constants + k))
      (fun _ ↦ J) E := by
    refine spec_onModule fun u hu ↦ ?_
    have hp := hfn.memset hu
    unfold Module.appendMemset
    dsimp only
    cases hi : Instr.pointerCast? dst .bytePointer "" with
    | none => exact hfn.append b (.unnamed rfl) hp
    | some i => exact hfn.append b (.unnamed rfl) (hfn.append b (Instr.hinted_pointerCast? i hi) hp)
  have hs : Safe J E s.fn (liftM (onModule fun m ↦ m.appendMemset ⟨s.fn, b⟩ dst 0 (Number.wordOfInt size)
      fun k ↦ .made (s.constants + k)) >>= fun _ ↦ pure ()) := (Safe.lift h).bind fun _ ↦ .pure _
  exact hs { s with constants := s.constants + 3 } rfl

@[grind ←] theorem safe_emit {i : Instr} (hi : i.Hinted) : Safe J E fn (emit i) := Safe.get.bind fun s ↦
    safe_emitAt s.block hi

@[grind ←] theorem safe_emitOr (v : Value) {i : Option Instr} (hi : ∀ x ∈ i, x.Hinted) : Safe J E fn (emitOr v i) := by
  cases i with
  | none => exact .pure v
  | some x => exact safe_emit (hi x rfl)

@[grind ←] theorem safe_slotFor (t : Ssa.Ty) {name : String} (h : SlotName name) : Safe J E fn (slotFor t name) :=
  safe_emitAt 0 (.slot rfl h)

@[grind ←] theorem safe_load (p : Value) : Safe J E fn (load p) := safe_emit Instr.hinted_load

@[grind ←] theorem safe_store (v p : Value) : Safe J E fn (store v p) :=
  (safe_emit Instr.hinted_store).bind fun _ ↦ .pure _

@[grind ←] theorem safe_castTo (op : Ssa.Op) (v : Value) (t : Ssa.Ty) : Safe J E fn (castTo op v t) :=
  safe_emit Instr.hinted_cast

@[grind ←] theorem safe_pointerTo (v : Value) (t : Ssa.Ty) : Safe J E fn (pointerTo v t) :=
  safe_emitOr v Instr.hinted_pointerCast?

@[grind ←] theorem safe_emitCall (f : FuncId) (args : List Value) : Safe J E fn (emitCall f args) :=
  Safe.unit.bind fun _ ↦ safe_emit Instr.hinted_call

@[grind ←] theorem safe_materialize (v : Operand) : Safe J E fn (materialize v) := by grind [materialize]

@[grind ←] theorem safe_deref (v : Operand) : Safe J E fn (deref v) := by grind [deref]

@[grind ←] theorem safe_settle : Safe J E fn settle := by
  unfold settle
  refine Safe.get.bind fun s ↦ (Safe.mapM fun v _ ↦ safe_materialize v).bind fun vs ↦ ?_
  exact .modify fun _ ↦ rfl

@[grind ←] theorem safe_advance (p : Value) (n : Int) : Safe J E fn (advance p n) := by grind [advance]

@[grind ←] theorem safe_pushBuffer (c v : Value) (n : Int) : Safe J E fn (pushBuffer c v n) := by grind [pushBuffer]

@[grind ←] theorem safe_popBuffer (c : Value) (t : Ssa.Ty) (n : Int) : Safe J E fn (popBuffer c t n) := by
  grind [popBuffer]

@[grind ←] theorem safe_makeBuffer (n : Int) : Safe J E fn (makeBuffer n) :=
  (safe_intConst _ _).bind fun _ ↦ (safe_emitAt 0 (.slot rfl .buffer)).bind fun _ ↦ (safe_slotFor _ .top).bind fun _ ↦
    (safe_emitAt 0 Instr.hinted_store).bind fun _ ↦ .pure _

@[grind ←] theorem safe_spilled (v : Operand) : Safe J E fn (spilled v) := by
  refine (safe_materialize v).bind fun w ↦ ?_
  split
  · exact (safe_slotFor _ .spill).bind fun _ ↦ (safe_store _ _).bind fun _ ↦ .pure _
  · exact .pure w

@[grind ←] theorem safe_takeEntry (hint : Option Ty) : Safe J E fn (takeEntry hint) := by
  refine .of_get fun s hs ↦ ?_
  split
  · exact Safe.set_bind (by exact hs) (.pure _) s
  · split
    · split
      · exact Safe.set_bind (by exact hs) (.pure _) s
      · exact Safe.throw s hs
    · exact Safe.throw s hs

theorem safe_bindArgument (f : Function) {t : Ty} {i : Nat}
    (hslot : t.isByRef = false → Safe J E fn (slotFor (f.param i).type ("arg" ++ toString i))) :
    Safe J E fn (bindArgument f t i) := by
  unfold bindArgument
  dsimp only
  split
  · exact .pure _
  · rename_i h
    exact (hslot (Bool.eq_false_iff.mpr h)).bind fun _ ↦ (safe_emitAt 0 Instr.hinted_store).bind fun _ ↦ .pure _

end

/-- The property `J` holds through what a site asks to be compiled. -/
class Supports (J E : CompilationUnit → Prop) (site : Site) : Prop where
  types : ∀ t, Spec J (compileType site.world site.world.nestingLimit t) (fun _ ↦ J) E
  methods : ∀ id m, site.world.method? id = some m → Spec J (site.compile m) (fun _ ↦ J) E

section

variable {α : Type} {J E : CompilationUnit → Prop} {fn : FuncId} {site : Site}

@[grind ←] theorem safe_unsupported [Steady J E] (i : Instruction) (reason : String) :
    SafeAt J E fn site (unsupported i reason : Lower α) := by grind [unsupported]

@[grind ←] theorem safe_noConversion [Steady J E] (src dst : Ty) (a b : Ssa.Ty) :
    SafeAt J E fn site (noConversion src dst a b : Lower α) := by grind [noConversion]

@[grind ←] theorem safe_slotNumbered [Steady J E] (what : String) (slots : List Operand) (n : Int) :
    SafeAt J E fn site (slotNumbered what slots n) := by grind [slotNumbered]

@[grind ←] theorem safe_blockAt (offset : Nat) : SafeAt J E fn site (blockAt offset) := by grind [blockAt]

theorem safe_lowerWithin {part : Part} {c : Lower α} (h : SafeAt J E fn site c) :
    SafeAt J E fn site (lowerWithin part c) := fun s hs ↦ (h s hs).adapt

theorem safe_during {i : Instruction} {c : Lower Unit} (h : SafeAt J E fn site c) : SafeAt J E fn site (during i c) :=
  fun s hs ↦ (h s hs).adapt

@[grind ←] theorem safe_counterpart [hsite : Supports J E site] (t : Ty) : SafeAt J E fn site (counterpart t) :=
  SafeAt.read_bind <| .compile <| (hsite.types t).bind fun _ ↦ .pure fun _ hu ↦ hu

@[grind ←] theorem safe_sameShape [Steady J E] [Supports J E site] (as bs : List Ty) :
    SafeAt J E fn site (sameShape as bs) := by
  fun_induction sameShape as bs <;> grind

@[grind ←] theorem safe_pushAll [Extendable J E fn] (depth : Int) (vs : List Operand) :
    SafeAt J E fn site (pushAll depth vs) := by
  fun_induction pushAll depth vs <;> grind

@[grind ←] theorem safe_truth [Extendable J E fn] (i : Instruction) (v : Operand) (want : Bool) :
    SafeAt J E fn site (truth i v want) := by
  unfold truth
  grind

@[grind ←] theorem safe_typeOperand [Steady J E] (i : Instruction) : SafeAt J E fn site (typeOperand i) := by
  grind [typeOperand]

variable [hfn : Extendable J E fn] [hsite : Supports J E site]

include hfn hsite

@[grind ←] theorem safe_operandSize (t : Ty) : SafeAt J E fn site (operandSize t) := by grind [operandSize]

@[grind ←] theorem safe_convertByOperator (v : Operand) (t : Ty) : SafeAt J E fn site (convertByOperator v t) := by
  refine SafeAt.read_bind ?_
  cases hm : site.world.conversion? v.type t with
  | none => exact .throw
  | some m =>
    have hmem : m ∈ site.world.methods v.type ++ site.world.methods t := List.mem_of_find?_eq_some hm
    obtain ⟨id, hid⟩ : ∃ id, site.world.method? id = some m := by
      rcases List.mem_append.mp hmem with h | h
      · obtain ⟨id, -, hid⟩ := List.mem_filterMap.mp h
        exact ⟨id, hid⟩
      · obtain ⟨id, -, hid⟩ := List.mem_filterMap.mp h
        exact ⟨id, hid⟩
    exact SafeAt.bind (.compile (hsite.methods id m hid)) fun f ↦ safe_emitCall f _

@[grind ←] theorem safe_convertValue (v : Operand) (t : Ty) (dst : Ssa.Ty) :
    SafeAt J E fn site (convertValue v t dst) := by
  unfold convertValue
  dsimp only
  split
  · exact .pure _
  split
  · exact safe_convertByOperator v t
  · exact safe_convertByOperator v t
  · exact .lift (safe_emitOr _ Instr.hinted_intCast?)
  · exact .lift (safe_castTo _ _ _)
  · exact .lift (safe_castTo _ _ _)
  · exact .lift (safe_castTo _ _ _)
  · exact .lift (safe_emitOr _ Instr.hinted_floatCast?)
  · exact .lift (safe_emitOr _ Instr.hinted_floatCast?)
  · exact .lift (safe_emitOr _ Instr.hinted_floatCast?)
  · exact .lift (safe_emitOr _ Instr.hinted_floatCast?)
  · exact .lift (safe_castTo _ _ _)
  · exact .lift (safe_castTo _ _ _)
  · exact SafeAt.bind (.lift (safe_castTo _ _ _)) fun _ ↦ .lift (safe_castTo _ _ _)
  · exact SafeAt.bind (.lift (safe_castTo _ _ _)) fun _ ↦ .lift (safe_castTo _ _ _)
  · exact .lift (safe_pointerTo _ _)
  · exact .lift (safe_castTo _ _ _)
  · exact SafeAt.bind (.lift (safe_castTo _ _ _)) fun _ ↦ .lift (safe_castTo _ _ _)
  · exact SafeAt.bind (.lift (safe_castTo _ _ _)) fun _ ↦ .lift (safe_castTo _ _ _)
  · exact safe_noConversion _ _ _ _

@[grind ←] theorem safe_convertDirectly (v : Operand) (t : Ty) : SafeAt J E fn site (convertDirectly v t) := by
  unfold convertDirectly
  split
  · exact SafeAt.bind (safe_counterpart t) fun c ↦ .bind (.lift (safe_castTo _ _ _)) fun _ ↦ .pure _
  · refine SafeAt.read_bind ?_
    split
    · exact .throw
    · exact SafeAt.bind (safe_counterpart t) fun c ↦ .bind (safe_convertValue v t c) fun _ ↦ .pure _

@[grind ←] theorem safe_convertFrom (target t : Ty) (v : Value) (slot : Bool) :
    SafeAt J E fn site (convertFrom target t v slot) := by
  fun_induction convertFrom target t v slot <;> grind

@[grind ←] theorem safe_convert (v : Operand) (t : Ty) : SafeAt J E fn site (convert v t) :=
  safe_convertFrom t v.type v.value v.slot

@[grind ←] theorem safe_address (v : Operand) (elem : Ty) : SafeAt J E fn site (address v elem) := by
  refine SafeAt.bind (safe_counterpart elem) fun c ↦ ?_
  dsimp only
  split
  · exact .pure _
  refine SafeAt.bind (.lift (safe_materialize v)) fun w ↦ ?_
  split
  · exact .lift (safe_pointerTo _ _)
  · exact SafeAt.bind (.lift (safe_slotFor _ .spill)) fun p ↦ .bind (.lift (safe_store _ p)) fun _ ↦
      .lift (safe_pointerTo p _)
  · exact .lift (safe_castTo _ _ _)
  · exact .throw

@[grind ←] theorem safe_popRaw (hint : Option Ty) : SafeAt J E fn site (popRaw hint) := by
  refine Safe.of_get fun s hs ↦ ?_
  cases s.pending with
  | cons v rest => exact Safe.set_bind (by exact hs) (.pure _) s
  | nil =>
    have h : SafeAt J E fn site (do
        let t ← takeEntry hint
        let code ← counterpart t
        let size ← sizeOf code
        return ⟨t, ← popBuffer (← read).top code size, false⟩ : Lower Operand) := by grind
    exact h s hs

@[grind ←] theorem safe_pop (t : Ty) : SafeAt J E fn site (pop t) :=
  SafeAt.bind (safe_popRaw _) fun v ↦ safe_convert v t

@[grind ←] theorem safe_recordEntry (shape : List Ty) (offset : Nat) :
    SafeAt J E fn site (recordEntry shape offset) := by
  refine Safe.of_get fun s hs ↦ ?_
  cases s.entries.lookup offset with
  | none => exact .pure fun _ hu ↦ ⟨hs, hu⟩
  | some known =>
    have h : SafeAt J E fn site (do
        if !(← sameShape known shape) then throw (.shape shape known offset) : Lower Unit) := by grind
    exact h s hs

@[grind ←] theorem safe_flush (start : Nat) (successors : List Nat) : SafeAt J E fn site (flush start successors) := by
  unfold flush
  refine SafeAt.bind (.lift (safe_settleEntry start)) fun _ ↦ .bind .stage fun s ↦ ?_
  refine SafeAt.bind (.mapM fun t _ ↦ safe_operandSize t) fun sizes ↦ .bind (safe_pushAll _ _) fun above ↦ ?_
  exact SafeAt.bind (.modifyThe fun _ ↦ rfl) fun _ ↦ .forM fun o _ ↦ safe_recordEntry _ o

@[grind ←] theorem safe_storeSlot (slot : Operand) : SafeAt J E fn site (storeSlot slot) :=
  SafeAt.bind (.lift safe_settle) fun _ ↦ .bind (safe_pop _) fun v ↦ .lift (safe_store v.value _)

@[grind ←] theorem safe_operands : SafeAt J E fn site operands :=
  SafeAt.bind (safe_popRaw none) fun rhs ↦ .bind (safe_popRaw none) fun lhs ↦ .bind (.lift (safe_deref rhs)) fun rhs ↦
    .bind (.lift (safe_deref lhs)) fun lhs ↦ .bind (safe_convert lhs rhs.type) fun _ ↦ .pure _

@[grind ←] theorem safe_arith (i : Instruction) (op : Arith) : SafeAt J E fn site (arith i op) := by
  refine SafeAt.bind safe_operands fun p ↦ ?_
  have hrest : ∀ code, SafeAt J E fn site (do
      push ⟨p.2.type, ← emit (.binary code p.1.value p.2.value ""), false⟩) :=
    fun code ↦ SafeAt.bind (.lift (safe_emit Instr.hinted_binary)) fun _ ↦ .lift (safe_push _)
  dsimp only
  split <;> first | exact SafeAt.bind (.pure _) hrest | exact SafeAt.bind (safe_unsupported i _) hrest

@[grind ←] theorem safe_compare (i : Instruction) (c : Comparison) : SafeAt J E fn site (compare i c) := by
  refine SafeAt.bind safe_operands fun p ↦ ?_
  dsimp only
  split
  · exact .lift (safe_emit Instr.hinted_icmp)
  · exact .lift (safe_emit Instr.hinted_icmp)
  · exact .lift (safe_emit Instr.hinted_fcmp)
  · exact .lift (safe_emit Instr.hinted_fcmp)
  · exact safe_unsupported i _

@[grind ←] theorem safe_branchOn (start : Nat) (i : Instruction) (c : Value) :
    SafeAt J E fn site (branchOn start i c) :=
  SafeAt.bind (safe_flush start _) fun _ ↦ .bind (safe_blockAt _) fun _ ↦ .bind (safe_blockAt _) fun _ ↦
    .bind (.lift (safe_emit Instr.hinted_condbr)) fun _ ↦ .pure _

@[grind ←] theorem safe_returnFrom (start : Nat) : SafeAt J E fn site (returnFrom start) := by
  refine SafeAt.read_bind ?_
  dsimp only
  split
  · exact SafeAt.bind (safe_flush start _) fun _ ↦ .bind (.lift (safe_emit Instr.hinted_retVoid)) fun _ ↦ .pure _
  · exact SafeAt.bind (safe_pop _) fun v ↦ .bind (safe_flush start _) fun _ ↦
      .bind (.lift (safe_emit Instr.hinted_ret)) fun _ ↦ .pure _

@[grind ←] theorem safe_convertTop (t : Ty) : SafeAt J E fn site (convertTop t) := by
  refine SafeAt.bind (safe_popRaw none) fun v ↦ ?_
  split
  · exact SafeAt.bind (safe_counterpart t) fun dst ↦ .bind (safe_convertValue v t dst) fun _ ↦ .lift (safe_push _)
  · exact SafeAt.bind (safe_convert v t) fun w ↦ .lift (safe_push w)

@[grind ←] theorem safe_convertTopUnsigned : SafeAt J E fn site convertTopUnsigned := by
  refine SafeAt.bind (safe_popRaw none) fun v ↦ .bind (.lift (safe_deref v)) fun v ↦ ?_
  split
  · exact SafeAt.bind (.lift (safe_castTo _ _ _)) fun _ ↦ .lift (safe_push _)
  · exact SafeAt.bind (safe_convert v float64) fun w ↦ .lift (safe_push w)

@[grind ←] theorem safe_loadObject (t : Ty) : SafeAt J E fn site (loadObject t) :=
  SafeAt.bind (safe_popRaw _) fun v ↦ .bind (safe_address v t) fun p ↦ .bind (.lift (safe_load p)) fun _ ↦
    .lift (safe_push _)

@[grind ←] theorem safe_storeObject (t : Ty) : SafeAt J E fn site (storeObject t) :=
  SafeAt.bind (.lift safe_settle) fun _ ↦ .bind (safe_pop t) fun v ↦ .bind (safe_popRaw _) fun w ↦
    .bind (safe_address w t) fun p ↦ .lift (safe_store v.value p)

@[grind ←] theorem safe_clearObject (t : Ty) : SafeAt J E fn site (clearObject t) :=
  SafeAt.bind (.lift safe_settle) fun _ ↦ .bind (safe_popRaw _) fun v ↦ .bind (safe_address v t) fun p ↦
    .bind (safe_operandSize t) fun size ↦ .bind .stage fun s ↦ .lift (safe_clearAt s.block p size)

omit hsite in
@[grind ←] theorem safe_methodOperand {i : Instruction} {f : Method → Lower α}
    (h : ∀ id m, site.world.method? id = some m → SafeAt J E fn site (f m)) :
    SafeAt J E fn site (methodOperand i >>= f) := by
  unfold methodOperand
  rw [bind_assoc]
  refine SafeAt.read_bind ?_
  rw [bind_assoc]
  refine SafeAt.bind (.compile (spec_resolve _)) fun id ↦ ?_
  cases hm : site.world.method? id with
  | none => exact fun s hs ↦ .throw fun _ hu ↦ hfn.fails hu
  | some m => exact h id m hm

@[grind ←] theorem safe_fieldOperand (i : Instruction) : SafeAt J E fn site (fieldOperand i) := by
  refine SafeAt.read_bind (.bind (.compile (spec_resolve _)) fun f ↦ ?_)
  by_cases hstatic : f.isStatic = true
  · rw [if_pos hstatic]
    refine SafeAt.bind (safe_unsupported i _) fun _ ↦ .bind (safe_counterpart _) fun _ ↦ ?_
    split
    · exact .pure _
    · exact .throw
  · rw [if_neg hstatic]
    refine SafeAt.bind (safe_counterpart _) fun _ ↦ ?_
    split
    · exact .pure _
    · exact .throw

@[grind ←] theorem safe_fieldPointer (f : Field) (index : Nat) : SafeAt J E fn site (fieldPointer f index) := by
  refine SafeAt.bind (safe_popRaw _) fun v ↦ .bind (safe_address v _) fun base ↦ .bind .unit fun u ↦ ?_
  exact .lift (safe_emit Instr.hinted_gep)

@[grind ←] theorem safe_callArguments (m : Method) : SafeAt J E fn site (callArguments m) := by
  unfold callArguments
  refine SafeAt.bind (.mapM fun p _ ↦ ?_) fun _ ↦ .pure _
  exact SafeAt.bind (safe_lowerWithin (safe_pop _)) fun _ ↦ .pure _

@[grind ←] theorem safe_newObject (i : Instruction) : SafeAt J E fn site (newObject i) := by
  unfold newObject
  refine safe_methodOperand fun id m hm ↦ ?_
  dsimp only
  split
  on_goal 1 => refine SafeAt.bind .throw fun _ ↦ ?_
  all_goals
    refine SafeAt.bind (.lift safe_settle) fun _ ↦ .read_bind (.bind (.compile (hsite.methods id m hm)) fun f ↦ ?_)
    refine SafeAt.bind (safe_counterpart _) fun code ↦ .bind (.compile (spec_sizeOf code)) fun size ↦ ?_
    refine SafeAt.bind (safe_callArguments m) fun args ↦ .bind (.lift (safe_slotFor _ .object)) fun object ↦ ?_
    refine SafeAt.bind .stage fun s ↦ .bind (.lift (safe_clearAt _ _ _)) fun _ ↦ ?_
    exact SafeAt.bind (.lift (safe_emitCall f _)) fun _ ↦ .lift (safe_push _)

@[grind ←] theorem safe_call (i : Instruction) : SafeAt J E fn site (call i) := by
  unfold call
  refine safe_methodOperand fun id m hm ↦ ?_
  refine SafeAt.bind (.lift safe_settle) fun _ ↦ .read_bind (.bind (.compile (hsite.methods id m hm)) fun f ↦ ?_)
  refine SafeAt.bind (safe_callArguments m) fun args ↦ ?_
  grind [safe_lowerWithin]

@[grind ←] theorem safe_lower (start : Nat) (i : Instruction) : SafeAt J E fn site (lower start i) := by
  unfold lower
  split <;> grind [argument, localSlot]

@[grind ←] theorem safe_lowerBlock (number : Nat) (sp : Bytecode.Span) :
    SafeAt J E fn site (lowerBlock number sp) := by
  unfold lowerBlock
  refine SafeAt.bind (.modifyThe fun _ ↦ rfl) fun _ ↦ .bind (.forM fun i _ ↦ safe_during (safe_lower _ i)) fun _ ↦ ?_
  split
  · refine SafeAt.bind (safe_during (safe_flush _ _)) fun _ ↦ ?_
    grind
  · grind

theorem safe_lowerTraced [hJ : Stable J E] (number : Nat) (sp : Bytecode.Span) :
    Safe J E fn (lowerTraced number sp site) := by
  intro s hs
  refine (spec_beginSpan _ _).bind fun span ↦ (spec_failing hJ.sameFailed (safe_lowerBlock number sp s hs)).bind
    fun out ↦ ?_
  intro u hu
  have h : Spec J (do
      endSpan (span.attr "instrs" (toString sp.instrs.length)) "ok" false
      return out) (fun p u ↦ p.2.fn = fn ∧ J u) E :=
    (spec_endSpan _ _ _).bind fun _ ↦ .pure fun _ h ↦ ⟨hu.1, h⟩
  exact h u hu.2

end

section

variable {world : Universe} {J E : CompilationUnit → Prop} {fn : FuncId} [hfn : Extendable J E fn]

include hfn

theorem safe_bindLocal (htypes : ∀ t, Spec J (compileType world world.nestingLimit t) (fun _ ↦ J) E) (t : Ty) (i : Nat) :
    Safe J E fn (bindLocal world t i) := by
  have hcode : ∀ t, Spec J (codeType world t) (fun _ ↦ J) E := fun t ↦ (htypes t).bind fun _ ↦ .pure fun _ hu ↦ hu
  unfold bindLocal
  refine Safe.bind (.lift (Spec.adapt ?_)) fun code ↦ .bind (.lift (Spec.adapt (spec_sizeOf code))) fun size ↦ ?_
  · split
    · exact (hcode t.elem).bind fun _ ↦ .pure fun _ hu ↦ hu
    · exact hcode t
  · exact (safe_slotFor _ (.local i)).bind fun slot ↦ (safe_clearAt 0 slot size).bind fun _ ↦ .pure _

/-- The body of a function: `J₀` holds of the unit where the function has no blocks yet and `J` from the first block on.
-/
theorem spec_lowerBodyWith {J₀ : CompilationUnit → Prop} (h₀ : ∀ u, J₀ u → E u) {compile : Method → Compile FuncId}
    {m : Method} {body : Body} {args : List Ty} {f : Function} (hf : f.id = fn)
    (htypes : ∀ t, Spec J (compileType world world.nestingLimit t) (fun _ ↦ J) E)
    (hargs : ∀ t i, (t, i) ∈ args.zipIdx → t.isByRef = false →
    Safe J E fn (slotFor (f.param i).type ("arg" ++ toString i)))
    (hfirst : ∀ u, J₀ u → J { u with module := (u.module.addBlock fn "init").1 })
    (hnext : ∀ u (n : Nat), J u → J { u with module := (u.module.addBlock fn (offsetLabel n)).1 })
    (hblock : ∀ site : Site, site.world = world → site.compile = compile → ∀ number sp,
    Safe J E fn (lowerTraced number sp site)) : Spec J₀ (lowerBody world compile m body args f) (fun _ ↦ J) E := by
  unfold lowerBody
  dsimp only
  split
  · rename_i spans _
    rw [pure_bind]
    have hadd : ∀ n : Nat, Spec J (do let _ ← onModule fun module ↦ module.addBlock fn (offsetLabel n)) (fun _ ↦ J) E :=
      fun n ↦ (spec_onModule fun u hu ↦ hnext u n hu).bind fun _ ↦ .pure fun _ hu ↦ hu
    have hinit : Spec J₀ (do let _ ← onModule fun module ↦ module.addBlock fn "init") (fun _ ↦ J) E :=
      (Spec.of_run (Q := fun _ ↦ J) (fun _ ↦ rfl) fun u hu ↦ hfirst u hu).bind fun _ ↦ .pure fun _ hu ↦ hu
    refine Spec.bind (Q := fun _ ↦ J) ?_ fun _ ↦ Spec.bind (Q := fun _ ↦ J) ?_ fun _ ↦ .pure fun _ hu ↦ hu
    · rw [hf]
      refine hinit.bind fun _ ↦ .forM fun name hname ↦ ?_
      obtain ⟨sp, -, rfl⟩ := List.mem_map.mp hname
      exact hadd sp.start
    · refine Spec.imp (Q := fun p u ↦ p.2.fn = fn ∧ J u) ?_ (fun _ h ↦ h) fun _ _ h ↦ h.2
      simp only [bind_assoc, pure_bind]
      refine (Safe.bind (safe_makeBuffer _) fun top ↦ .bind (.mapM fun p hp ↦ ?_) fun args ↦
        .bind (.mapM fun p _ ↦ ?_) fun locals ↦ .bind (.forM fun p _ ↦ ?_) fun _ ↦ ?_ : Safe J E fn _) _ hf
      · exact safe_bindArgument f (hargs _ _ hp)
      · exact safe_bindLocal htypes _ _
      · exact hblock _ rfl rfl _ _
      · exact Safe.bind (safe_emitAt 0 Instr.hinted_br) fun _ ↦ .pure _
  · exact .throw_bind h₀

end

theorem spec_lowerBody {world : Universe} {J₀ J E : CompilationUnit → Prop} {fn : FuncId} [Growable J E fn]
    [h₀ : Stable J₀ E] {compile : Method → Compile FuncId} {m : Method} {body : Body} {args : List Ty} {f : Function}
    (hf : f.id = fn) (htypes : ∀ t, Spec J (compileType world world.nestingLimit t) (fun _ ↦ J) E)
    (hmethods : ∀ id m, world.method? id = some m → Spec J (compile m) (fun _ ↦ J) E)
    (hfirst : ∀ u name, J₀ u → J { u with module := (u.module.addBlock fn name).1 })
    (hnext : ∀ u name, J u → J { u with module := (u.module.addBlock fn name).1 }) :
    Spec J₀ (lowerBody world compile m body args f) (fun _ ↦ J) E := by
  refine spec_lowerBodyWith (fun _ hu ↦ h₀.fails hu) hf htypes (fun _ _ _ _ ↦ Growable.safe_slotFor _ _)
    (fun u ↦ hfirst u "init") (fun u n ↦ hnext u (offsetLabel n)) fun site hworld hcompile number sp ↦ ?_
  have : Supports J E site := ⟨hworld ▸ htypes, hworld ▸ hcompile ▸ hmethods⟩
  exact safe_lowerTraced number sp

/-! ### Types -/

/-- Two units with the same functions, and with the same traced; types may have been compiled and layouts
learnt. -/
structure SameFunctions (u u' : CompilationUnit) : Prop where
  optimize : u'.optimize = u.optimize
  functions : u'.module.functions = u.module.functions
  liveFunctions : u'.module.liveFunctions = u.module.liveFunctions
  methods : u'.methods = u.methods
  tracing : u'.tracing = u.tracing
  tracer : u'.tracer = u.tracer
  traceParent : u'.traceParent = u.traceParent
  spans : u'.spans = u.spans
  rejections : u'.rejections = u.rejections
  learnt : ∃ m, Learnt m u.engine.layouts u'.engine.layouts

/-- The counterpart of a type that is no aggregate, where `K` has those of what addresses lead to. -/
inductive PlainCode (K : Ty → Ssa.Ty → Prop) : Ty → Ssa.Ty → Prop
  | void {t : Ty} : t.kind = .void → PlainCode K t .void
  | scalar {p : Prim} {c : Ssa.Ty} : scalarType? p = some c → PlainCode K (.prim p) c
  | bytes {t : Ty} : t.isAddress = true → t.elem.isVoid = true → PlainCode K t .bytePointer
  | address {t : Ty} {c : Ssa.Ty} : t.isAddress = true → t.elem.isByRef = false → t.elem.isVoid = false → K t.elem c →
      PlainCode K t (.pointer c)

def CompilationUnit.withPlain (u : CompilationUnit) (t : Ty) (c : Ssa.Ty) : CompilationUnit :=
  { u with types := (t, ⟨t, c, []⟩) :: u.types, journal := { u.journal with types := t :: u.journal.types } }

/-- A compilation of types that gives counterparts as `R` has them and keeps each property `J i`. -/
def GivesTypes {ι : Type} (J : ι → CompilationUnit → Prop) (R : Ty → Ssa.Ty → CompilationUnit → Prop)
    (E : CompilationUnit → Prop) (compile : Ty → Compile CompiledType) : Prop :=
  ∀ i t, Spec (J i) (compile t) (fun ct u ↦ R t ct.code u ∧ J i u) E

section

variable {world : Universe} {K : Ty → Ssa.Ty → Prop} {t : Ty} {c : Ssa.Ty}

theorem kind_of_isAddress (h : t.isAddress = true) : t.kind ≠ .valueType := fun hk ↦ by
  simp [Ty.isAddress, Ty.isByRef, Ty.isPointer, hk] at h

theorem PlainCode.kind_ne (h : PlainCode K t c) : t.kind ≠ .valueType := by
  cases h with
  | void hk => rw [hk]; decide
  | scalar => exact Kind.noConfusion
  | bytes ha => exact kind_of_isAddress ha
  | address ha => exact kind_of_isAddress ha

theorem PlainCode.isStruct (h : PlainCode K t c) : c.isStruct = false := by
  cases h with
  | @scalar p _ h => cases p <;> cases h <;> rfl
  | _ => rfl

theorem spec_compileMembers_keeps {J E : CompilationUnit → Prop} {compile : Ty → Compile CompiledType}
    (hcompile : ∀ t, Spec J (compile t) (fun _ ↦ J) E) (hfails : ∀ u, J u → E u) (owner : Ty) (fs : List Field) :
    Spec J (compileMembers compile owner fs) (fun _ ↦ J) E := by
  refine .mapM fun f _ ↦ (hcompile f.type).adapt.bind fun ct ↦ ?_
  split
  · exact .throw_bind hfails
  · exact .pure fun _ hu ↦ hu

/-- What holds through the registration of plain types and through the compilation of aggregates holds through that of
types. -/
theorem spec_compileType_of {ι : Type} {J : ι → CompilationUnit → Prop} {R : Ty → Ssa.Ty → CompilationUnit → Prop}
    {E : CompilationUnit → Prop} (hfails : ∀ {i u}, J i u → E u)
    (hknown : ∀ {i t ct u}, J i u → u.types.lookup t = some ct → R t ct.code u)
    (hmissing : ∀ {c u}, R .void c u → R .missing c u)
    (hplain : ∀ {i t c u v}, J i v → v.types.lookup t = none → PlainCode (R · · u) t c → J i u →
      R t c (u.withPlain t c) ∧ J i (u.withPlain t c))
    (haggregate : ∀ {fuel i t v}, GivesTypes J R E (compileType world fuel) → t.kind = .valueType →
    v.types.lookup t = none →
      J i v → Spec (· = v) (compileAggregate world (compileType world fuel) t) (fun ct u ↦ R t ct.code u ∧ J i u) E)
    (fuel : Nat) : GivesTypes J R E (compileType world fuel) := by
  induction fuel with
  | zero => exact fun _ _ ↦ .throw fun _ hu ↦ hfails hu
  | succ fuel ih =>
    intro i t
    rw [compileType]
    refine Spec.imp (Q := fun ct u ↦ R (if t = .missing then .void else t) ct.code u ∧ J i u) ?_ (fun _ hu ↦ hu)
      fun _ _ hu ↦ ⟨by split at hu; exacts [‹t = _› ▸ hmissing hu.1, hu.1], hu.2⟩
    generalize (if t = .missing then Ty.void else t) = t
    refine .of_get fun v ↦ ?_
    split
    · exact .pure fun u hu ↦ hu.1 ▸ ⟨hknown hu.2 ‹_›, hu.2⟩
    rename_i hl
    rintro v ⟨rfl, hv⟩
    have hremember : ∀ {c : Ssa.Ty}, Spec (fun u ↦ PlainCode (R · · u) t c ∧ J i u) (remember ⟨t, c, []⟩)
        (fun ct u ↦ R t ct.code u ∧ J i u) E := .of_run (fun _ ↦ rfl) fun u hu ↦ hplain hv hl hu.1 hu.2
    have hfixed : ∀ {c : Ssa.Ty}, (∀ K, PlainCode K t c) → Spec (J i) (remember ⟨t, c, []⟩)
        (fun ct u ↦ R t ct.code u ∧ J i u) E := fun hc ↦ hremember.imp (fun _ hu ↦ ⟨hc _, hu⟩) fun _ _ hu ↦ hu
    have haddress : t.isAddress = true → Spec (J i) (if t.elem.isByRef then throw (.unsupportedType t .doubleReference)
        else if t.elem.isVoid then remember ⟨t, .bytePointer, []⟩
        else do
          let elem ← compileType world fuel t.elem
          remember ⟨t, .pointer elem.code, []⟩) (fun ct u ↦ R t ct.code u ∧ J i u) E := by
      intro ha
      split
      · exact .throw fun _ hu ↦ hfails hu
      · rename_i hr
        split
        · exact hfixed fun _ ↦ .bytes ha ‹_›
        · refine (ih i t.elem).bind fun elem ↦ hremember.imp (fun u hu ↦ ⟨?_, hu.2⟩) fun _ _ hu ↦ hu
          exact .address ha (Bool.eq_false_iff.mpr hr) (Bool.eq_false_iff.mpr ‹_›) hu.1
    have hthrow : ∀ e, Spec (J i) (throw e) (fun (ct : CompiledType) u ↦ R t ct.code u ∧ J i u) E := fun _ ↦
      .throw fun _ hu ↦ hfails hu
    split
    · exact hfixed (fun _ ↦ .void ‹_›) v hv
    · exact haddress (by simp [Ty.isAddress, Ty.isByRef, *]) v hv
    · exact haddress (by simp [Ty.isAddress, Ty.isPointer, *]) v hv
    · exact hthrow _ v hv
    · exact hthrow _ v hv
    · split
      · rename_i code hcode
        obtain ⟨p, hp, hcode⟩ := Option.bind_eq_some_iff.mp hcode
        cases t <;> cases hp
        exact hfixed (fun _ ↦ .scalar hcode) v hv
      · exact hthrow _ v hv
    · exact haggregate ih ‹_› hl hv v rfl

end

/-- The property `J` of a unit is not about types. -/
class Typeless (J E : CompilationUnit → Prop) : Prop where
  fails : ∀ {u}, J u → E u
  compiled : ∀ {u u'}, J u → SameFunctions u u' → J u'
  abandoned : ∀ {u} (n : Nat), E u → E { u with building := n }

section

variable {world : Universe} {J E : CompilationUnit → Prop} [hJ : Typeless J E]

instance Typeless.steady : Steady J E where
  fails := hJ.fails
  still hu hs :=
    hJ.compiled hu ⟨hs.optimize,
    by rw [hs.module], by rw [hs.module], hs.methods, hs.tracing, hs.tracer, hs.traceParent,
    hs.spans, hs.rejections, _, hs.layouts⟩

include hJ

theorem Typeless.spec_remember (ct : CompiledType) : Spec J (remember ct) (fun _ ↦ J) E :=
  Spec.bind (Q := fun _ ↦ J) (.modify fun u hu ↦ hJ.compiled hu ⟨rfl, rfl, rfl, rfl, rfl, rfl, rfl, rfl, rfl, u.module,
  .nothing⟩) fun _ ↦ .pure fun _ hu ↦ hu

theorem Typeless.spec_newStruct (base : String) : Spec J (newStruct base) (fun _ ↦ J) E := by
  refine .of_get fun v ↦ .forget fun hv ↦ Spec.bind (Q := fun _ ↦ J) (.set fun u _ ↦ ?_) fun _ ↦ .pure fun _ hu ↦ hu
  refine hJ.compiled hv ⟨rfl, ?_, ?_, rfl, rfl, rfl, rfl, rfl, rfl, v.module, .nothing⟩ <;>
  · dsimp only [Module.namedStruct]
    split <;> rfl

theorem Typeless.spec_compileAggregate {compile : Ty → Compile CompiledType}
    (hcompile : ∀ t, Spec J (compile t) (fun _ ↦ J) E) (t : Ty) :
    Spec J (compileAggregate world compile t) (fun _ ↦ J) E := by
  have hbuilding : ∀ f : Nat → Nat, Spec J (modify fun u ↦ { u with building := f u.building }) (fun _ ↦ J) E := fun f ↦
    .modify fun u hu ↦ hJ.compiled hu ⟨rfl, rfl, rfl, rfl, rfl, rfl, rfl, rfl, rfl, u.module, .nothing⟩
  unfold compileAggregate
  split
  · exact .throw_bind fun _ hu ↦ hJ.fails hu
  refine (hJ.spec_newStruct _).bind fun st ↦ (hJ.spec_remember _).bind fun ct ↦ (hbuilding (· + 1)).bind fun _ ↦ ?_
  refine ((spec_compileMembers_keeps hcompile (fun _ hu ↦ hJ.fails hu) t _).abandoning fun hu ↦ hJ.abandoned _ hu).bind
    fun body ↦ (hbuilding (· - 1)).bind fun _ ↦ .of_get fun v ↦ .forget fun hv ↦ ?_
  split
  · exact .throw_bind fun _ hu ↦ hJ.fails hu
  · rename_i module hset
    refine Spec.bind (Q := fun _ ↦ J) (.set fun u _ ↦ ?_) fun _ ↦ spec_layOut
      (fun _ hu ↦ hJ.compiled hu ⟨rfl, rfl, rfl, rfl, rfl, rfl, rfl, rfl, rfl, _, .asked _ .nothing⟩) (fun _ hu ↦ hu)
      fun _ hu ↦ hJ.fails hu
    have hfunctions : module.functions = v.module.functions ∧ module.liveFunctions = v.module.liveFunctions := by
      cases st with
      | struct id name =>
        simp only [Module.setBody] at hset
        split at hset
        · cases hset
        · cases hset
          exact ⟨rfl, rfl⟩
      | _ => cases hset
    exact hJ.compiled hv ⟨rfl, hfunctions.1, hfunctions.2, rfl, rfl, rfl, rfl, rfl, rfl, v.module, .nothing⟩

theorem Typeless.spec_compileType (fuel : Nat) (t : Ty) : Spec J (compileType world fuel t) (fun _ ↦ J) E :=
  (spec_compileType_of (J := fun _ : Unit ↦ J) (R := fun _ _ _ ↦ True) hJ.fails (fun _ _ ↦ trivial) (fun _ ↦ trivial)
    (fun {_ _ _ u _} _ _ _ hu ↦ ⟨trivial, hJ.compiled hu ⟨rfl, rfl, rfl, rfl, rfl, rfl, rfl, rfl, rfl,
    u.module, .nothing⟩⟩)
    (fun {_ _ _ _} hcompile _ _ hv ↦
      (hJ.spec_compileAggregate (fun t ↦ (hcompile () t).imp (fun _ hu ↦ hu) fun _ _ hu ↦ hu.2) _).imp
      (fun _ hu ↦ hu ▸ hv) fun _ _ hu ↦ ⟨trivial, hu⟩) fuel () t).imp (fun _ hu ↦ hu) fun _ _ hu ↦ hu.2

end

section

variable {world : Universe} {J E : CompilationUnit → Prop}

theorem spec_argumentTypes_keeps (hfails : ∀ u, J u → E u) (m : Method) : Spec J (argumentTypes m) (fun _ ↦ J) E := by
  unfold argumentTypes
  dsimp only
  split
  · split
    · exact .pure fun _ hu ↦ hu
    · exact .throw hfails
  · exact .pure fun _ hu ↦ hu

/-- What holds through the compilation of types holds through that of a signature. -/
theorem spec_signature_keeps (hfails : ∀ u, J u → E u) (hcode : ∀ t, Spec J (codeType world t) (fun _ ↦ J) E)
    (m : Method) (args : List Ty) : Spec J (signature world m args) (fun _ ↦ J) E := by
  unfold signature
  refine (Spec.mapM fun p _ ↦ ?_).bind fun params ↦ (hcode _).adapt.bind fun ret ↦ .pure fun _ hu ↦ hu
  refine (hcode _).adapt.bind fun code ↦ ?_
  split
  · exact .throw_bind hfails
  · exact .pure fun _ hu ↦ hu

theorem Typeless.spec_signature [hJ : Typeless J E] (m : Method) (args : List Ty) :
    Spec J (signature world m args) (fun _ ↦ J) E :=
  spec_signature_keeps (fun _ hu ↦ hJ.fails hu)
    (fun t ↦ (hJ.spec_compileType _ t).bind fun _ ↦ .pure fun _ hu ↦ hu) m args

theorem Typeless.spec_argumentTypes [hJ : Typeless J E] (m : Method) : Spec J (argumentTypes m) (fun _ ↦ J) E :=
  spec_argumentTypes_keeps (fun _ hu ↦ hJ.fails hu) m

end

end CilSsa.Lowering

