import CilSsa.Proofs.BlockDiscovery
import CilSsa.Proofs.CoreLowering

namespace CilSsa.Lowering

open CilSsa.Bytecode CilSsa.Metadata CilSsa.SlotMachine
open CilSsa.Number (pattern)
open CilSsa.Ssa (FuncId Function Value)
open CilSsa.StackMachine (Outcome State exec knows)

section

variable {α : Type} {a : α} {u u' : CompilationUnit} {site : Site} {s s' : Stage}

theorem Compiles.adapt_iff {c : Compile α} {f : CompileError → CompileError} :
    Compiles (ExceptT.adapt f c : Compile α) u a u' ↔ Compiles c u a u' := by
  unfold Compiles
  change (((c.run.run u).1.mapError f, (c.run.run u).2) = _) ↔ _
  rcases c.run.run u with ⟨_ | b, u₁⟩
  · constructor <;> (intro h; cases h)
  · constructor <;> (intro h; cases h; rfl)

theorem Compiles.failing_iff {c : Compile α} {span : Trace.Span} :
    Compiles (failing span c) u a u' ↔ Compiles c u a u' := by
  have hrun : (failing span c).run.run u = (ExceptT.tryCatch c fun e ↦ do
      endSpan span e.message true
      throw e).run.run u := rfl
  unfold Compiles
  rw [hrun, ExceptT.tryCatch, ExceptT.run_mk, StateT.run_bind]
  change _ ↔ StateT.run c u = _
  rcases StateT.run c u with ⟨_ | b, u₁⟩
  · constructor <;> (intro h; cases h)
  · exact Iff.rfl

theorem Compiles.inside_iff {c : Compile α} {span : Trace.Span} : Compiles (inside span c) u a u' ↔
    ∃ v, Compiles c { u with spans := span.id :: u.spans } a v ∧ u' = { v with spans := v.spans.tail } := by
  have hrun : (inside span c).run.run u = ((c.run.run { u with spans := span.id :: u.spans }).1,
      { (c.run.run { u with spans := span.id :: u.spans }).2 with
        spans := (c.run.run { u with spans := span.id :: u.spans }).2.spans.tail }) := rfl
  unfold Compiles
  rw [hrun]
  rcases c.run.run { u with spans := span.id :: u.spans } with ⟨r, v⟩
  constructor
  · intro h
    cases h
    exact ⟨v, rfl, rfl⟩
  · rintro ⟨_, h, rfl⟩
    cases h
    rfl

theorem Lowers.during_iff {c : Lower Unit} {i : Instruction} {x : Unit} :
    Lowers (during i c) site s u x s' u' ↔ Lowers c site s u x s' u' := Compiles.adapt_iff

end

def afterwards (code : List Instruction) (m : Nat) : Outcome → Option Int32
  | .running st => StackMachine.run code m st
  | .returned r => some r

/-- From one state on the stack machine has an outcome after `n` steps. -/
def Leads (code : List Instruction) (st : State) (n : Nat) (o : Outcome) : Prop :=
  ∀ m, StackMachine.run code (n + m) st = afterwards code m o

theorem leads_refl (code : List Instruction) (st : State) : Leads code st 0 (.running st) := by
  intro m
  rw [Nat.zero_add]
  rfl

theorem leads_step {code : List Instruction} {st : State} {i : Instruction} {o : Outcome}
    (hi : code.find? (fun j ↦ j.offset = st.pc) = some i) (ho : exec i st = some o) : Leads code st 1 o := by
  intro m
  rw [Nat.add_comm, StackMachine.run, StackMachine.step, hi, Option.bind_some, ho]
  cases o <;> rfl

theorem Leads.trans {code : List Instruction} {st st' : State} {n n' : Nat} {o : Outcome}
    (h : Leads code st n (.running st')) (h' : Leads code st' n' o) : Leads code st (n + n') o := by
  intro m
  rw [Nat.add_assoc, h]
  exact h' m

section

variable {plan : Plan} {fill fn : FuncId} {site : Site} {u u' : CompilationUnit} {F : Function} {s s' : Stage}
  {b start : Nat} {code : List Instruction}

theorem lowerLine_code {is : List Instruction} {x : PUnit} (h : Coding fill fn u F)
    (he : Lowers (is.forM fun i ↦ during i (lower start i)) site s u x s' u') (hsite : Planned plan fn site)
    (ht : Tidy plan fn b start s) (hknown : ∀ i ∈ is, knows i.op = true) (hon : ∀ i ∈ is, i.endsBlock = false) :
    Tidy plan fn b start s' ∧ Toward start s s' ∧ ∃ F', Growth fill fn b u F u' F' ∧
      ∀ {args E σ₀ σ} {st : State} {stop : Nat}, Before E start s' → Runs F fill args b σ₀ σ →
        Rep plan fn args E start s σ st.stack st.args st.locals → Chain st.pc is stop →
        (∀ i ∈ is, code.find? (fun j ↦ j.offset = i.offset) = some i) →
        ∃ st' σ', Leads code st is.length (.running st') ∧ st'.pc = stop ∧ Runs F' fill args b σ₀ σ' ∧
          Later plan.slots σ σ' ∧ Rep plan fn args E start s' σ' st'.stack st'.args st'.locals := by
  induction is generalizing s u F with
  | nil =>
    rw [List.forM, Lowers.pure_iff] at he
    obtain ⟨-, rfl, rfl⟩ := he
    refine ⟨ht, .refl start s, F, .refl h b, ?_⟩
    intro args E σ₀ σ st stop _ hr hrep hchain _
    cases hchain
    exact ⟨st, σ, leads_refl code st, rfl, hr, .refl _ _, hrep⟩
  | cons i is ih =>
    rw [List.forM, Lowers.bind_iff] at he
    obtain ⟨_, _, _, he₁, he₂⟩ := he
    rw [List.forall_mem_cons] at hknown hon
    obtain ⟨hexec, hgoes, -⟩ := action_known i hknown.1
    obtain ⟨ht₁, htoward₁, F₁, hg₁, hrun₁⟩ :=
      lower_goesOn h (Lowers.during_iff.mp he₁) hsite ht (by rw [hgoes, hon.1]; rfl)
    obtain ⟨ht₂, htoward₂, F₂, hg₂, hrun₂⟩ := ih hg₁.coding he₂ ht₁ hknown.2 hon.2
    refine ⟨ht₂, htoward₁.trans htoward₂, F₂, hg₁.trans hg₂, ?_⟩
    intro args E σ₀ σ st stop hE hr hrep hchain hfind
    rw [List.forall_mem_cons] at hfind
    cases hchain with
    | cons ho hpos hchain =>
      obtain ⟨st₁, σ₁, hperform, hpc, hr₁, hl₁, hrep₁⟩ := hrun₁ (htoward₂ E hE) hr hrep
      rw [← hpc] at hchain
      obtain ⟨st₂, σ₂, hleads, hpc₂, hr₂, hl₂, hrep₂⟩ := hrun₂ hE hr₁ hrep₁ hchain hfind.2
      refine ⟨st₂, σ₂, ?_, hpc₂, hr₂, hl₁.trans hl₂, hrep₂⟩
      rw [List.length_cons, Nat.add_comm]
      exact (leads_step (by rw [← ho]; exact hfind.1) ((hexec st).trans hperform)).trans hleads

def Known (E : List (Nat × List Ty)) (s : Stage) : Prop := ∀ o ts, s.entries.lookup o = some ts → E.lookup o = some ts

/-- What is true between blocks. -/
structure Ready (fn : FuncId) (s : Stage) : Prop where
  own : s.fn = fn
  entries : ∀ p ∈ s.entries, ∀ t ∈ p.2, t = int32

/-- The state of the stack machine at the start of a block is in the store, with the whole stack in the buffer. Nothing
is computed yet by instructions from number `base` on. -/
structure Entered (plan : Plan) (base : Nat) (E : List (Nat × List Ty)) (sp : Bytecode.Span) (σ : Store) (st : State) :
    Prop where
  pc : st.pc = sp.start
  stored : Stored plan σ st.stack st.args st.locals
  depth : ∃ ts, E.lookup sp.start = some ts ∧ ts.length = st.stack.length
  fresh : ∀ k, base ≤ k → σ.values k = none ∧ σ.slots k = none

def Inside (spans : List Bytecode.Span) (o : Outcome) : Prop := ∀ st, o = .running st → ∃ sp ∈ spans, sp.start = st.pc

def Jumps (spans : List Bytecode.Span) (sp : Bytecode.Span) : Prop :=
  ∀ i ∈ sp.instrs, i.endsBlock = true → ∀ st o, exec i st = some o → Inside spans o

def Simulates (plan : Plan) (base : Nat) (E : List (Nat × List Ty)) (spans : List Bytecode.Span)
    (code : List Instruction) (fill : FuncId) (F : Function) (b : Nat) (sp : Bytecode.Span) : Prop :=
  ∀ args σ₀ st, Entered plan base E sp σ₀ st →
    ∃ n o σ' B, 0 < n ∧ Leads code st n o ∧ Inside spans o ∧ F.blocks[b]? = some B ∧ Later plan.slots σ₀ σ' ∧
      Exits plan E spans F fill args B.instrs σ₀ σ' o

def opened (s : Stage) (number start : Nat) : Stage :=
  { s with
    block := number, pending := [], entry := ((s.entries.lookup start).getD []).reverse,
    inferring := (s.entries.lookup start).isNone, inferred := [] }

theorem opened_tidy (h : Ready fn s) (number start : Nat) : Tidy plan fn number start (opened s number start) := by
  refine ⟨h.own, rfl, nofun, ?_, nofun, h.entries, ?_⟩
  · intro t ht
    cases hl : s.entries.lookup start with
    | none => simp [opened, hl] at ht
    | some ts =>
      obtain ⟨l₁, l₂, heq, -⟩ := List.lookup_eq_some_iff.mp hl
      exact h.entries (start, ts) (by rw [heq]; simp) t (by simpa [opened, hl] using ht)
  · intro hi
    have hl : s.entries.lookup start = none := by simpa [opened] using hi
    exact ⟨by simp [opened, hl], hl⟩

theorem opened_rep {args : List UInt64} {E : List (Nat × List Ty)} {base : Nat} {σ : Store} {st : State}
    {sp : Bytecode.Span} (hE : Known E s) (h : Entered plan base E sp σ st) (number : Nat) :
    Rep plan fn args E sp.start (opened s number sp.start) σ st.stack st.args st.locals := by
  refine ⟨[], st.stack, rfl, .nil, h.stored, ?_⟩
  obtain ⟨ts, hts, hlen⟩ := h.depth
  cases hl : s.entries.lookup sp.start with
  | none => simpa [Depth, opened, hl] using ⟨ts, hts, hlen.symm⟩
  | some ts' =>
    obtain rfl := Option.some.inj (hts.symm.trans (hE _ _ hl))
    simp [Depth, opened, hl, hlen]

theorem Lowers.forM_snoc {α : Type} {f : α → Lower PUnit} {as : List α} {a : α} {x : PUnit}
    (he : Lowers ((as ++ [a]).forM f) site s u x s' u') :
    ∃ x₁ s₁ u₁, Lowers (as.forM f) site s u x₁ s₁ u₁ ∧ Lowers (f a) site s₁ u₁ x s' u' := by
  induction as generalizing s u with
  | nil =>
    simp only [List.nil_append, List.forM, Lowers.bind_iff, Lowers.pure_iff] at he
    obtain ⟨_, _, _, he, -, rfl, rfl⟩ := he
    exact ⟨⟨⟩, s, u, Lowers.pure_iff.mpr ⟨rfl, rfl, rfl⟩, he⟩
  | cons c as ih =>
    rw [List.cons_append, List.forM, Lowers.bind_iff] at he
    obtain ⟨x₀, s₀, u₀, he₀, he⟩ := he
    obtain ⟨x₁, s₁, u₁, he₁, he⟩ := ih he
    exact ⟨x₁, s₁, u₁, Lowers.bind_iff.mpr ⟨x₀, s₀, u₀, he₀, he₁⟩, he⟩

def Completes (plan : Plan) (code : List Instruction) (fill fn : FuncId) (b : Nat) (sp : Bytecode.Span)
    (spans : List Bytecode.Span) (s : Stage) (u : CompilationUnit) (F : Function) (s' : Stage) (u' : CompilationUnit) :
    Prop :=
  Tidy plan fn b sp.start s' ∧ Toward sp.start s s' ∧ ∃ F', Growth fill fn b u F u' F' ∧
    ∀ {args E σ₀} {st : State}, Before E sp.start s' → Runs F fill args b σ₀ σ₀ →
      Rep plan fn args E sp.start s σ₀ st.stack st.args st.locals → st.pc = sp.start →
      ∃ n o σ' B, 0 < n ∧ Leads code st n o ∧ Inside spans o ∧ F'.blocks[b]? = some B ∧ Later plan.slots σ₀ σ' ∧
        Exits plan E spans F' fill args B.instrs σ₀ σ' o

variable {sp : Bytecode.Span} {x : Unit}

theorem fallsThrough_code {y : PUnit} {s₁ : Stage} {u₁ : CompilationUnit} (h : Coding fill fn u F)
    (he₁ : Lowers (sp.instrs.forM fun i ↦ during i (lower sp.start i)) site s u y s₁ u₁)
    (he₂ : Lowers (do
      flush sp.start [sp.stop]
      let _ ← emit (.br (some (← blockAt sp.stop))) : Lower Unit) site s₁ u₁ x s' u')
    (hsite : Planned plan fn site) (ht : Tidy plan fn b sp.start s) (hsp : Tiles site.spans sp)
    (hfalls : sp.fallsThrough = true) (hknown : ∀ i ∈ sp.instrs, knows i.op = true)
    (hfind : ∀ i ∈ sp.instrs, code.find? (fun j ↦ j.offset = i.offset) = some i) :
    Completes plan code fill fn b sp site.spans s u F s' u' := by
  obtain ⟨init, last, hinstrs, hinit, hlast⟩ := hsp.ends
  have hon : ∀ i ∈ sp.instrs, i.endsBlock = false := by
    intro i hi
    rw [hinstrs, List.mem_append, List.mem_singleton] at hi
    rcases hi with hi | rfl
    · exact hinit i hi
    · rw [hlast, hfalls]
      rfl
  obtain ⟨ht₁, htoward₁, F₁, hg₁, hrun₁⟩ := lowerLine_code h he₁ hsite ht hknown hon
  obtain ⟨ht₂, htoward₂, F₂, hg₂, hrun₂⟩ := jump_code hg₁.coding he₂ hsite ht₁
  refine ⟨ht₂, htoward₁.trans htoward₂, F₂, hg₁.trans hg₂, ?_⟩
  intro args E σ₀ st hE hr hrep hpc
  obtain ⟨st₁, σ₁, hleads, hpc₁, hr₁, hl₁, hrep₁⟩ :=
    hrun₁ (htoward₂ E hE) hr hrep (by rw [hpc]; exact hsp.chain) hfind
  obtain ⟨σ₂, B, hB, hl₂, hexit⟩ := hrun₂ hE hr₁ hrep₁
  refine ⟨_, .running st₁, σ₂, B, ?_, hleads, ?_, hB, hl₁.trans hl₂, ?_⟩
  · rw [hinstrs]
    simp
  · rintro _ ⟨⟩
    rw [hpc₁]
    exact hsp.falls hfalls
  · rw [← hpc₁] at hexit
    exact hexit

theorem terminated_code {y : PUnit} (h : Coding fill fn u F)
    (he : Lowers (sp.instrs.forM fun i ↦ during i (lower sp.start i)) site s u y s' u')
    (hsite : Planned plan fn site) (ht : Tidy plan fn b sp.start s) (hsp : Tiles site.spans sp)
    (hjumps : Jumps site.spans sp) (hfalls : sp.fallsThrough = false) (hknown : ∀ i ∈ sp.instrs, knows i.op = true)
    (hfind : ∀ i ∈ sp.instrs, code.find? (fun j ↦ j.offset = i.offset) = some i) :
    Completes plan code fill fn b sp site.spans s u F s' u' := by
  obtain ⟨init, last, hinstrs, hinit, hlast⟩ := hsp.ends
  have hchain := hsp.chain
  have hinside := hjumps last (by rw [hinstrs]; simp) (by rw [hlast, hfalls]; rfl)
  rw [hinstrs] at he hknown hfind hchain
  rw [List.forall_mem_append] at hknown hfind
  obtain ⟨_, _, _, he₁, he₂⟩ := Lowers.forM_snoc he
  obtain ⟨ht₁, htoward₁, F₁, hg₁, hrun₁⟩ := lowerLine_code h he₁ hsite ht hknown.1 hinit
  obtain ⟨hexec, -, hleaves⟩ := action_known last (hknown.2 last List.mem_cons_self)
  obtain ⟨ht₂, htoward₂, F₂, hg₂, hrun₂⟩ :=
    lower_ends hg₁.coding (Lowers.during_iff.mp he₂) hsite ht₁ (by rw [hleaves, hlast, hfalls]; rfl)
  refine ⟨ht₂, htoward₁.trans htoward₂, F₂, hg₁.trans hg₂, ?_⟩
  intro args E σ₀ st hE hr hrep hpc
  obtain ⟨mid, hchain₁, hchain₂⟩ := hchain.split
  obtain ⟨st₁, σ₁, hleads, hpc₁, hr₁, hl₁, hrep₁⟩ :=
    hrun₁ (htoward₂ E hE) hr hrep (by rw [hpc]; exact hchain₁) hfind.1
  obtain ⟨o, σ₂, B, ho, hB, hl₂, hexit⟩ := hrun₂ hE hr₁ hrep₁
  refine ⟨_, o, σ₂, B, Nat.succ_pos _, hleads.trans (leads_step ?_ ((hexec st₁).trans ho)),
    hinside st₁ o ((hexec st₁).trans ho), hB, hl₁.trans hl₂, hexit⟩
  cases hchain₂ with
  | cons hoffset =>
    rw [hpc₁, ← hoffset]
    exact hfind.2 last List.mem_cons_self

theorem lowerBlock_code {base number : Nat} {B : Ssa.Block} (h : Coding fill fn u F)
    (he : Lowers (lowerBlock number sp) site s u x s' u') (hsite : Planned plan fn site) (hs : Ready fn s)
    (hsp : Tiles site.spans sp) (hjumps : Jumps site.spans sp) (hknown : ∀ i ∈ sp.instrs, knows i.op = true)
    (hfind : ∀ i ∈ sp.instrs, code.find? (fun j ↦ j.offset = i.offset) = some i)
    (hB : F.blocks[number]? = some B) (hempty : B.instrs = []) (hbase : base ≤ F.instrs.size) :
    Ready fn s' ∧ (∀ E, Known E s' → Known E s) ∧ ∃ F', Growth fill fn number u F u' F' ∧
      ∀ {E}, Known E s' → Simulates plan base E site.spans code fill F' number sp := by
  unfold lowerBlock at he
  simp only [Lowers.bind_iff, Lowers.modifyThe_iff] at he
  obtain ⟨_, _, _, ⟨rfl, rfl⟩, _, s₁, u₁, he₁, he₂⟩ := he
  obtain ⟨init, last, hinstrs, -, -⟩ := hsp.ends
  have hgetLast : sp.instrs.getLast? = some last := by
    rw [hinstrs, List.getLast?_append]
    rfl
  have ht : Tidy plan fn number sp.start (opened s number sp.start) := opened_tidy hs number sp.start
  -- either way the block is complete, and then its entry is settled
  have hdone : ∃ s₂ u₂, Completes plan code fill fn number sp site.spans (opened s number sp.start) u F s₂ u₂ ∧
      Emits (settleEntry sp.start) s₂ u₂ x s' u' := by
    cases hfalls : sp.fallsThrough with
    | false =>
      simp only [hfalls] at he₂
      exact ⟨s₁, u₁, terminated_code h he₁ hsite ht hsp hjumps hfalls hknown hfind, Lowers.emit_iff.mp he₂⟩
    | true =>
      simp only [hfalls, hgetLast, Lowers.bind_iff, Lowers.during_iff] at he₂
      obtain ⟨_, _, _, he₃, _, _, _, he₄, _, s₂, u₂, he₅, he₆⟩ := he₂
      refine ⟨s₂, u₂, fallsThrough_code (x := ()) h he₁ ?_ hsite ht hsp hfalls hknown hfind, Lowers.emit_iff.mp he₆⟩
      simp only [Lowers.bind_iff, Lowers.pure_iff]
      exact ⟨_, _, _, he₃, _, _, _, he₄, _, _, _, he₅, trivial, rfl, rfl⟩
  obtain ⟨s₂, u₂, ⟨ht₂, htoward₂, F', hg, hrun⟩, hsettle⟩ := hdone
  obtain ⟨rfl, -, -, hi, ht₃, htoward₃, -⟩ := settleEntry_code hsettle ht₂
  have hbefore : ∀ {E}, Known E s' → Before E sp.start s' := fun hE ↦ ⟨hE, by simp [hi]⟩
  have hknown' : ∀ E, Known E s' → Known E s := fun E hE ↦ (htoward₂.trans htoward₃ E (hbefore hE)).entries
  refine ⟨⟨ht₃.own, ht₃.entries⟩, hknown', F', hg, ?_⟩
  intro E hE args σ₀ st hst
  have hline : Runs F fill args number σ₀ σ₀ :=
    ⟨⟨B, hB, by rw [hempty]; exact .nil⟩, fun k hk ↦ hst.fresh k (Nat.le_trans hbase hk)⟩
  exact hrun (htoward₃ E (hbefore hE)) hline (opened_rep (hknown' E hE) hst number) hst.pc

theorem beginSpan_unit {scope : Trace.Scope} {name : String} {span : Trace.Span}
    (hc : Compiles (beginSpan scope name) u span u') : ∃ t, u' = { u with tracing := t } := by
  unfold beginSpan at hc
  simp only [Compiles.bind_iff, Compiles.get_iff, Compiles.set_iff, Compiles.pure_iff] at hc
  obtain ⟨_, _, ⟨rfl, rfl⟩, _, _, rfl, rfl, rfl⟩ := hc
  exact ⟨_, rfl⟩

theorem endSpan_unit {span : Trace.Span} {detail : String} {failed : Bool} {x : Unit}
    (hc : Compiles (endSpan span detail failed) u x u') : ∃ t, u' = { u with tracing := t } := by
  unfold endSpan at hc
  rw [Compiles.modify_iff] at hc
  exact ⟨_, hc.symm⟩

theorem lowerBlock_of_traced {number : Nat} (he : Lowers (lowerTraced number sp) site s u x s' u') :
    ∃ t u₁ t', Lowers (lowerBlock number sp) site s { u with tracing := t } x s' u₁ ∧
    u' = { u₁ with tracing := t' } := by
  obtain ⟨span, _, hc₁, hc⟩ := Compiles.bind_iff.mp he
  obtain ⟨⟨_, _⟩, _, hc₂, hc⟩ := Compiles.bind_iff.mp hc
  obtain ⟨_, _, hc₃, hc⟩ := Compiles.bind_iff.mp hc
  obtain ⟨hret, rfl⟩ := Compiles.pure_iff.mp hc
  cases hret
  obtain ⟨t, rfl⟩ := beginSpan_unit hc₁
  obtain ⟨t', rfl⟩ := endSpan_unit hc₃
  exact ⟨t, _, t', Compiles.failing_iff.mp hc₂, rfl⟩

theorem Coding.traced (h : Coding fill fn u F) (b : Nat) (t : Trace.Tracing) :
    Growth fill fn b u F { u with tracing := t } F :=
  ⟨⟨h.found, h.id, h.numbered, h.layouts, h.int32, h.filler, h.callee⟩, ⟨.refl fn _, rfl, rfl, rfl, rfl, rfl, rfl, rfl⟩,
    .refl _ F⟩

theorem lowerTraced_code {base number : Nat} {B : Ssa.Block} (h : Coding fill fn u F)
    (he : Lowers (lowerTraced number sp) site s u x s' u') (hsite : Planned plan fn site) (hs : Ready fn s)
    (hsp : Tiles site.spans sp) (hjumps : Jumps site.spans sp) (hknown : ∀ i ∈ sp.instrs, knows i.op = true)
    (hfind : ∀ i ∈ sp.instrs, code.find? (fun j ↦ j.offset = i.offset) = some i)
    (hB : F.blocks[number]? = some B) (hempty : B.instrs = []) (hbase : base ≤ F.instrs.size) :
    Ready fn s' ∧ (∀ E, Known E s' → Known E s) ∧ ∃ F', Growth fill fn number u F u' F' ∧
      ∀ {E}, Known E s' → Simulates plan base E site.spans code fill F' number sp := by
  obtain ⟨t, _, t', hc, rfl⟩ := lowerBlock_of_traced he
  have hg := h.traced number t
  obtain ⟨hs', hknown', F', hg', hsim⟩ := lowerBlock_code hg.coding hc hsite hs hsp hjumps hknown hfind hB hempty hbase
  exact ⟨hs', hknown', F', (hg.trans hg').trans (hg'.coding.traced number t'), hsim⟩

end

section

variable {fill : FuncId} {F F' : Function}

theorem Grown.simulates {plan : Plan} {base b : Nat} {kept : Nat → Prop} {E : List (Nat × List Ty)}
    {spans : List Bytecode.Span} {code : List Instruction} {sp : Bytecode.Span} (hg : Grown kept F F') (hb : kept b)
    (h : Simulates plan base E spans code fill F b sp) : Simulates plan base E spans code fill F' b sp := by
  intro args σ₀ st hst
  obtain ⟨n, o, σ', B, hn, hleads, hinside, hB, hl, hexit⟩ := h args σ₀ st hst
  refine ⟨n, o, σ', B, hn, hleads, hinside, (hg.blocks b hb).trans hB, hl, ?_⟩
  cases hexit with
  | goto hblock hst hts hlen => exact .goto (hg.block hblock) hst hts hlen
  | done hblock => exact .done (hg.block hblock)

end

section

variable {plan : Plan} {fill fn : FuncId} {site : Site} {u u' : CompilationUnit} {F : Function} {s s' : Stage}
  {code : List Instruction} {base : Nat}

theorem lowerBlocks_code {rest : List Bytecode.Span} {k : Nat} {x : PUnit} (h : Coding fill fn u F)
    (he : Emits ((rest.zipIdx k).forM fun p ↦ lowerTraced (p.2 + 1) p.1 site) s u x s' u')
    (hsite : Planned plan fn site) (hs : Ready fn s) (hrest : ∀ sp ∈ rest, Tiles site.spans sp)
    (hjumps : ∀ sp ∈ rest, Jumps site.spans sp) (hknown : ∀ sp ∈ rest, ∀ i ∈ sp.instrs, knows i.op = true)
    (hfind : ∀ sp ∈ rest, ∀ i ∈ sp.instrs, code.find? (fun j ↦ j.offset = i.offset) = some i)
    (hempty : ∀ b, k < b → b ≤ k + rest.length → ∃ B, F.blocks[b]? = some B ∧ B.instrs = [])
    (hbase : base ≤ F.instrs.size) :
    (∀ E, Known E s' → Known E s) ∧ s'.fn = fn ∧ ∃ F', Coding fill fn u' F' ∧ Apart fn u u' ∧
    Grown (fun c ↦ c ≤ k) F F' ∧
      ∀ {E}, Known E s' → ∀ j sp, rest[j]? = some sp → Simulates plan base E site.spans code fill F'
      (k + j + 1) sp := by
  induction rest generalizing k s u F with
  | nil =>
    rw [List.zipIdx_nil, List.forM, Emits.pure_iff] at he
    obtain ⟨-, rfl, rfl⟩ := he
    exact ⟨fun _ hE ↦ hE, hs.own, F, h, .refl fn u, .refl _ F, by simp⟩
  | cons sp rest ih =>
    rw [List.zipIdx_cons, List.forM, Emits.bind_iff] at he
    obtain ⟨_, s₁, u₁, he₁, he₂⟩ := he
    rw [List.forall_mem_cons] at hrest hjumps hknown hfind
    obtain ⟨B, hB, hBe⟩ := hempty (k + 1) (by omega) (by rw [List.length_cons]; omega)
    obtain ⟨hs₁, hknown₁, F₁, hg₁, hsim₁⟩ :=
      lowerTraced_code h he₁ hsite hs hrest.1 hjumps.1 hknown.1 hfind.1 hB hBe hbase
    obtain ⟨hknown₂, hfn, F₂, hcoding, hapart, hgrown, hsim₂⟩ :=
      ih hg₁.coding he₂ hs₁ hrest.2 hjumps.2 hknown.2 hfind.2 (fun b hlt hle ↦ by
        rw [hg₁.grows.blocks b (by omega)]
        exact hempty b (by omega) (by rw [List.length_cons]; omega)) (Nat.le_trans hbase hg₁.grows.size)
    refine ⟨fun E hE ↦ hknown₁ E (hknown₂ E hE), hfn, F₂, hcoding, hg₁.apart.trans hapart,
      hg₁.grows.trans hgrown fun c hc ↦ ⟨by omega, by omega⟩, ?_⟩
    intro E hE j sp' hj
    cases j with
    | zero =>
      cases hj
      exact hgrown.simulates (Nat.le_refl _) (hsim₁ (hknown₂ E hE))
    | succ j =>
      have hnum : k + (j + 1) + 1 = k + 1 + j + 1 := by omega
      rw [hnum]
      exact hsim₂ hE j sp' hj

end

theorem exec_branch {i : Instruction} {st st' : State} (hknown : knows i.op = true) (hends : i.endsBlock = true)
    (h : exec i st = some (.running st')) :
    i.isShortBranch = true ∧ (st'.pc = i.target.toNat ∨ st'.pc = i.next ∧ i.op.flow = .condBranch) := by
  obtain ⟨hexec, -, hleaves⟩ := action_known i hknown
  have hknown := ends_known i hknown hends
  rw [hexec] at h
  rw [hends] at hleaves
  have hpc : ∀ (t : Bool) (stack : List Int32), StackMachine.branch i st t stack = .running st' →
      st'.pc = i.target.toNat ∨ st'.pc = i.next := by
    rintro t stack ⟨⟩
    cases t
    · exact .inr rfl
    · exact .inl rfl
  cases hact : action i <;> rw [hact] at h hleaves hknown <;> try cases hleaves
  case ret =>
    simp only [perform] at h
    split at h <;> cases h
  case jump =>
    cases h
    exact ⟨hknown.resolve_left (by simp) |>.1, .inl rfl⟩
  case jumpIf want =>
    simp only [perform, StackMachine.branchIf] at h
    split at h
    · obtain ⟨hbranch, hflow⟩ := hknown.resolve_left (by simp)
      exact ⟨hbranch, (hpc _ _ (Option.some.inj h)).imp_right fun hpc ↦ ⟨hpc, hflow.resolve_left (by simp)⟩⟩
    · cases h
  case jumpCompare c =>
    simp only [perform, StackMachine.branchCompare] at h
    split at h
    · obtain ⟨hbranch, hflow⟩ := hknown.resolve_left (by simp)
      exact ⟨hbranch, (hpc _ _ (Option.some.inj h)).imp_right fun hpc ↦ ⟨hpc, hflow.resolve_left (by simp)⟩⟩
    · cases h

theorem jumps_of_discovered {code : Text.Bytes} {spans : List Bytecode.Span} (h : Discovered code spans)
    (hknown : ∀ i ∈ (decodeAll code).1, knows i.op = true) {sp : Bytecode.Span} (hsp : sp ∈ spans) :
    Jumps spans sp := by
  rintro i hi hends st o ho st' rfl
  have hmem : i ∈ (decodeAll code).1 := by
    rw [← h.whole]
    exact List.mem_flatMap.mpr ⟨sp, hsp, hi⟩
  obtain ⟨hbranch, hpc | ⟨hpc, hflow⟩⟩ := exec_branch (hknown i hmem) hends ho
  · obtain ⟨sp', hsp', hstart⟩ := h.target i hmem hbranch
    exact ⟨sp', hsp', by omega⟩
  · rw [hpc]
    exact h.next i hmem hbranch hflow

end CilSsa.Lowering

