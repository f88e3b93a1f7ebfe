import CilSsa.Proofs.SteadyRuns

/-! Each frame's part of the stack begins where that of its caller ends, so what returns gives back all that was
taken. -/

namespace CilSsa.Ssa.Module

def Lists (m : Module) (f : FuncId) (i : Instr) : Prop :=
  ∃ b B k, m.block? ⟨f, b⟩ = some B ∧ k ∈ B.instrs ∧ m.instr? ⟨f, k⟩ = some i

/-- Control goes from one function to another by a call or a jump. -/
inductive Leads (m : Module) (f : FuncId) : FuncId → Prop
  | call {i : Instr} {c : FuncId} {F : Function} : m.Lists f i → i.callee = some c →
  m.function? c = some F → Leads m f F.id
  | jump {i : Instr} {t : BlockId} : m.Lists f i → some t ∈ i.targets → Leads m f t.fn

def Addressless (m : Module) (f : FuncId) : Prop := ∀ i, m.Lists f i → ∀ g t, some (.func g t) ∉ i.operands

end CilSsa.Ssa.Module

namespace CilSsa.Machine

open CilSsa.Ssa CilSsa.Text

section

variable {α β : Type} {m : Module} {trace : List String} {e c d : Engine} {fr fr' : Frame} {callers frames : List Frame}
  {i : Instr} {pr : Progress}

theorem run_bind_inv {c : Run α} {f : α → Run β} {b : β} (h : (c >>= f).run.run e = (.ok b, d)) :
    ∃ a c', c.run.run e = (.ok a, c') ∧ (f a).run.run c' = (.ok b, d) := by
  rcases hc : c.run.run e with ⟨s | a, c'⟩
  · rw [run_bind_error hc] at h
    cases h
  · rw [run_bind_ok hc] at h
    exact ⟨a, c', rfl, h⟩

/-- `d` comes of `e` without a frame being left: whatever holds through all that is done in a frame relates them. -/
def Engine.Works (m : Module) (e d : Engine) : Prop := ∀ R : Engine → Engine → Prop, Allows m R → AllowsWrites R → R e d

theorem Engine.Works.trans (h : e.Works m c) (h' : c.Works m d) : e.Works m d := fun R ha hw ↦
    ha.trans (h R ha hw) (h' R ha hw)

theorem Engine.Works.of_run {c : Run α} {r : Except Stop α}
    (hc : ∀ R : Engine → Engine → Prop, Allows m R → AllowsWrites R → Moves R c) (h : c.run.run e = (r, d)) :
    e.Works m d := by
  intro R ha hw
  have := hc R ha hw e
  rwa [h] at this

def Engine.released (e : Engine) (mark : Nat) : Engine :=
  { e with memory := { e.memory with stack := e.memory.stack.release mark } }

/-- What a frame returns to its caller. -/
inductive Resumes (m : Module) (r : Returned) (c d : Engine) : List Frame → Progress → Prop
  | outside : d = c → Resumes m r c d [] (.returned r)
  | caller {caller : Frame} {outer : List Frame} {i : Instr} {v : UInt64} : c.Works m d →
      Resumes m r c d (caller :: outer) (.running (caller.advance i v :: outer))

/-- What a step does at an instruction: it computes something, jumps, calls, or returns. -/
inductive Went (m : Module) (fr : Frame) (callers : List Frame) (i : Instr) (e d : Engine) : Progress → Prop
  | on {v : UInt64} : e.Works m d → Went m fr callers i e d (.running (fr.advance i v :: callers))
  | jumped {t : BlockId} {B : Block} : some t ∈ i.targets → m.block? t = some B → e.Works m d →
      Went m fr callers i e d (.running ({ fr with block := t, rest := B.instrs } :: callers))
  | called {f : FuncId} {F : Function} {callee : Frame} {B : Block} : i.op = .call → i.callee = some f →
      m.function? f = some F → m.block? ⟨F.id, 0⟩ = some B → callee.block = ⟨F.id, 0⟩ → callee.rest = B.instrs →
      callee.mark = d.memory.stack.top →
      callee.values = {} → e.Works m d → Went m fr callers i e d (.running (callee :: fr :: callers))
  | left {c c' : Engine} {v p : UInt64} {bytes : Bytes} {trace : List String} {pr : Progress} : e.Works m c →
      (returnedBytes m trace (((m.function? fr.fn).map (·.ret)).getD .untyped) v).run.run c = (.ok bytes, c') →
      Resumes m ⟨p, bytes⟩ (c'.released fr.mark) d callers pr → Went m fr callers i e d pr

theorem goto_inv {target : Option (Option BlockId)} (h : (goto m fr target).run.run e = (.ok fr', d)) :
    d = e ∧ ∃ t B, target = some (some t) ∧ m.block? t = some B ∧ fr' = { fr with block := t, rest := B.instrs } := by
  unfold goto at h
  split at h
  · rename_i t
    cases hB : m.block? t with
    | none =>
      rw [hB] at h
      cases h
    | some B =>
      rw [hB] at h
      cases h
      exact ⟨rfl, t, B, rfl, hB, rfl⟩
  · cases h

theorem enter_inv {depth : Nat} {f : FuncId} {args : List UInt64}
    (h : (enter m trace depth f args).run.run e = (.ok fr, d)) :
    d = e ∧ ∃ B, m.block? ⟨f, 0⟩ = some B ∧ fr.block = ⟨f, 0⟩ ∧ fr.rest = B.instrs ∧ fr.mark = e.memory.stack.top ∧
      fr.values = {} ∧ fr.fn = f := by
  unfold enter at h
  cases hf : m.function? f with
  | none =>
    rw [hf] at h
    cases h
  | some fn =>
    rw [hf] at h
    dsimp only at h
    rw [run_bind_ok run_get] at h
    split at h
    · cases h
    cases hB : fn.blocks[0]? with
    | none =>
      rw [hB] at h
      cases h
    | some B =>
      rw [hB] at h
      cases h
      exact ⟨rfl, B, by rw [Module.block?, hf, Option.bind_some, hB], rfl, rfl, rfl, rfl, rfl⟩

theorem resume_inv {r : Returned} (h : (resume m callers r).run.run e = (.ok pr, d)) : Resumes m r e d callers pr := by
  unfold resume at h
  cases callers with
  | nil =>
    cases h
    exact .outside rfl
  | cons caller outer =>
    dsimp only at h
    split at h
    · cases h
    obtain ⟨v, c, hv, hrest⟩ := run_bind_inv h
    cases hrest
    exact .caller (.of_run (fun R ha hw ↦ receive_moves ha hw _ r) hv)

theorem leave_inv {v : UInt64} (h : (leave m trace fr callers v).run.run e = (.ok pr, d)) : ∃ p bytes c,
    (returnedBytes m trace (((m.function? fr.fn).map (·.ret)).getD .untyped) v).run.run e = (.ok bytes, c) ∧
      Resumes m ⟨p, bytes⟩ (c.released fr.mark) d callers pr := by
  obtain ⟨bytes, c, hbytes, hrest⟩ := run_bind_inv h
  obtain ⟨⟨⟩, c', hrelease, hresume⟩ := run_bind_inv hrest
  cases hrelease
  exact ⟨_, bytes, c, hbytes, resume_inv hresume⟩

theorem step_went (h : (step m frames).run.run e = (.ok pr, d)) : ∃ fr callers k rest i, frames = fr :: callers ∧
    fr.rest = k :: rest ∧ m.instr? ⟨fr.block.fn, k⟩ = some i ∧ Went m fr callers i e d pr := by
  unfold step at h
  dsimp only at h
  split at h
  · cases h
  rename_i fr callers
  split at h
  · cases h
  rename_i k rest hrest
  split at h
  · cases h
  rename_i i hi
  refine ⟨fr, callers, k, rest, i, rfl, hrest, hi, ?_⟩
  obtain ⟨ops, c, hops, hact⟩ := run_bind_inv h
  have hc : e.Works m c := .of_run (fun R ha _ ↦ ha.mapM (operand_moves ha fr) i.operands) hops
  have hjump : ∀ n : Nat, (do return .running ((← goto m fr i.targets[n]?) :: callers) : Run Progress).run.run
    c = (.ok pr, d) →
      Went m fr callers i e d pr := by
    intro n hgoto
    obtain ⟨fr', c', hfr', hend⟩ := run_bind_inv hgoto
    cases hend
    obtain ⟨rfl, t, B, ht, hB, rfl⟩ := goto_inv hfr'
    exact .jumped (List.mem_of_getElem? ht) hB hc
  split at hact
  · exact hjump 0 hact
  · split at hact
    · exact hjump _ hact
    · cases hact
  · obtain ⟨p, bytes, c', hbytes, hr⟩ := leave_inv hact
    exact .left hc hbytes hr
  · rename_i hop
    cases hcallee : i.callee with
    | none =>
      rw [hcallee] at hact
      cases hact
    | some f =>
      rw [hcallee, Option.bind_some] at hact
      cases hF : m.function? f with
      | none =>
        rw [hF] at hact
        cases hact
      | some F =>
        rw [hF] at hact
        dsimp only at hact
        split at hact
        · obtain ⟨⟨⟩, c', hfill, hend⟩ := run_bind_inv hact
          cases hend
          exact .on (hc.trans (.of_run (fun R ha hw ↦ fill_moves ha hw ops) hfill))
        · obtain ⟨callee, c', henter, hend⟩ := run_bind_inv hact
          cases hend
          obtain ⟨rfl, B, hB, hblock, hinstrs, hmark, hvalues, -⟩ := enter_inv henter
          exact .called hop hcallee hF hB hblock hinstrs hmark hvalues hc
  · obtain ⟨v, c', hv, hend⟩ := run_bind_inv hact
    cases hend
    exact .on (hc.trans (.of_run (fun R ha hw ↦ compute_moves ha i ops fun _ ↦ hw) hv))

end

/-! ### The stack -/

theorem Memory.stack_top_write (mem : Memory) (a : UInt64) (bs : Bytes) :
    (mem.write a bs).stack.top = mem.stack.top := by
  unfold Memory.write
  split
  · exact Region.top_write ..
  · split <;> rfl

theorem Region.length_read {r : Region} {a : UInt64} {n o : Nat} (h : r.place? a n = some o) :
    (r.read o n).length = n := by
  obtain ⟨-, -, -, hend⟩ := Region.place?_eq_some_iff.mp h
  rw [read_eq _ (by omega), slice, List.length_take, List.length_drop, length_bytes]
  omega

theorem Memory.length_read? {mem : Memory} {a : UInt64} {n : Nat} {bs : Bytes} (h : mem.read? a n = some bs) :
    bs.length = n := by
  unfold Memory.read? at h
  split at h
  · rename_i o ho
    cases h
    exact Region.length_read ho
  · obtain ⟨o, ho, rfl⟩ := Option.map_eq_some_iff.mp h
    exact Region.length_read ho

theorem Engine.Works.rises {m : Module} {e d : Engine} (h : e.Works m d) : e.memory.stack.top ≤ d.memory.stack.top :=
  h (fun e d ↦ e.memory.stack.top ≤ d.memory.stack.top)
    { refl := fun _ ↦ le_rfl
      trans := le_trans
      layouts := fun _ _ ↦ le_rfl
      grow := fun _ _ hgrows _ ↦ hgrows
      address := fun _ _ ↦ le_rfl }
    fun _ _ _ ↦ (Memory.stack_top_write ..).ge

theorem Engine.Knows.allows (m : Module) : Allows m fun e d ↦ e.Knows m → d.Knows m where
  refl _ h := h
  trans h h' := h' ∘ h
  layouts _ _ h := (Layouts.of_exact h).1
  grow _ _ _ _ h := h
  address _ _ h := h

theorem Engine.Works.knows {m : Module} {e d : Engine} (h : e.Works m d) (he : e.Knows m) : d.Knows m :=
  h _ (Engine.Knows.allows m) (fun _ _ _ h ↦ h) he

/-- Frames of a call of `f` that began where the stack ended at `bottom`. -/
inductive Stacked (f : FuncId) (bottom : Nat) : List Frame → Nat → Prop
  | last {fr : Frame} {top : Nat} : fr.fn = f → fr.mark = bottom → bottom ≤ top → Stacked f bottom [fr] top
  | cons {fr : Frame} {callers : List Frame} {top : Nat} : fr.mark ≤ top → Stacked f bottom callers fr.mark →
      Stacked f bottom (fr :: callers) top

/-- What a call of a function with this type returns: nothing but a pattern, or as many bytes as the type has. -/
def Returned.Fits (m : Module) (t : Ty) (r : Returned) : Prop := r.aggregate ≠ [] →
  t.isStruct = true ∧ ∃ l, Layouts.LaidOut m .host t l ∧ r.aggregate.length = l.size

section

variable {m : Module} {f : FuncId} {bottom top top' : Nat} {fr fr' : Frame} {callers frames frames' : List Frame}
  {e d : Engine} {i : Instr} {pr : Progress} {r : Returned}

theorem Stacked.mono (h : Stacked f bottom frames top) (hle : top ≤ top') : Stacked f bottom frames top' := by
  cases h with
  | last hfn hmark htop => exact .last hfn hmark (htop.trans hle)
  | cons hmark h => exact .cons (hmark.trans hle) h

theorem Stacked.head (h : Stacked f bottom (fr :: callers) top) (hfn : fr'.fn = fr.fn) (hmark : fr'.mark = fr.mark) :
    Stacked f bottom (fr' :: callers) top := by
  cases h with
  | last hfn' hmark' htop => exact .last (hfn.trans hfn') (hmark.trans hmark') htop
  | cons hmark' h => exact .cons (hmark ▸ hmark') (hmark ▸ h)

theorem Stacked.mark_le (h : Stacked f bottom (fr :: callers) top) : fr.mark ≤ top := by
  cases h with
  | last hfn hmark htop => exact hmark ▸ htop
  | cons hmark h => exact hmark

theorem Frame.advance_keeps (fr : Frame) (i : Instr) (v : UInt64) : (fr.advance i v).fn = fr.fn ∧
    (fr.advance i v).mark = fr.mark ∧ (fr.advance i v).block = fr.block ∧ fr.rest = fr.rest.take 1 ++
    (fr.advance i v).rest := by
  unfold Frame.advance
  split
  · rename_i h
    rw [h]
    exact ⟨rfl, rfl, rfl, rfl⟩
  · rename_i h
    split <;> rw [h] <;> exact ⟨rfl, rfl, rfl, rfl⟩

theorem returnedBytes_fits {trace : List String} {t : Ty} {v p : UInt64} {bs : Bytes} (he : e.Knows m)
    (h : (returnedBytes m trace t v).run.run e = (.ok bs, d)) : Returned.Fits m t ⟨p, bs⟩ := by
  intro hne
  unfold returnedBytes at h
  split at h
  swap
  · cases h
    exact absurd rfl hne
  rename_i hstruct
  refine ⟨hstruct, ?_⟩
  obtain ⟨size, c, hsize, hread⟩ := run_bind_inv h
  have hl : ∃ l, Layouts.LaidOut m .host t l ∧ size = l.size := by
    unfold sizeOf Layouts.sizeOf at hsize
    rw [run_bind_ok run_get] at hsize
    have hexact := (Layouts.of_exact (t := t) he).2
    generalize e.layouts.of m t = found at hsize hexact
    rcases found with ⟨x | l, s⟩
    · cases hsize
    · cases hsize
      exact ⟨l, hexact, rfl⟩
  obtain ⟨l, hl, rfl⟩ := hl
  refine ⟨l, hl, ?_⟩
  unfold readBytes at hread
  rw [run_bind_ok run_get] at hread
  split at hread
  · rename_i bs' hbs
    cases hread
    exact Memory.length_read? hbs
  · cases hread

/-- Frames stay stacked, and when the last returns the stack is as high as at the beginning. -/
theorem Stacked.step (h : Stacked f bottom frames e.memory.stack.top)
    (hstep : (step m frames).run.run e = (.ok pr, d)) :
    (∀ frames', pr = .running frames' → Stacked f bottom frames' d.memory.stack.top) ∧
      ∀ r, pr = .returned r → d.memory.stack.top = bottom ∧
        (e.Knows m → r.Fits m (((m.function? f).map (·.ret)).getD .untyped)) := by
  obtain ⟨fr, callers, k, rest, i, rfl, -, -, hwent⟩ := step_went hstep
  have hrunning : ∀ fs, Stacked f bottom fs d.memory.stack.top →
      (∀ frames', Progress.running fs = .running frames' → Stacked f bottom frames' d.memory.stack.top) ∧
        ∀ r, Progress.running fs = .returned r → d.memory.stack.top = bottom ∧
          (e.Knows m → r.Fits m (((m.function? f).map (·.ret)).getD .untyped)) :=
    fun fs hfs ↦ ⟨fun _ heq ↦ Progress.running.inj heq ▸ hfs, nofun⟩
  cases hwent with
  | on hw =>
    obtain ⟨hfn, hmark, -, -⟩ := fr.advance_keeps i _
    exact hrunning _ ((h.head hfn hmark).mono hw.rises)
  | jumped _ _ hw =>
    refine hrunning _ (Stacked.mono ?_ hw.rises)
    exact h.head rfl rfl
  | called _ _ _ _ _ _ hmark _ hw => exact hrunning _ (.cons hmark.le (hmark ▸ h.mono hw.rises))
  | @left c c' v p bytes trace _ hw hbytes hr =>
    have hc : e.memory.stack.top ≤ c'.memory.stack.top :=
      (hw.trans (.of_run (fun R ha _ ↦ returnedBytes_moves ha _ v) hbytes)).rises
    have hreleased : (c'.released fr.mark).memory.stack.top = fr.mark := by
      show (Region.release _ _).top = _
      rw [Region.top_release, min_eq_left (h.mark_le.trans hc)]
    cases hr with
    | outside hd =>
      subst hd
      cases h with
      | last hfn hmark _ =>
        subst hfn
        refine ⟨nofun, fun r heq ↦ ?_⟩
        cases heq
        exact ⟨hreleased.trans hmark, fun he ↦ returnedBytes_fits (hw.knows he) hbytes⟩
      | cons _ h => cases h
    | caller hw' =>
      cases h with
      | cons _ h =>
        obtain ⟨hfn, hmark, -, -⟩ := Frame.advance_keeps _ _ _
        exact hrunning _ ((h.head hfn hmark).mono (hreleased ▸ hw'.rises))

theorem Stacked.run {fuel : Nat} (h : Stacked f bottom frames e.memory.stack.top)
    (hrun : run m fuel frames e = (.returned r, d)) :
    d.memory.stack.top = bottom ∧ (e.Knows m → r.Fits m (((m.function? f).map (·.ret)).getD .untyped)) := by
  induction fuel generalizing frames e with
  | zero => cases (Prod.mk.inj hrun).1
  | succ fuel ih =>
    rw [Machine.run] at hrun
    have hknows := step_moves (Engine.Knows.allows m) (fun _ _ _ h ↦ h) (fun _ _ h ↦ h) frames e
    rcases hstep : (Machine.step m frames).run.run e with ⟨s | ⟨frames' | r'⟩, c⟩ <;> rw [hstep] at hrun hknows
    · cases (Prod.mk.inj hrun).1
    · exact (ih ((h.step hstep).1 frames' rfl) hrun).imp_right fun hfits he ↦ hfits (hknows he)
    · cases hrun
      exact (h.step hstep).2 r rfl

theorem execute_returned {fuel : Nat} {args : List UInt64} (h : Engine.execute m fuel f args e = (.returned r, d)) :
    d.memory.stack.top = e.memory.stack.top ∧
      (e.Knows m → r.Fits m (((m.function? f).map (·.ret)).getD .untyped)) := by
  unfold Engine.execute at h
  rcases henter : (enter m [] 0 f args).run.run e with ⟨s | fr, c⟩ <;> rw [henter] at h
  · cases (Prod.mk.inj h).1
  · obtain ⟨rfl, B, -, -, -, hmark, -, hfn⟩ := enter_inv henter
    exact Stacked.run (.last hfn hmark le_rfl) h

/-! ### Where control goes -/

/-- A frame in one of the functions `S`, at a place of one of its blocks. -/
structure Frame.Within (m : Module) (S : FuncId → Prop) (fr : Frame) : Prop where
  fn : S fr.block.fn
  place : ∃ B pre, m.block? fr.block = some B ∧ B.instrs = pre ++ fr.rest

variable {S : FuncId → Prop}

theorem Frame.Within.advance (h : fr.Within m S) (i : Instr) (v : UInt64) : (fr.advance i v).Within m S := by
  obtain ⟨B, pre, hB, hlist⟩ := h.place
  obtain ⟨-, -, hblock, hrest⟩ := fr.advance_keeps i v
  refine ⟨hblock ▸ h.fn, B, pre ++ fr.rest.take 1, by rw [hblock]; exact hB, ?_⟩
  rw [List.append_assoc, ← hrest, hlist]

theorem Frame.Within.lists {k : Nat} (h : fr.Within m S) (hk : k ∈ fr.rest) (hi : m.instr? ⟨fr.block.fn, k⟩ = some i) :
    m.Lists fr.block.fn i := by
  obtain ⟨B, pre, hB, hlist⟩ := h.place
  exact ⟨fr.block.index, B, k, hB, by rw [hlist]; exact List.mem_append_right _ hk, hi⟩

theorem within_step (hS : ∀ f g, S f → m.Leads f g → S g) (h : ∀ fr ∈ frames, fr.Within m S)
    (hstep : (step m frames).run.run e = (.ok (.running frames'), d)) : ∀ fr ∈ frames', fr.Within m S := by
  obtain ⟨fr, callers, k, rest, i, rfl, hrest, hi, hwent⟩ := step_went hstep
  obtain ⟨hfr, hcallers⟩ := List.forall_mem_cons.mp h
  have hlists : m.Lists fr.block.fn i := hfr.lists (by rw [hrest]; exact List.mem_cons_self) hi
  cases hwent with
  | on => exact List.forall_mem_cons.mpr ⟨hfr.advance i _, hcallers⟩
  | @jumped t B ht hB => exact List.forall_mem_cons.mpr ⟨⟨hS _ _ hfr.fn (.jump hlists ht), B, [], hB, rfl⟩, hcallers⟩
  | @called g G callee B _ hcallee hG hB hblock hinstrs =>
    refine List.forall_mem_cons.mpr ⟨⟨?_, B, [], hblock ▸ hB, hinstrs.symm⟩, h⟩
    rw [hblock]
    exact hS _ _ hfr.fn (.call hlists hcallee hG)
  | left _ _ hr =>
    cases hr with
    | caller _ =>
      obtain ⟨hcaller, houter⟩ := List.forall_mem_cons.mp hcallers
      exact List.forall_mem_cons.mpr ⟨hcaller.advance _ _, houter⟩

def SameRun (m : Module) (r r' : Outcome × Engine) : Prop := r'.1.bare = r.1.bare ∧ r.2.Alike m r'.2

variable {e' : Engine}

/-- Runs in functions that read no function's address go alike, by induction on the fuel. -/
theorem run_same (hS : ∀ f g, S f → m.Leads f g → S g) (hfree : ∀ f, S f → m.Addressless f) (fuel : Nat)
    (h : ∀ fr ∈ frames, fr.Within m S) (he : e.Alike m e') : SameRun m (Machine.run m fuel frames e)
    (Machine.run m fuel frames e') := by
  induction fuel generalizing frames e e' with
  | zero => exact ⟨rfl, he⟩
  | succ fuel ih =>
    have hnone : Addressless m frames := by
      intro fr hfr k hk i hi
      have hfr := h fr (List.mem_of_mem_head? hfr)
      exact hfree _ hfr.fn i (hfr.lists (List.mem_of_mem_head? hk) hi)
    have hboth := step_steady hnone e e' he
    have hwithin : ∀ frames' d, (step m frames).run.run e = (.ok (.running frames'), d) → ∀ fr ∈ frames',
      fr.Within m S :=
      fun _ _ ↦ within_step hS h
    rw [Machine.run, Machine.run]
    generalize (step m frames).run.run e = r at hboth hwithin ⊢
    generalize (step m frames).run.run e' = r' at hboth ⊢
    cases hboth with
    | error hbare hd => exact ⟨congrArg Outcome.stopped hbare, hd⟩
    | @ok _ pr d d' hq =>
      obtain ⟨rfl, hd⟩ := hq
      cases pr with
      | running frames' => exact ih (hwithin frames' d rfl) hd
      | returned r => exact ⟨rfl, hd⟩

theorem execute_same (hS : ∀ f g, S f → m.Leads f g → S g) (hfree : ∀ f, S f → m.Addressless f) (fuel : Nat) (hf : S f)
    (args : List UInt64) (he : e.Alike m e') : SameRun m (Engine.execute m fuel f args e)
    (Engine.execute m fuel f args e') := by
  have hsteady : Steady m (enter m [] 0 f args) := enter_steady 0 f args
  have hboth := hsteady e e' he
  have hwithin : ∀ fr d, (enter m [] 0 f args).run.run e = (.ok fr, d) → fr.Within m S := by
    intro fr d henter
    obtain ⟨rfl, B, hB, hblock, hinstrs, -, -⟩ := enter_inv henter
    exact ⟨hblock ▸ hf, B, [], hblock ▸ hB, hinstrs.symm⟩
  unfold Engine.execute
  generalize (enter m [] 0 f args).run.run e = r at hboth hwithin ⊢
  generalize (enter m [] 0 f args).run.run e' = r' at hboth ⊢
  cases hboth with
  | error hbare hd => exact ⟨congrArg Outcome.stopped hbare, hd⟩
  | @ok _ fr d d' hq =>
    obtain ⟨rfl, hd⟩ := hq
    exact run_same hS hfree fuel (List.forall_mem_singleton.mpr (hwithin _ d rfl)) hd

end

end CilSsa.Machine

