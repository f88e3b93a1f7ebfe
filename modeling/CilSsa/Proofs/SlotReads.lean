import CilSsa.Proofs.BodyStages
import CilSsa.Proofs.FrameSlots
import CilSsa.Proofs.IntegerConversions

namespace CilSsa.Lowering

open CilSsa.Bytecode CilSsa.Machine CilSsa.Metadata
open CilSsa.Ssa (BlockId FuncId Function Instr InstrId Module Value)

/-- The next instruction of a frame does not lead out of its block, and if it pushes onto the run-time stack, then apart
from the slot `x`. -/
def Undisturbed (M : Module) (top : Value) (x : InstrId) (fr : Frame) : Prop :=
  ∀ G k i, M.function? fr.block.fn = some G → fr.rest.head? = some k → G.instrs[k]? = some i → i.op.transfers = false ∧
    ∀ w p, i.op = .store → i.operands = [some w, some p] → IsTop fr.block.fn top G p → fr.StoresApart M x i

/-- A call is under way, and control is at place `p` of block `b`, where the slot `x` has the address `a`. -/
structure Poised (M : Module) (b : BlockId) (p : Nat) (x : InstrId) (a : UInt64) (fr : Frame) (callers : List Frame)
    (c : Engine) : Prop where
  during : ∃ limits e f args, Engine.Low M limits e ∧ Engine.During M f args e (fr :: callers) c
  block : fr.block = b
  rest : ∃ B, M.block? b = some B ∧ fr.rest = B.instrs.drop p
  address : fr.values[x]? = some a

/-- From place `p` of block `b` to place `q`, the slot `x` keeps what it held when control was at `p`, if nothing
disturbs it on the way; and what reads the slot gets that. -/
def KeepsSlot (M : Module) (b : BlockId) (top x : Value) (p q : Nat) : Prop :=
  ∀ id t fr callers c a n frames d, x = .instr id t → Poised M b p id a fr callers c → p + n ≤ q →
    (∀ j < n, ∀ fr' callers' c', steps? M j (fr :: callers) c = some (fr' :: callers', c') → Undisturbed M top id fr') →
    steps? M n (fr :: callers) c = some (frames, d) → ∃ fr', frames = fr' :: callers ∧
      Poised M b (p + n) id a fr' callers d ∧ (∀ l, Ssa.Layouts.LaidOut M .host t.pointee l → d.memory.read? a l.size =
      c.memory.read? a l.size) ∧
      ∀ k G pr d', fr'.rest.head? = some k → M.function? b.fn = some G → ReadsSlot G k x →
        (step M frames).run.run d = (.ok pr, d') → ∃ fr'' w, pr = .running (fr'' :: callers) ∧
          fr''.values[(⟨b.fn, k⟩ : InstrId)]? = some w ∧ c.Holds M t.pointee a w d'

section

variable {M : Module} {limits : Limits} {fn : FuncId} {b kx : Nat} {t : Ssa.Ty} {top x : Value} {G : Function}
  {e c d : Engine} {f : FuncId} {args : List UInt64} {fr : Frame} {callers frames : List Frame}

theorem instr?_of_function (hG : M.function? fn = some G) (k : Nat) : M.instr? ⟨fn, k⟩ = G.instrs[k]? := by
  rw [Module.instr?, hG]
  rfl

theorem storesApart_of_fills {k : Nat} {i : Instr} {v p : Value} (hG : M.function? fn = some G)
    (hfr : fr.Apart M d.memory.stack.top) (hx : IsSlot fn G x t) (hop : i.op = .store)
    (hops : i.operands = [some v, some p]) (hp : IsSlot fn G p v.type)
    (hne : p ≠ x) (hid : x = .instr ⟨fn, k⟩ (.pointer t)) : fr.StoresApart M ⟨fn, k⟩ i := by
  obtain ⟨kp, ip, rfl, hip, halloca, hallocated, hnone⟩ := hp
  refine ⟨hop, v, _, _, hops, fun a l o n ha hl hsmall hslot ↦ ?_⟩
  have hpslot : fr.Slot M ⟨fn, kp⟩ (a - stackBase).toNat l.size :=
    ⟨ip, a, l, (instr?_of_function hG kp).trans hip, halloca, hnone, ha, hallocated.symm ▸ hl, rfl, hsmall, rfl⟩
  refine hfr.apart hpslot hslot fun heq ↦ hne ?_
  obtain ⟨kx, ix, hxid, hix, -, hxt, -⟩ := hx
  cases hid.symm.trans hxid
  cases heq
  cases hip.symm.trans hix
  rw [hid, ← hallocated, hxt]

theorem spared_run {ks more : List Nat} (hG : M.function? fn = some G)
    (hx : IsSlot fn G (.instr ⟨fn, kx⟩ (.pointer t)) t)
    (he : e.Low M limits) (hduring : Engine.During M f args e (fr :: callers) c) (hblock : fr.block = ⟨fn, b⟩)
    (hrest : fr.rest = ks ++ more) (hspares : ∀ k ∈ ks, Spares fn top (.instr ⟨fn, kx⟩ (.pointer t)) G k)
    (hquiet : ∀ j < ks.length, ∀ fr' callers' c', steps? M j (fr :: callers) c = some (fr' :: callers', c') →
      Undisturbed M top ⟨fn, kx⟩ fr') (hsteps : steps? M ks.length (fr :: callers) c = some (frames, d)) :
    ∃ fr', frames = fr' :: callers ∧ fr.Onward M ⟨fn, kx⟩ more fr' c d ∧
    Engine.During M f args e (fr' :: callers) d := by
  induction ks generalizing fr c with
  | nil =>
    cases hsteps
    refine ⟨fr, rfl, ?_, hduring⟩
    rw [List.nil_append] at hrest
    rw [← hrest]
    exact .refl ..
  | cons k ks ih =>
    obtain ⟨kx', ix, hxid, hix, halloca, hxt, hnone⟩ := id hx
    cases hxid
    have hlow := hduring.low he
    have hapart := hduring.apart he
    obtain ⟨i, hi, hop⟩ : ∃ i, G.instrs[k]? = some i ∧ (i.op.onlyReads = true ∨ fr.StoresApart M ⟨fn, kx⟩ i) := by
      have hquiet₀ := hquiet 0 (Nat.zero_lt_succ _) fr callers c rfl
      have hhead : fr.rest.head? = some k := by rw [hrest]; rfl
      have hfn : M.function? fr.block.fn = some G := by rw [hblock]; exact hG
      cases hspares k List.mem_cons_self with
      | reads hi hop => exact ⟨_, hi, .inl hop⟩
      | fills hi hop hops hp hne => exact ⟨_, hi, .inr (storesApart_of_fills hG hapart hx hop hops hp hne rfl)⟩
      | pushes hi hop hops hp =>
        refine ⟨_, hi, .inr ((hquiet₀ G k _ hfn hhead hi).2 _ _ hop hops ?_)⟩
        rw [hblock]
        exact hp
      | transfers hi hop =>
        rw [(hquiet₀ G k _ hfn hhead hi).1] at hop
        cases hop
    rcases hstep : (step M (fr :: callers)).run.run c with ⟨s | ⟨frames' | r⟩, c'⟩ <;>
      rw [List.length_cons, steps?, hstep] at hsteps
    · cases hsteps
    · have hi' : M.instr? ⟨fr.block.fn, k⟩ = some i := by
        rw [hblock]
        exact (instr?_of_function hG k).trans hi
      obtain ⟨fr', hpr, honward⟩ := step_onward hlow hapart hrest hi' ((instr?_of_function hG kx).trans hix)
        halloca hop hstep
      cases hpr
      refine (ih (hduring.step hstep) (honward.block.trans hblock) honward.rest (fun k' hk' ↦ hspares k' (.tail _ hk'))
        (fun j hj fr'' callers' c'' hj' ↦ ?_) hsteps).imp fun fr'' h ↦ ⟨h.1, honward.trans h.2.1, h.2.2⟩
      refine hquiet (j + 1) (Nat.succ_lt_succ hj) fr'' callers' c'' ?_
      rw [steps?, hstep]
      exact hj'
    · cases hsteps

theorem keepsSlot_of_spared {F F' : Function} {B : Ssa.Block} {ks rest : List Nat} (hG : M.function? fn = some G)
    (hgrew : Outgrows F' G) (hfit : Fitted fn top x F) (hB : F.blocks[b]? = some B)
    (h : Spared fn top x b F F' ks rest) : KeepsSlot M ⟨fn, b⟩ top x B.instrs.length (B.instrs.length + ks.length) := by
  rintro x t fr callers c a n frames d rfl ⟨⟨limits, e, f, args, he, hduring⟩, hblock, ⟨B', hB', hrest⟩, ha⟩
    hn hquiet hsteps
  obtain ⟨t', hslot⟩ := hfit.slot
  have hslot := hslot.mono (h.code.earlier.trans hgrew.earlier)
  obtain ⟨kx, ix, hxid, hix, halloca, hallocated, hnone⟩ := id hslot
  cases hxid
  obtain ⟨more, hmore⟩ := hgrew b
  have hfound : M.block? ⟨fn, b⟩ = G.blocks[b]? := by
    unfold Module.block?
    rw [hG]
    rfl
  cases hB'.symm.trans (hfound.trans (hmore.block _ (h.code.block B hB)))
  have hall : fr.rest = ks.take n ++ (ks.drop n ++ (rest ++ more)) := by
    rw [hrest, ← List.append_assoc (ks.take n), List.take_append_drop, List.append_assoc, List.drop_left,
      List.append_assoc]
  have hlength : (ks.take n).length = n := by rw [List.length_take]; omega
  obtain ⟨fr', rfl, honward, hduring'⟩ := spared_run hG hslot he hduring hblock hall
    (fun k hk ↦ (h.spares k (List.mem_of_mem_take hk)).mono hgrew.earlier) (by rwa [hlength]) (by rwa [hlength])
  have hblock' := honward.block.trans hblock
  have ha' := honward.address.trans ha
  have hsame : ∀ l, Ssa.Layouts.LaidOut M .host t' l → d.memory.read? a l.size = c.memory.read? a l.size := fun l hl ↦
    honward.read? (hduring.low he) (hduring'.low he) (hduring.apart he) (hduring'.apart he) ha
      ((instr?_of_function hG kx).trans hix) halloca hnone (hallocated.symm ▸ hl)
  refine ⟨fr', rfl, ⟨⟨limits, e, f, args, he, hduring'⟩, hblock', ⟨_, hB', ?_⟩, ha'⟩, hsame, ?_⟩
  · rw [honward.rest, ← List.drop_drop, ← hrest, hall, List.drop_append, hlength, Nat.sub_self, List.drop_zero,
      List.drop_of_length_le hlength.le, List.nil_append]
  · rintro k G' pr d' hk hG' ⟨i, hi, hop, hops, htype⟩ hstep
    cases hG.symm.trans hG'
    have htype : i.type = t' := htype
    obtain ⟨rest', hrest'⟩ := List.head?_eq_some_iff.mp hk
    have hi' : M.instr? ⟨fr'.block.fn, k⟩ = some i := by
      rw [hblock']
      exact (instr?_of_function hG k).trans hi
    obtain ⟨w, rfl, hw, hholds⟩ := step_holds (hduring'.low he) hrest' hi' hop hops ha' (htype ▸ hsame) hstep
    rw [hblock'] at hw
    exact ⟨_, w, rfl, hw, htype ▸ hholds⟩

/-- What takes an operand for a slot that was pushed at place `p` of a block takes what the slot held there: an
instruction read it before, at a place `q` up to which the slot keeps that; or it is read now, at a place up to which it
does. -/
inductive TakenByValue (M : Module) (b : BlockId) (top : Value) (v : Operand) (p : Nat) (u' : CompilationUnit) :
    Operand → Prop
  | before {q j : Nat} {G : Function} {B : Ssa.Block} : KeepsSlot M b top v.value p q → M.function? b.fn = some G →
      G.blocks[b.index]? = some B → B.instrs[q]? = some j → ReadsSlot G j v.value →
      TakenByValue M b top v p u' (v.readBy b.fn j)
  | now {q : Nat} {F' : Function} {B' : Ssa.Block} : KeepsSlot M b top v.value p q → Houses b.fn F' u' →
      F'.blocks[b.index]? = some B' → (q < B'.instrs.length → ∃ j, B'.instrs[q]? = some j ∧ ReadsSlot F' j v.value) →
      TakenByValue M b top v p u' v

end

/-! ### From the push to what takes the operand -/

section

variable {fn : FuncId} {b start : Nat} {F : Function} {B : Ssa.Block} {v : Operand} {site : Site} {s₀ s s' : Stage}
  {u₀ u u' u₂ : CompilationUnit}

theorem Pends.loads (h : Pends site start s₀ u₀ v s u) : ∃ i, LoadsSlot site i v := by
  induction h with
  | pushed hload _ => exact ⟨_, hload⟩
  | passed _ _ _ _ ih => exact ih

theorem LoadsSlot.mem {i : Instruction} (h : LoadsSlot site i v) : v ∈ site.args ++ site.locals := by
  obtain ⟨-, n, -, ⟨-, hv⟩ | ⟨-, hv⟩⟩ := h
  · exact List.mem_append_right _ (List.mem_of_getElem? hv)
  · exact List.mem_append_left _ (List.mem_of_getElem? hv)

theorem Taking.continues (hsite : site.Leaves fn) (h : Taking site start s u s' u') (hF : Houses fn F u)
    (hfn : s.fn = fn) : Continues fn u u' := by
  have hsupports := fun F ↦ supports_lengthened (F := F) hsite
  cases h with
  | @instruction i he =>
    exact (continues_of_safe (c := (lower start i).run site) hF
      (fun F ↦ have := hsupports F; safe_lower (E := fun _ ↦ True) start i) he hfn).2
  | @flush successors he =>
    exact (continues_of_safe (c := (Lowering.flush start successors).run site) hF
      (fun F ↦ have := hsupports F; safe_flush (E := fun _ ↦ True) start successors) he hfn).2

theorem Pends.taken (hsite : site.Leaves fn) (hb0 : b ≠ 0) (hslot : v.slot = true) (hfn : s₀.fn = fn)
    (hb : s₀.block = b) (hF : Houses fn F u₀) (hfit : Fitted fn site.top v.value F) (hB : F.blocks[b]? = some B)
    (h : Pends site start s₀ u₀ v s u) (ht : Taking site start s u s' u') (hcode : Continues fn u' u₂) : ∃ w,
    w.At s₀.pending.length s.pending ∧
      TakenByValue u₂.module ⟨fn, b⟩ site.top v B.instrs.length u' w := by
  obtain ⟨hfn₁, hb₁, F₁, w, hF₁, -, hw, hat⟩ := h.awaits hsite hslot hb0 hfn hb hF hfit
  refine ⟨w, hat, ?_⟩
  cases hw with
  | waiting =>
    obtain ⟨F', hF', ks, rest, hspared, hread⟩ := h.inTime hsite hb0 hslot hfn hb hF hfit ht
    obtain ⟨G, hG, hgrew⟩ := hcode F' hF'
    refine .now (keepsSlot_of_spared hG.found hgrew hfit hB hspared) hF' (hspared.code.block B hB) fun hq ↦ ?_
    cases rest with
    | nil =>
      rw [List.append_nil, List.length_append] at hq
      omega
    | cons j rest =>
      refine ⟨j, ?_, hread j rfl⟩
      rw [← List.append_assoc, ← List.length_append, List.getElem?_append_right le_rfl, Nat.sub_self]
      rfl
  | @read ks rest j hspared hread =>
    obtain ⟨G, hG, hgrew⟩ := ((ht.continues hsite hF₁ hfn₁).trans hcode) F₁ hF₁
    obtain ⟨more, hmore⟩ := hgrew b
    refine .before (keepsSlot_of_spared hG.found hgrew hfit hB hspared) hG.found
      (hmore.block _ (hspared.code.block B hB)) ?_ (hread.mono hgrew.earlier)
    show ((B.instrs ++ (ks ++ j :: rest)) ++ more)[B.instrs.length + ks.length]? = some j
    rw [← List.append_assoc, List.append_assoc, ← List.length_append, List.getElem?_append_right le_rfl, Nat.sub_self]
    rfl

end

/-- What is lowered after `n` instructions of a span: the next one, or the end of a span that falls through. -/
inductive Next (sp : Bytecode.Span) : Nat → Lower Unit → Prop
  | instruction {n : Nat} {i : Instruction} : sp.instrs[n]? = some i → Next sp n (lower sp.start i)
  | flush : sp.fallsThrough = true → Next sp sp.instrs.length (flush sp.start [sp.stop])

/-- Locals and arguments are read by value: in a body that is lowered, whatever takes an operand for a slot takes what
the slot held when control passed the instruction that pushed the operand, if no function was called in between. -/
theorem slots_read_by_value {world : Universe} {fuel : Nat} {m : Method} {body : Body} {args : List Ty} {f : Function}
    {u u₂ : CompilationUnit} {count : Nat} (hf : Houses f.id f u) (hworld : Consistent world)
    (hc : Compiles (lowerBody world (compileMethod world fuel) m body args f) u count u₂) :
    ∃ site, discoverBlocks body.code = .ok site.spans ∧ ∀ k sp, site.spans[k]? = some sp → ∀ n next, Next sp n next →
      ∃ s u₁ s' u', Midway world (compileMethod world fuel) m body args f u site k sp n s u₁ ∧
        Lowers next site s u₁ ⟨⟩ s' u' ∧ ∀ n₀ s₀ u₀ v, Midway world (compileMethod world fuel) m body args f u
        site k sp n₀ s₀ u₀ →
          Pends site sp.start s₀ u₀ v s u₁ → ∃ F B w, Houses f.id F u₀ ∧ F.blocks[k + 1]? = some B ∧
            w.At s₀.pending.length s.pending ∧
              TakenByValue u₂.module ⟨f.id, k + 1⟩ site.top v B.instrs.length u' w := by
  obtain ⟨site, hspans, hlowered⟩ := lowerBody_stages hf hworld hc
  refine ⟨site, hspans, fun k sp hsp n next hnext ↦ ?_⟩
  obtain ⟨hinstrs, hflush⟩ := hlowered k sp hsp
  have htaken : ∀ {s u₁ s' u'}, Taking site sp.start s u₁ s' u' → Continues f.id u' u₂ → ∀ n₀ s₀ u₀ v,
      Midway world (compileMethod world fuel) m body args f u site k sp n₀ s₀ u₀ → Pends site sp.start s₀ u₀ v s u₁ →
        ∃ F B w, Houses f.id F u₀ ∧ F.blocks[k + 1]? = some B ∧ w.At s₀.pending.length s.pending ∧
          TakenByValue u₂.module ⟨f.id, k + 1⟩ site.top v B.instrs.length u' w := by
    intro s u₁ s' u' ht hcode n₀ s₀ u₀ v hmidway hpends
    obtain ⟨hfn, hb, hk, F, hF, hfurnished⟩ := hmidway.furnished hf hworld
    obtain ⟨B, hB⟩ := hfurnished.blocks k hk
    obtain ⟨i, hload⟩ := hpends.loads
    obtain ⟨w, hat, hw⟩ := hpends.taken hfurnished.leaves (Nat.succ_ne_zero k) hload.1 hfn hb hF
      (hfurnished.slots v hload.mem hload.1) hB ht hcode
    exact ⟨F, B, w, hF, hB, hat, hw⟩
  cases hnext with
  | @instruction n i hi =>
    obtain ⟨s, u₁, s', u', hmidway, hnext, hcode⟩ := hinstrs n i hi
    exact ⟨s, u₁, s', u', hmidway, hnext, htaken (.instruction hnext) hcode⟩
  | flush hfalls =>
    obtain ⟨s, u₁, s', u', hmidway, hnext, hcode⟩ := hflush hfalls
    exact ⟨s, u₁, s', u', hmidway, hnext, htaken (.flush hnext) hcode⟩

def storingBody : Body := ⟨8, [], [0x02, 0x1d, 0x10, 0x00, 0x2a]⟩

/-- Gives its argument as it was before it stored another number there. -/
def storingMethod : Method :=
  { id := .defined ⟨0, ""⟩ 0, name := "Store", owner := none, params := [⟨"a", .prim .int32⟩], ret := .prim .int32,
    isStatic := true, isCtor := false, body := some storingBody, token := ⟨0x06000001⟩, scope := ⟨0, ""⟩ }

def storingWorld : Universe := worldOf #[storingMethod]

def storingFunction : Function :=
    { id := ⟨0⟩, name := "Store", signature := .func .i32 [.i32], params := [⟨"a", .i32⟩] }

def storingLowering : Compile Nat :=
  lowerBody storingWorld (compileMethod storingWorld 1) storingMethod storingBody [.prim .int32] storingFunction

def stored : CompilationUnit := (storingLowering.run.run (openUnit storingFunction)).2

theorem slots_read_by_value_stored : Houses storingFunction.id storingFunction (openUnit storingFunction) ∧
    Consistent storingWorld ∧ Compiles storingLowering (openUnit storingFunction) 1 stored ∧
    ∃ site, discoverBlocks storingBody.code = .ok site.spans ∧ ∀ k sp, site.spans[k]? = some sp → ∀ n next,
    Next sp n next →
      ∃ s u₁ s' u', Midway storingWorld (compileMethod storingWorld 1) storingMethod storingBody
      [.prim .int32] storingFunction
          (openUnit storingFunction) site k sp n s u₁ ∧
        Lowers next site s u₁ ⟨⟩ s' u' ∧ ∀ n₀ s₀ u₀ v, Midway storingWorld (compileMethod storingWorld 1) storingMethod
            storingBody [.prim .int32] storingFunction (openUnit storingFunction) site k sp n₀ s₀ u₀ →
          Pends site sp.start s₀ u₀ v s u₁ → ∃ F B w, Houses ⟨0⟩ F u₀ ∧ F.blocks[k + 1]? = some B ∧
            w.At s₀.pending.length s.pending ∧ TakenByValue stored.module ⟨⟨0⟩, k + 1⟩ site.top v
            B.instrs.length u' w := by
  have hc : Compiles storingLowering (openUnit storingFunction) 1 stored := .of_toOption (by decide +kernel)
  exact ⟨openUnit_houses rfl, worldOf_single rfl, hc, slots_read_by_value (openUnit_houses rfl) (worldOf_single rfl) hc⟩

end CilSsa.Lowering

