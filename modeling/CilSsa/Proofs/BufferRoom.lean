import CilSsa.Proofs.StoredValues
import CilSsa.Proofs.BitVectors
import CilSsa.Proofs.IntegerMethods
import CilSsa.Proofs.BodyStages
import CilSsa.Proofs.FailedConversions
import CilSsa.Proofs.PassSteps

/-! Reservations are exact as long as nothing wraps around. Where the true sum does not fit, the cut one may still
be within the limit. -/

namespace CilSsa.Machine

open CilSsa.Ssa CilSsa.Number CilSsa.Text

/-- Out of a region `n` bytes were given from an address on. None of them was in use before, the region now ends with
them, and what is written to them is read from them. -/
structure Engine.Reserves (region : Memory → Region) (e : Engine) (n : Nat) (a : UInt64) (d : Engine) : Prop where
  above : (region e.memory).base.toNat + (region e.memory).top ≤ a.toNat
  ends : a.toNat + n = (region d.memory).base.toNat + (region d.memory).top
  usable : ∀ bs : Bytes, bs.length = n → ∃ d', Engine.write a bs d = (.ok (), d') ∧ Engine.read a n d' = (.ok bs, d')

/-- Asked for `n` bytes the engine gave exactly these, or refused with a fault and left memory as it was. -/
def Engine.ExactOrRefused (region : Memory → Region) (e : Engine) (n : Int) : Except EngineError UInt64 × Engine → Prop
  | (.ok a, d) => ∃ k : Nat, n = k ∧ Engine.Reserves region e k a d
  | (.error x, d) => (∃ f, x = .fault f) ∧ d.memory = e.memory

def Engine.Follows (region : Memory → Region) (e : Engine) (answer : Except ReserveError (UInt64 × Nat))
    (r : Except EngineError UInt64 × Engine) : Prop :=
  match answer with
  | .ok (a, stop) => r.1 = .ok a ∧ r.2.closed = false ∧ region r.2.memory = (region e.memory).grow stop
  | .error .exhausted => (∃ f, r.1 = .error (.fault f)) ∧ r.2.memory = e.memory
  | .error .wrapped => r.1 = .error .meaningless

section

variable {m : Module} {limits : Limits} {trace : List String} {e d : Engine} {t : Ty} {r : Region}
  {need size limit : Int} {a : UInt64} {align stop k : Nat} {l : Layout} {i : Instr} {n : UInt64}
  {region : Memory → Region}
  {res : Except EngineError UInt64 × Engine}

/-! ### Regions -/

theorem Engine.Reserves.of_grown (hregion : ∀ mem a n, (region mem).Holds a n → mem.Holds a n)
    (hopen : d.closed = false)
    (hgrown : region d.memory = (region e.memory).grow (Region.alignUp (region e.memory).top align + k))
    (hsmall : (region e.memory).base.toNat + (Region.alignUp (region e.memory).top align + k) < 2 ^ 64) :
    Engine.Reserves region e k ((region e.memory).base + (Region.alignUp (region e.memory).top align).toUInt64) d := by
  have hle := Region.le_alignUp (region e.memory).top align
  have htop := Region.top_grow (region e.memory) (Region.alignUp (region e.memory).top align + k)
  have hbase : (region d.memory).base = (region e.memory).base := by rw [hgrown]; rfl
  rw [← hgrown] at htop
  generalize Region.alignUp (region e.memory).top align = start at *
  have ha : ((region e.memory).base + start.toUInt64).toNat = (region e.memory).base.toNat + start := by
    rw [UInt64.toNat_add, UInt64.toNat_ofNat']
    omega
  have hm : d.memory.Holds ((region e.memory).base + start.toUInt64) k := by
    refine hregion _ _ _ ⟨?_, by omega, ?_⟩
    · rw [UInt64.le_iff_toNat_le, ha, hbase]
      omega
    · rw [ha, hbase, htop]
      omega
  refine ⟨by omega, by rw [ha, hbase, htop]; omega, fun bs hbs ↦ ?_⟩
  rw [← hbs] at hm ⊢
  refine ⟨_, (Engine.write_ok hopen).mpr ⟨hm, rfl⟩, ?_⟩
  refine (Engine.read_ok ?_).mpr ⟨Memory.read?_write hm, rfl⟩
  exact hopen

theorem stackAlloc_refused (trace : List String) (h : e.Knows m) (hl : Layouts.LaidOut m .host t l) {count : Int}
    {x : ReserveError} (hroom : e.memory.stack.room (wrapInt (l.size * count)) l.align e.limits.stackSize = .error x) :
    ∃ s d, (stackAlloc m trace t count).run.run e = (.error s, d) ∧ d.memory = e.memory ∧
      (x = .exhausted ∧ (∃ f, s = .fault f) ∨ x = .wrapped ∧ s = .meaningless) := by
  obtain ⟨c, hsize, hmemory, hlimits, hknows⟩ := sizeOf_ok trace h hl
  unfold stackAlloc
  rw [run_bind_ok hsize, run_bind_ok run_get, hknows.alignOf hl]
  unfold takeStack
  rw [run_bind_ok run_get, hmemory, hlimits, hroom]
  cases x with
  | exhausted => exact ⟨_, c, rfl, hmemory, .inl ⟨rfl, _, rfl⟩⟩
  | wrapped => exact ⟨_, c, rfl, hmemory, .inr ⟨rfl, rfl⟩⟩

end

end CilSsa.Machine

/-!
The buffer of the run-time stack. Lowering writes its size into a constant of 32 bits at the head of a function, and no
pass changes it. The engine sets as many bytes aside as the cut constant says. These are as many as lowering counts
with, or there is a fault, as long as lowering counts with fewer than 2³² bytes; beyond that there may be fewer.
-/

namespace CilSsa.Ssa

open CilSsa.Number

/-- Sets bytes aside, as many as the number in a constant of 32 bits that was made from `size`. -/
structure Instr.Buffers (i : Instr) (size : Int) : Prop where
  op : i.op = .alloca
  allocated : i.allocated = .i8
  type : i.type = .pointer .i8
  count : ∃ o, i.operands = [some (.const (.ofInt .i32 (wordOfInt size)) o)]

def Function.HasBuffer (F : Function) (size : Int) : Prop := ∃ i, F.instrs[0]? = some i ∧ i.Buffers size

def Function.StartsAtFirst (F : Function) : Prop := ∃ B ks, F.blocks[0]? = some B ∧ B.instrs = 0 :: ks

end CilSsa.Ssa

namespace CilSsa.Passes

open CilSsa.Ssa

theorem hasBuffer_modify {f : Function} {size : Int} {k : Nat} {g : Instr → Instr} (h : f.HasBuffer size)
    (hg : ∀ i : Instr, i.Buffers size → (g i).Buffers size) (bs : Array Ssa.Block) :
    Function.HasBuffer { f with instrs := f.instrs.modify k g, blocks := bs } size := by
  obtain ⟨i, hi, hbuffers⟩ := h
  by_cases hk : k = 0
  · refine ⟨g i, ?_, hg i hbuffers⟩
    rw [Array.getElem?_modify, if_pos hk, hi]
    rfl
  · refine ⟨i, ?_, hbuffers⟩
    rw [Array.getElem?_modify, if_neg hk, hi]

theorem hasBuffer_removeFrom {f : Function} {size : Int} (h : f.HasBuffer size) (b k : Nat) :
    (f.removeFrom b k).HasBuffer size := by
  unfold Function.removeFrom
  split
  · exact hasBuffer_modify (g := fun x ↦ { x with home := none }) h
      (fun i hi ↦ ⟨hi.op, hi.allocated, hi.type, hi.count⟩) _
  · exact h

theorem hasBuffer_replaceOperand {f : Function} {size : Int} (h : f.HasBuffer size) (j : Nat) {old : Value}
    (hold : old.const? = none) (new : Option Value) : (f.replaceOperand j (some old) new).HasBuffer size := by
  unfold Function.replaceOperand
  refine hasBuffer_modify (g := fun x ↦ { x with operands := x.operands.map fun v ↦ if v = some old then new else v }) h
    (fun i hi ↦ ⟨hi.op, hi.allocated, hi.type, ?_⟩) _
  obtain ⟨o, ho⟩ := hi.count
  refine ⟨o, ?_⟩
  dsimp only
  rw [ho, List.map_singleton, if_neg]
  intro heq
  cases heq
  cases hold

theorem hasBuffer_replaceAllUses {f : Function} {size : Int} (h : f.HasBuffer size) (k : Nat) (v : Value) :
    (f.replaceAllUses (f.result k) v).HasBuffer size := by
  unfold Function.replaceAllUses
  exact List.foldlRecOn (motive := fun g : Function ↦ g.HasBuffer size) f.instructions _ h
    fun g hg p _ ↦ hasBuffer_replaceOperand hg p.1 rfl _

theorem hasBuffer_reassociate {f : Function} {size : Int} (h : f.HasBuffer size) :
    (reassociate f).f.HasBuffer size := by
  unfold reassociate
  refine List.foldlRecOn (motive := fun c : Changing ↦ c.f.HasBuffer size) f.instructions _ h fun c hc p hp ↦ ?_
  obtain ⟨k, i⟩ := p
  dsimp only
  split
  · rename_i i' hi'
    obtain ⟨j, hj, hbuffers⟩ := hc
    refine ⟨j, ?_, hbuffers⟩
    dsimp only
    rw [Array.set!_eq_setIfInBounds, Array.getElem?_setIfInBounds_ne, hj]
    rintro rfl
    obtain ⟨b, hlists⟩ := (Function.mem_instructions f).mp hp
    obtain ⟨x, hx, hbuffers⟩ := h
    cases hx.symm.trans hlists.found
    obtain ⟨o, ho⟩ := hbuffers.count
    simp only [reassociated?, ho] at hi'
    cases hi'
  · exact hc

theorem hasBuffer_covers (size : Int) : Covers fun f g ↦ f.HasBuffer size → g.HasBuffer size where
  refl _ h := h
  trans h h' := h' ∘ h
  removed _ b k h := hasBuffer_removeFrom h b k
  exchanged _ k v h := hasBuffer_replaceAllUses h k v
  reassociated _ := hasBuffer_reassociate

end CilSsa.Passes

namespace CilSsa.Machine

open CilSsa.Ssa CilSsa.Number

/-- The step that a frame makes at its first instruction gives it an address for exactly `n` bytes of the stack, or it
is refused with a fault and memory stays as it was. -/
def Frame.SetsAside (m : Module) (fr : Frame) (callers : List Frame) (e : Engine) (n : Int) : Prop :=
  ∃ (answer : Except Stop UInt64) (d : Engine), Engine.ExactOrRefused (·.stack) e n (answer.mapError Stop.error, d) ∧
    (step m (fr :: callers)).run.run e = (answer.map fun a ↦
      .running ({ fr with values := fr.values.insert ⟨fr.block.fn, 0⟩ a, rest := fr.rest.tail } :: callers), d)

section

variable {m : Module} {limits : Limits} {e : Engine} {fr : Frame} {callers : List Frame} {rest : List Nat} {i : Instr}
  {F : Function} {size : Int}

theorem intOfWord_patternOf (size : Int) : intOfWord (patternOf 32 size) = size.bmod (2 ^ 32) := by
  have hbits : patternOf 32 size = patternOfBits (BitVec.ofInt 32 size) := by
    rw [← UInt64.toBitVec_inj, toBitVec_patternOf (by decide) (by decide), toBitVec_patternOfBits]
  rw [hbits, intOfWord_patternOfBits (by decide), BitVec.toInt_ofInt]

theorem step_buffer (hrest : fr.rest = 0 :: rest) (hi : m.instr? ⟨fr.block.fn, 0⟩ = some i) (hbuffers : i.Buffers size)
    {answer : Except Stop UInt64} {d : Engine}
    (hrun : (compute m ((fr :: callers).map (·.name)) i [patternOf 32 size]).run.run e = (answer, d)) :
    (step m (fr :: callers)).run.run e = (answer.map fun a ↦
      .running ({ fr with values := fr.values.insert ⟨fr.block.fn, 0⟩ a, rest := fr.rest.tail } :: callers), d) := by
  obtain ⟨o, ho⟩ := hbuffers.count
  have hops : (i.operands.mapM (operand m ((fr :: callers).map (·.name)) fr)).run.run e =
      (.ok [patternOf 32 size], e) := by
    rw [ho]
    rfl
  have hvalue : i.hasValue = true := by
    rw [Instr.hasValue, hbuffers.type]
    rfl
  have hadvance : ∀ a, fr.advance i a =
      { fr with values := fr.values.insert ⟨fr.block.fn, 0⟩ a, rest := fr.rest.tail } := by
    intro a
    simp only [Frame.advance, hrest, hvalue, if_true, List.tail_cons]
  have hstep : (step m (fr :: callers)).run.run e = (do
      let v ← compute m ((fr :: callers).map (·.name)) i [patternOf 32 size]
      return .running (fr.advance i v :: callers) : Run Progress).run.run e := by
    unfold step
    simp only [hrest, hi]
    rw [run_bind_ok hops, hbuffers.op]
  cases answer with
  | error s =>
    rw [hstep, run_bind_error hrun]
    rfl
  | ok a =>
    rw [hstep, run_bind_ok hrun, hadvance]
    rfl

variable (he : e.Low m limits) (hroom : e.memory.stack.top + 2 ^ 32 < 2 ^ 63) (hrest : fr.rest = 0 :: rest)
  (hi : m.instr? ⟨fr.block.fn, 0⟩ = some i) (hbuffers : i.Buffers size)

include he hroom hbuffers

theorem compute_buffer (trace : List String) :
    if size.bmod (2 ^ 32) < 0 ∨ limits.stackSize < e.memory.stack.top + size.bmod (2 ^ 32) then
      ∃ f d, (compute m trace i [patternOf 32 size]).run.run e = (.error (.fault f), d) ∧ d.memory = e.memory
    else ∃ a k d, (compute m trace i [patternOf 32 size]).run.run e = (.ok a, d) ∧ size.bmod (2 ^ 32) = (k : Nat) ∧
      a.toNat = e.memory.stack.base.toNat + e.memory.stack.top ∧ Engine.Reserves (·.stack) e k a d := by
  have hlt : size.bmod (2 ^ 32) < 2 ^ 31 := Int.bmod_lt (by decide)
  have hcount := intOfWord_patternOf size
  by_cases hneg : size.bmod (2 ^ 32) < 0
  · rw [if_pos (.inl hneg)]
    unfold compute
    rw [hbuffers.op]
    dsimp only
    rw [hcount, if_pos hneg]
    exact ⟨_, e, rfl, rfl⟩
  obtain ⟨k, hk⟩ := Int.eq_ofNat_of_zero_le (Int.not_lt.mp hneg)
  have hl : Layouts.LaidOut m .host .i8 (.scalar 1) := ⟨1, rfl⟩
  have hcompute : compute m trace i [patternOf 32 size] = stackAlloc m trace .i8 k := by
    unfold compute
    rw [hbuffers.op, hbuffers.allocated]
    dsimp only
    rw [hcount, if_neg hneg, hk]
  have hasked : e.memory.stack.room (wrapInt ((Layout.scalar 1).size * k)) (Layout.scalar 1).align e.limits.stackSize =
      if (Region.alignUp e.memory.stack.top 1 + k : Nat) ≤ limits.stackSize then
        .ok (e.memory.stack.base + (Region.alignUp e.memory.stack.top 1).toUInt64,
          Region.alignUp e.memory.stack.top 1 + k)
      else .error .exhausted := by
    have hone : ((Layout.scalar 1).size : Int) * k = k := Int.one_mul _
    rw [hone, wrapInt_of_lt (by omega), he.bounds]
    refine Region.room_eq ?_
    show e.memory.stack.top + k < _
    omega
  have htop : Region.alignUp e.memory.stack.top 1 = e.memory.stack.top := rfl
  rw [hcompute, hk]
  by_cases hlimit : limits.stackSize < e.memory.stack.top + (k : Int)
  · rw [if_pos (.inr hlimit)]
    rw [if_neg (by rw [htop]; push_cast; omega)] at hasked
    obtain ⟨s, d, hrun, hmemory, ⟨-, f, rfl⟩ | ⟨hwrapped, -⟩⟩ := stackAlloc_refused trace he.knows hl hasked
    · exact ⟨f, d, hrun, hmemory⟩
    · cases hwrapped
  · rw [if_neg (not_or.mpr ⟨by omega, hlimit⟩)]
    rw [if_pos (by rw [htop]; push_cast; omega)] at hasked
    obtain ⟨d, hrun, hmemory⟩ := stackAlloc_ok trace he.knows hl hasked
    have hbase : e.memory.stack.base.toNat < 2 ^ 63 := by
      rw [he.stack]
      decide
    refine ⟨_, k, d, hrun, rfl, ?_, .of_grown (fun _ _ _ ↦ .inl) (he.stackAlloc hrun).usable (by rw [hmemory])
      (by rw [htop]; omega)⟩
    rw [htop, UInt64.toNat_add, UInt64.toNat_ofNat']
    omega

include hrest hi

theorem setsAside_cut : fr.SetsAside m callers e (size.bmod (2 ^ 32)) := by
  have hcompute := compute_buffer he hroom hbuffers ((fr :: callers).map (·.name))
  split at hcompute
  · obtain ⟨f, d, hrun, hmemory⟩ := hcompute
    exact ⟨.error (.fault f), d, ⟨⟨f, rfl⟩, hmemory⟩, step_buffer hrest hi hbuffers hrun⟩
  · obtain ⟨a, k, d, hrun, hk, -, hreserves⟩ := hcompute
    exact ⟨.ok a, d, ⟨k, hk, hreserves⟩, step_buffer hrest hi hbuffers hrun⟩

theorem setsAside_iff (hsize : 0 ≤ size) : fr.SetsAside m callers e size ↔ size.bmod (2 ^ 32) = size ∨
    size.bmod (2 ^ 32) < 0 ∨ limits.stackSize < e.memory.stack.top + size.bmod (2 ^ 32) := by
  have hcompute := compute_buffer he hroom hbuffers ((fr :: callers).map (·.name))
  constructor
  · rintro ⟨answer, d', hexact, hstep⟩
    by_cases hrefused : size.bmod (2 ^ 32) < 0 ∨ limits.stackSize < e.memory.stack.top + size.bmod (2 ^ 32)
    · exact .inr hrefused
    rw [if_neg hrefused] at hcompute
    obtain ⟨a, k, d, hrun, hk, ha, hreserves⟩ := hcompute
    rw [step_buffer hrest hi hbuffers hrun] at hstep
    cases answer with
    | error s => cases hstep
    | ok a' =>
      obtain rfl : d = d' := (Prod.mk.inj hstep).2
      obtain ⟨k', hk', hreserves'⟩ : ∃ k' : Nat, size = k' ∧ Engine.Reserves (·.stack) e k' a' d := hexact
      have habove := hreserves'.above
      have hends := hreserves'.ends.trans hreserves.ends.symm
      refine .inl ?_
      rw [Int.bmod_def] at hk ⊢
      omega
  · rintro (heq | hrefused)
    · have hcut : fr.SetsAside m callers e (size.bmod (2 ^ 32)) := setsAside_cut he hroom hrest hi hbuffers
      rwa [heq] at hcut
    · rw [if_pos hrefused] at hcompute
      obtain ⟨f, d, hrun, hmemory⟩ := hcompute
      exact ⟨.error (.fault f), d, ⟨⟨f, rfl⟩, hmemory⟩, step_buffer hrest hi hbuffers hrun⟩

end

end CilSsa.Machine

namespace CilSsa.Lowering

open CilSsa.Bytecode CilSsa.Metadata CilSsa.Machine
open CilSsa.SlotMachine (entryFrame)
open CilSsa.Ssa (FuncId Function)

/-- The head of the code sets the buffer aside. -/
structure Opens (size : Int) (F : Function) : Prop where
  buffer : F.HasBuffer size
  first : F.StartsAtFirst

section

variable {fn f : FuncId} {F F' g : Function} {size : Int} {world : Universe} {fuel : Nat} {m : Method} {body : Body}
  {args : List Ty} {u u' v : CompilationUnit}

theorem Opens.outgrows (h : Opens size F) (hF : Outgrows F F') : Opens size F' := by
  obtain ⟨⟨i, hi, hbuffers⟩, B, ks, hB, hks⟩ := h
  obtain ⟨ks', happ⟩ := hF 0
  refine ⟨⟨i, happ.earlier 0 i hi, hbuffers⟩, _, ks ++ ks', happ.block B hB, ?_⟩
  rw [hks, List.cons_append]

theorem setting_makeBuffer_opens (size : Int) : Setting fn (fun F ↦ Blank F ∧ ∃ B, F.blocks[0]? = some B)
    (makeBuffer size) fun _ ↦ Opens size := by
  rintro s u p s' u' F he rfl hF ⟨hblank, B, hB⟩
  obtain ⟨c, s₁, u₁, hconst, he⟩ := Emits.bind_iff.mp he
  obtain ⟨rfl, rfl, rfl⟩ := intConst_stage hconst
  obtain ⟨b, s₂, u₂, halloca, he⟩ := Emits.bind_iff.mp he
  obtain ⟨rfl, -, hF₁⟩ := emitAt_inv halloca hF
  have hsize : F.instrs.size = 0 := by rw [hblank.instrs]; rfl
  have hopens : Opens size (F.append 0 (.arrayAlloca .i8
      (some (.const (.ofInt .i32 (Number.wordOfInt size)) (.made s.constants))) "evalstack")).1 := by
    refine ⟨⟨_, hsize ▸ append_found _, rfl, rfl, rfl, _, rfl⟩, _, [], append_block hB _, ?_⟩
    rw [hblank.blocks 0 B hB, hsize]
    rfl
  have hrest : Setting s.fn (Opens size) (do
      let top ← slotFor .bytePointer "evalstack.top"
      let _ ← emitAt 0 (.store b top)
      return top) fun _ ↦ Opens size := .safe (fun hF h ↦ h.outgrows hF) fun F ↦ by grind
  obtain ⟨hfn, F', hF', hgrew, hF'opens⟩ := hrest _ _ _ _ _ _ he rfl hF₁ hopens
  exact ⟨hfn, F', hF', (outgrows_append F 0 _).trans hgrew, hF'opens⟩

theorem setting_prepare_opens (compile : Method → Compile FuncId) (spans : List Bytecode.Span) :
    Setting fn (fun F ↦ Blank F ∧ ∃ B, F.blocks[0]? = some B) (prepare world compile m body args g spans)
      fun _ ↦ Opens (bufferSize body.maxStack) := by
  refine (setting_makeBuffer_opens _).bind fun top ↦ .safe (fun hF h ↦ h.outgrows hF) fun F ↦ ?_
  refine Safe.bind (.mapM fun p _ ↦ safe_bindArgument _ fun _ ↦ Growable.safe_slotFor _ _) fun vs ↦
    .bind (.mapM fun p _ ↦ ?_) fun ws ↦ .pure _
  exact safe_bindLocal (fun t ↦ (leaves_compileType _ _ t).lengthened) _ _

theorem lowerBody_opens {count : Nat} (hg : Houses g.id g u) (hblank : Blank g) (hworld : Consistent world)
    (hc : Compiles (lowerBody world (compileMethod world fuel) m body args g) u count v) :
    ∃ F, Houses g.id F v ∧ Opens (bufferSize body.maxStack) F := by
  obtain ⟨spans, u₀, site, s, u₁, s', u₂, p, s'', hspans, hblocks, hprepare, hlower, hbranch⟩ := lowerBody_inv hc
  obtain ⟨F₀, hF₀, hsize, hkept⟩ := addBlocks_houses hg hblocks
  have hfirst : 0 < F₀.blocks.size := by
    rw [hsize, List.length_cons]
    omega
  obtain ⟨hfn, F₁, hF₁, -, hopens⟩ := setting_prepare_opens _ _ _ _ _ _ _ _ hprepare rfl hF₀
    ⟨hkept Blank (fun _ name h ↦ h.addBlock name) hblank, _, Array.getElem?_eq_getElem hfirst⟩
  have hbetween : Between world (compileMethod world fuel) m body args g u site s u₁ :=
    .prepared hspans hblocks hprepare
  obtain ⟨-, F₁', -, hfurnished⟩ := hbetween.furnished hg hworld
  obtain ⟨hfn', hblocks'⟩ := continues_of_safe hF₁ (fun F ↦ by
    have := supports_lengthened (F := F) hfurnished.leaves
    exact Safe.forM fun p _ ↦ safe_lowerTraced _ _) hlower hfn
  obtain ⟨F₂, hF₂, hgrew⟩ := hblocks' F₁ hF₁
  obtain ⟨F₃, hF₃, hgrew'⟩ := (continues_of_safe hF₂ (fun F ↦ safe_emitAt 0 Ssa.Instr.hinted_br) hbranch hfn').2 F₂ hF₂
  exact ⟨F₃, hF₃, (hopens.outgrows hgrew).outgrows hgrew'⟩

theorem argumentTypes_unit {ts : List Ty} (hc : Compiles (argumentTypes m) u ts u') : u' = u := by
  unfold argumentTypes at hc
  dsimp only at hc
  split at hc
  · split at hc
    · exact (Compiles.pure_iff.mp hc).2.symm
    · exact absurd hc Compiles.throw_iff
  · exact (Compiles.pure_iff.mp hc).2.symm

theorem compileMethod_inv (hnum : Numbered u.module) (hbody : m.body = some body) (hnew : u.methods.lookup m.id = none)
    (hc : Compiles (compileMethod world fuel m) u f u') : ∃ fuel' args g v, Houses g.id g v ∧ g.id = f ∧ Blank g ∧
      Compiles (buildBody world (compileMethod world fuel') m body args f) v ⟨⟩ u' := by
  cases fuel with
  | zero => exact absurd hc Compiles.throw_iff
  | succ fuel =>
  rw [compileMethod] at hc
  obtain ⟨_, _, hget, hc⟩ := Compiles.bind_iff.mp hc
  obtain ⟨rfl, rfl⟩ := Compiles.get_iff.mp hget
  simp only [hnew, hbody] at hc
  obtain ⟨args, u₁, hargs, hc⟩ := Compiles.bind_iff.mp hc
  obtain ⟨sig, u₂, hsig, hc⟩ := Compiles.bind_iff.mp hc
  obtain ⟨f', u₃, hregister, hc⟩ := Compiles.bind_iff.mp hc
  obtain ⟨_, _, hbuild, hc⟩ := Compiles.bind_iff.mp hc
  obtain ⟨rfl, rfl⟩ := Compiles.pure_iff.mp hc
  obtain rfl := argumentTypes_unit hargs
  have hadded : Added f' u₁ u₂ := (spec_signature_keeps (fun _ hu ↦ hu) spec_codeType_added m args u₁ (.refl f' hnum)).1
    sig u₂ hsig
  obtain ⟨codes, _, -, hret⟩ := Compiles.bind_iff.mp hsig
  obtain ⟨ret, _, -, hret⟩ := Compiles.bind_iff.mp hret
  obtain ⟨rfl, rfl⟩ := Compiles.pure_iff.mp hret
  obtain ⟨g, hg, -, hindex, -, -, hblocks, hinstrs, -, journal, rfl⟩ := register_code hregister
  have hid := hg.trans hindex
  refine ⟨fuel, args, g, _, ⟨hadded.numbered.withFunction hid, ?_⟩, hg, .of_empty hinstrs hblocks, hbuild⟩
  simp [Ssa.Module.function?, withFunction, hid]

end

/-- What the buffer of a compiled method comes to. It is the first that the function of the method sets aside, and
nothing comes before it in a call as long as there are no passes. Lowering counts on `bufferSize` bytes, and as many are
set aside as remain of them in 32 bits, with their sign. So there are as many as lowering counts on, or a fault, if and
only if nothing was cut, the rest is negative, or there is no room for it; below 2³² bytes there always are. -/
theorem buffer_room {world : Universe} {fuel : Nat} {m : Method} {body : Body} {f : FuncId} {u u' : CompilationUnit}
    (hworld : Consistent world) (hnum : Numbered u.module) (hbody : m.body = some body)
    (hnew : u.methods.lookup m.id = none) (hc : Compiles (compileMethod world fuel m) u f u') :
    ∃ F, u'.module.function? f = some F ∧ (u'.optimize = false → F.StartsAtFirst) ∧
      ∀ (module : Ssa.Module) (limits : Limits) (e : Engine) (fr : Frame) (callers : List Frame) (rest : List Nat),
        module.function? f = some F → e.Low module limits → e.memory.stack.top + 2 ^ 32 < 2 ^ 63 → fr.block.fn = f →
        fr.rest = 0 :: rest →
        fr.SetsAside module callers e ((bufferSize body.maxStack).bmod (2 ^ 32)) ∧
        (fr.SetsAside module callers e (bufferSize body.maxStack) ↔
          (bufferSize body.maxStack).bmod (2 ^ 32) = bufferSize body.maxStack ∨
          (bufferSize body.maxStack).bmod (2 ^ 32) < 0 ∨
            limits.stackSize < e.memory.stack.top + (bufferSize body.maxStack).bmod (2 ^ 32)) ∧
        (bufferSize body.maxStack < 2 ^ 32 → fr.SetsAside module callers e (bufferSize body.maxStack)) := by
  obtain ⟨fuel', args, g, v, hg, rfl, hblank, hbuild⟩ := compileMethod_inv hnum hbody hnew hc
  obtain ⟨tracing, spans, count, w, hlower, hbuilt⟩ := buildBody_inv hg.found hbuild
  obtain ⟨G, hG, hopens⟩ := lowerBody_opens (u := { v with tracing, spans }) (hg.of_functions rfl rfl)
    hblank hworld hlower
  obtain ⟨-, tracing', spans', rfl⟩ := hbuilt G hG.found
  have hsize : 0 ≤ bufferSize body.maxStack := le_max_of_le_right (by decide)
  obtain ⟨F, hF, hbuffer, hfirst⟩ : ∃ F, (if w.optimize then
      w.module.modifyFunction g.id fun _ ↦ (Passes.runPasses Passes.Pass.all G).1 else w.module).function? g.id =
        some F ∧
      F.HasBuffer (bufferSize body.maxStack) ∧ (w.optimize = false → F.StartsAtFirst) := by
    cases w.optimize with
    | true =>
      exact ⟨_, function?_modify hG.found _, (Passes.hasBuffer_covers _).runPasses _ _ hopens.buffer,
        fun h ↦ by cases h⟩
    | false => exact ⟨G, hG.found, hopens.buffer, fun _ ↦ hopens.first⟩
  refine ⟨F, hF, hfirst, fun module limits e fr callers rest hmodule he hroom hfn hrest ↦ ?_⟩
  obtain ⟨i, hi, hbuffers⟩ := hbuffer
  have hinstr : module.instr? ⟨fr.block.fn, 0⟩ = some i := by
    simp only [Ssa.Module.instr?, hfn, hmodule, Option.bind_some]
    exact hi
  refine ⟨setsAside_cut he hroom hrest hinstr hbuffers, setsAside_iff he hroom hrest hinstr hbuffers hsize,
    fun hlt ↦ ?_⟩
  refine (setsAside_iff he hroom hrest hinstr hbuffers hsize).mpr ?_
  rw [Int.bmod_def]
  omega

def freshEngine : Engine := { limits := .ofRequest 0 0 0 }

theorem freshEngine_low (module : Ssa.Module) : freshEngine.Low module (.ofRequest 0 0 0) :=
  ⟨⟨rfl, rfl, rfl, Nat.two_pow_pos 63, le_max_left _ _, rfl, ⟨rfl, nofun⟩⟩, Nat.two_pow_pos 63⟩

theorem newUnit_numbered : Numbered (newUnit false).module := ⟨nofun, nofun⟩

/-- For eight operands 64 bytes are set aside. -/
theorem buffer_room_eight : ∃ F, (oneUnit 8).module.function? ⟨0⟩ = some F ∧ ∃ B, F.blocks[0]? = some B ∧
    (entryFrame F [] B).SetsAside (oneUnit 8).module [] freshEngine 64 := by
  have hg : getMethod (oneWorld 8) (oneMethod 8) (newUnit false) = (.ok ⟨0⟩, oneUnit 8) :=
    Prod.ext (ok_of_toOption (by decide +kernel)) rfl
  obtain ⟨-, v, hc, hv⟩ := request_ok.mp hg
  obtain ⟨F, hF, hfirst, hsteps⟩ := buffer_room (worldOf_single rfl) newUnit_numbered rfl rfl hc
  have hunit : oneUnit 8 = { v with journal := {} } := hv
  have hmodule : (oneUnit 8).module = v.module := by rw [hunit]
  have hoff : v.optimize = false := by
    have : (oneUnit 8).optimize = false := by decide +kernel
    rwa [hunit] at this
  obtain ⟨B, ks, hB, hks⟩ := hfirst hoff
  rw [← hmodule] at hF
  have hid : F.id = ⟨0⟩ := by
    have : ((oneUnit 8).module.function? ⟨0⟩).map (·.id) = some ⟨0⟩ := by decide +kernel
    rw [hF] at this
    exact Option.some.inj this
  exact ⟨F, hF, B, hB, (hsteps _ _ _ (entryFrame F [] B) [] ks hF (freshEngine_low _) (by decide) hid hks).2.2
    (by decide)⟩

/-- Lowering counts on 2³² bytes for 2²⁹ operands, and none is set aside. -/
theorem half_a_gigabyte_of_operands : bufferSize 536870912 = 2 ^ 32 ∧
    ∃ F, (oneUnit 536870912).module.function? ⟨0⟩ = some F ∧ ∃ B, F.blocks[0]? = some B ∧
      ¬ (entryFrame F [] B).SetsAside (oneUnit 536870912).module [] freshEngine (2 ^ 32) := by
  refine ⟨by decide, ?_⟩
  have hprobe : (((oneUnit 536870912).module.function? ⟨0⟩).bind fun F ↦ F.blocks[0]?.map fun B ↦
      let r := (step (oneUnit 536870912).module [entryFrame F [] B]).run.run freshEngine
      (r.1.toOption.isSome, r.2.memory.stack.base, r.2.memory.stack.top)) = some (true, stackBase, 0) :=
        by decide +kernel
  obtain ⟨F, hF, hprobe⟩ := Option.bind_eq_some_iff.mp hprobe
  obtain ⟨B, hB, hprobe⟩ := Option.map_eq_some_iff.mp hprobe
  refine ⟨F, hF, B, hB, ?_⟩
  rintro ⟨answer, d, hexact, hstep⟩
  dsimp only at hprobe
  rw [hstep] at hprobe
  obtain ⟨hok, hrest⟩ := Prod.mk.inj hprobe
  obtain ⟨hbase, htop⟩ := Prod.mk.inj hrest
  cases answer with
  | error s => cases hok
  | ok a =>
    obtain ⟨k, hk, hreserves⟩ : ∃ k : Nat, (2 ^ 32 : Int) = k ∧ Engine.Reserves (·.stack) freshEngine k a d := hexact
    have habove := hreserves.above
    have hends := hreserves.ends
    have hstart : freshEngine.memory.stack.base = stackBase := rfl
    dsimp only at habove hends hbase htop
    rw [hbase, htop] at hends
    rw [hstart] at habove
    omega

end CilSsa.Lowering

