import CilSsa.Proofs.MachineRuns

/-! The machine does what the slot machine does: each slot lies somewhere on the stack, and an address is the place
of its slot moved by its offset. -/

namespace CilSsa.SlotMachine

open CilSsa.Ssa CilSsa.Number CilSsa.Text CilSsa.Machine

/-- The pattern of a datum where slot `s` lies `base s` bytes above the bottom of the stack. -/
def Datum.bits (base : Nat → Nat) : Datum → UInt64
  | .word v => v
  | .place s o => stackBase + (base s).toUInt64 + o

def Datum.Known (σ : Store) (d : Datum) : Prop := ∀ s o, d = .place s o → (σ.slots s).isSome

/-- The bytes from `start` on are those of the cells of a slot. -/
structure Holds (bytes : Bytes) (base : Nat → Nat) (start : Nat) (sl : Slot) : Prop where
  room : start + sl.bytes ≤ bytes.length
  cell : ∀ j d, sl.cells[j]? = some d →
    slice bytes (start + sl.width * j) sl.width = littleEndian sl.width (d.bits base).toNat
  kept : ∀ d ∈ sl.cells, Kept sl.width (d.bits base)

/-- The slots lie apart on the stack of an engine. -/
structure Backed (base : Nat → Nat) (σ : Store) (e : Engine) : Prop where
  slots : ∀ k sl, σ.slots k = some sl → Holds e.memory.stack.bytes base (base k) sl
  apart : ∀ k k' sl sl', k ≠ k' → σ.slots k = some sl → σ.slots k' = some sl' →
    base k + sl.bytes ≤ base k' ∨ base k' + sl'.bytes ≤ base k
  known : ∀ k sl d, σ.slots k = some sl → d ∈ sl.cells → d.Known σ
  bottom : e.memory.stack.base = stackBase
  top : e.memory.stack.top = σ.height
  small : σ.height < 2 ^ 63
  layouts : e.layouts.Plain

/-- A frame has computed what a store has. -/
structure Framed (F : Function) (args : List UInt64) (base : Nat → Nat) (σ : Store) (fr : Frame) : Prop where
  values : ∀ k d, σ.values k = some d → fr.values[(⟨F.id, k⟩ : InstrId)]? = some (d.bits base) ∧ d.Known σ
  args : fr.args = args
  fn : fr.block.fn = F.id

/-- What a run leaves alone: the bounds of the engine, its heap and the addresses it gave out. -/
structure Kin (e e' : Engine) : Prop where
  limits : e'.limits = e.limits
  heap : e'.memory.heap = e.memory.heap
  addressed : e'.addressed = e.addressed
  closed : e'.closed = e.closed

theorem Kin.refl (e : Engine) : Kin e e := ⟨rfl, rfl, rfl, rfl⟩

theorem Kin.trans {e e' e'' : Engine} (h : Kin e e') (h' : Kin e' e'') : Kin e e'' :=
  ⟨h'.limits.trans h.limits, h'.heap.trans h.heap, h'.addressed.trans h.addressed, h'.closed.trans h.closed⟩

variable {m : Module} {F : Function} {args : List UInt64} {base : Nat → Nat} {σ σ' : Store} {fr : Frame} {e : Engine}
  {trace : List String}

theorem Backed.bounds (h : Backed base σ e) : e.memory.stack.base.toNat + e.memory.stack.top < 2 ^ 64 := by
  have hs := h.small
  rw [h.bottom, h.top]
  have hb : stackBase.toNat = 2 ^ 40 := by decide
  omega

theorem Framed.operand (h : Framed F args base σ fr) (m : Module) (trace : List String) (e : Engine) {o : Option Value}
    {d : Datum} (hd : datum F.id args σ o = some d) :
    (operand m trace fr o).run.run e = (.ok (d.bits base), e) ∧ d.Known σ := by
  cases o with
  | none => cases hd
  | some v =>
    cases v with
    | instr id t =>
      obtain ⟨hv, -⟩ := Option.filter_eq_some_iff.mp hd
      dsimp only at hv
      split at hv
      · rename_i hfn
        obtain ⟨hval, hk⟩ := h.values _ _ hv
        obtain ⟨fn, k⟩ := id
        subst hfn
        refine ⟨?_, hk⟩
        simp only [Machine.operand, hval]
        rfl
      · cases hv
    | param fn i t =>
      obtain ⟨hv, -⟩ := Option.filter_eq_some_iff.mp hd
      obtain ⟨p, hp, rfl⟩ := Option.map_eq_some_iff.mp hv
      refine ⟨?_, nofun⟩
      simp only [Machine.operand, h.args, hp]
      rfl
    | func f sig => cases hd
    | const c origin =>
      obtain ⟨hv, -⟩ := Option.filter_eq_some_iff.mp hd
      obtain ⟨p, hp, rfl⟩ := Option.map_eq_some_iff.mp hv
      refine ⟨?_, nofun⟩
      simp only [Machine.operand, hp]
      rfl

theorem Framed.operands (h : Framed F args base σ fr) (m : Module) (trace : List String) (e : Engine)
    {os : List (Option Value)} {ds : List Datum}
    (hd : os.mapM (datum F.id args σ) = some ds) :
    (os.mapM (Machine.operand m trace fr)).run.run e = (.ok (ds.map (Datum.bits base)), e) ∧ ∀ d ∈ ds, d.Known σ := by
  induction os generalizing ds with
  | nil =>
    cases hd
    exact ⟨rfl, nofun⟩
  | cons o os ih =>
    simp only [List.mapM_cons, Option.bind_eq_bind, Option.bind_eq_some_iff, Option.pure_def, Option.some.injEq] at hd
    obtain ⟨d, hd, ds', hds, rfl⟩ := hd
    obtain ⟨hrun, hk⟩ := h.operand m trace e hd
    obtain ⟨hruns, hks⟩ := ih hds
    constructor
    · rw [List.mapM_cons, run_bind_ok hrun, run_bind_ok hruns]
      rfl
    · intro d' hd'
      rcases List.mem_cons.mp hd' with rfl | hd'
      · exact hk
      · exact hks d' hd'

theorem datum_fits {o : Option Value} {d : Datum} (h : datum F.id args σ o = some d) :
    d.fits (operandType o) = true := by
  cases o with
  | none => cases h
  | some v => exact (Option.filter_eq_some_iff.mp h).2

theorem Reads.head_fits {k : Nat} {i : Instr} {t : Ty} {ts : List Ty} {d : Datum} {ds : List Datum}
    (h : Reads F args σ k i (t :: ts) (d :: ds)) : d.fits t = true := by
  obtain ⟨-, hts, hds⟩ := h
  cases ho : i.operands with
  | nil => simp [ho] at hts
  | cons o os =>
    simp only [ho, List.map_cons, List.cons.injEq] at hts
    simp only [ho, List.mapM_cons, Option.bind_eq_bind, Option.bind_eq_some_iff, Option.pure_def, Option.some.injEq,
      List.cons.injEq] at hds
    obtain ⟨d', hd, ds', -, rfl, -⟩ := hds
    rw [← hts.1]
    exact datum_fits hd

theorem kept_of_fits {t : Ty} {w : Nat} (hw : width? t = some w) {d : Datum} (h : d.fits t = true) :
    Kept w (d.bits base) := by
  intro h4
  obtain ⟨rfl, -⟩ | ⟨-, rfl⟩ := width?_cases hw
  · cases d with
    | word v => simpa [Datum.fits, Datum.bits] using h
    | place s o => cases h
  · cases h4

theorem Framed.known (h : Framed F args base σ fr) {os : List (Option Value)} {ds : List Datum}
    (hd : os.mapM (datum F.id args σ) = some ds) : ∀ d ∈ ds, d.Known σ :=
  (h.operands { name := "" } [] {} hd).2

theorem firstType_eq {i : Instr} {t : Ty} {ts : List Ty} (h : i.operands.map operandType = t :: ts) :
    i.firstType = t := by
  unfold Instr.firstType
  cases ho : i.operands with
  | nil => simp [ho] at h
  | cons o os =>
    simp only [ho, List.map_cons, List.cons.injEq] at h
    cases o <;> exact h.1

/-- Instruction `k` is `i`, and the machine finds data `ds` of types `ts` as its operands. -/
structure Fetches (F : Function) (base : Nat → Nat) (σ : Store) (fr : Frame) (k : Nat) (i : Instr) (ts : List Ty)
    (ds : List Datum) : Prop where
  found : F.instrs[k]? = some i
  types : i.operands.map operandType = ts
  run : ∀ (m : Module) (trace : List String) (e : Engine),
    (i.operands.mapM (Machine.operand m trace fr)).run.run e = (.ok (ds.map (Datum.bits base)), e)
  known : ∀ d ∈ ds, d.Known σ
  kept : ∀ {t : Ty} {w : Nat}, ts.head? = some t → width? t = some w → ∀ d, ds.head? = some d → Kept w (d.bits base)

theorem Reads.fetches {k : Nat} {i : Instr} {ts : List Ty} {ds : List Datum} (h : Reads F args σ k i ts ds)
    (hfr : Framed F args base σ fr) : Fetches F base σ fr k i ts ds := by
  refine ⟨h.found, h.types, fun m trace e ↦ (hfr.operands m trace e h.data).1, hfr.known h.data, ?_⟩
  intro t w ht hw d hd
  obtain ⟨ts, rfl⟩ := List.head?_eq_some_iff.mp ht
  obtain ⟨ds, rfl⟩ := List.head?_eq_some_iff.mp hd
  exact kept_of_fits hw h.head_fits

theorem signExtend_wide (v : UInt64) : signExtend v 64 = v := rfl

theorem sum_bits {t : Ty} {a b d : Datum} (h : sum t a b = some d) :
    d.bits base = signExtend (a.bits base + b.bits base) t.bits := by
  unfold sum at h
  split at h
  · cases h
    rfl
  · split at h <;> cases h
    subst t
    rw [Ty.i64, Ty.bits, signExtend_wide]
    simp only [Datum.bits, UInt64.add_assoc]
  · split at h <;> cases h
    subst t
    rw [Ty.i64, Ty.bits, signExtend_wide]
    simp only [Datum.bits]
    ac_rfl
  · cases h

theorem compute_pure {i : Instr} {ts : List Ty} {ds : List Datum} {d : Datum} (h : computed i ts ds = some d)
    (hts : i.operands.map operandType = ts) :
    (compute m trace i (ds.map (Datum.bits base))).run.run e = (.ok (d.bits base), e) := by
  unfold computed at h
  split at h
  · split at h
    · rename_i hop hc
      simp only [compute, hop, List.map_cons, List.map_nil, Op.isBinary, if_true, evalBinary, ← sum_bits h]
      rfl
    · cases h
  · split at h <;> cases h
    rename_i hop hc
    simp only [compute, hop, List.map_cons, List.map_nil, Op.isBinary, if_true, evalBinary, Datum.bits]
    rfl
  · split at h <;> cases h
    rename_i hop hc
    simp only [compute, hop, List.map_cons, List.map_nil, Op.isBinary, if_true, evalBinary, Datum.bits]
    rfl
  · split at h <;> cases h
    rename_i hop hc
    obtain ⟨-, rfl, rfl, hp⟩ := hc
    simp only [compute, hop, List.map_cons, List.map_nil, Datum.bits, firstType_eq hts, evalCompare, hp]
    rfl
  · split at h <;> cases h
    rename_i hop hc
    simp only [compute, hop, List.map_cons, List.map_nil, Datum.bits]
    split <;> rfl
  · split at h <;> cases h
    rename_i hop hc
    simp only [compute, hop, List.map_cons, List.map_nil, Op.isBinary, Op.isCast, evalCast, hc.2]
    rfl
  · split at h <;> cases h
    rename_i hop hc
    obtain ⟨rfl, -⟩ := hc
    simp only [compute, hop, List.map_cons, List.map_nil, Op.isBinary, Op.isCast, evalCast, firstType_eq hts]
    rfl
  · split at h <;> cases h
    rename_i hop hc
    simp only [compute, hop, List.map_cons, List.map_nil, Op.isBinary, Op.isCast, evalCast]
    rfl
  · cases h

theorem sum_known {t : Ty} {a b d : Datum} (h : sum t a b = some d) (ha : a.Known σ) (hb : b.Known σ) : d.Known σ := by
  unfold sum at h
  split at h
  · cases h
    exact nofun
  · split at h <;> cases h
    rintro s o ⟨⟩
    exact ha _ _ rfl
  · split at h <;> cases h
    rintro s o ⟨⟩
    exact hb _ _ rfl
  · cases h

theorem computed_known {i : Instr} {ts : List Ty} {ds : List Datum} {d : Datum} (h : computed i ts ds = some d)
    (hds : ∀ d ∈ ds, d.Known σ) : d.Known σ := by
  unfold computed at h
  split at h
  · split at h
    · exact sum_known h (hds _ (by simp)) (hds _ (by simp))
    · cases h
  · split at h <;> cases h
    exact nofun
  · split at h <;> cases h
    exact nofun
  · split at h <;> cases h
    exact nofun
  · split at h <;> cases h
    split
    · exact hds _ (by simp)
    · exact hds _ (by simp)
  · split at h <;> cases h
    exact hds _ (by simp)
  · split at h <;> cases h
    exact hds _ (by simp)
  · split at h <;> cases h
    exact hds _ (by simp)
  · cases h

theorem computed_op {i : Instr} {ts : List Ty} {ds : List Datum} {d : Datum} (h : computed i ts ds = some d) :
    i.hasValue = true ∧ i.op.isPure = true := by
  have hword : ∀ t : Ty, t = .i32 ∨ t = .i64 → t.hasValue = true := by
    rintro t (rfl | rfl) <;> rfl
  have hpointer : ∀ t : Ty, t.isPointer = true → t.hasValue = true := by
    intro t ht
    cases t <;> first | rfl | cases ht
  unfold computed at h
  split at h
  all_goals first | cases h | skip
  all_goals
    rename_i hop
    split at h
    · rename_i hc
      refine ⟨?_, by rw [hop]; rfl⟩
      unfold Instr.hasValue
      first | exact hword _ hc.1 | exact hc.1 | exact hpointer _ hc.2 | simp [hc, Ty.i1, Ty.i64, Ty.hasValue]
    · cases h

theorem cell?_eq_some {s : Nat} {o : UInt64} {w n : Nat} {sl : Slot} {d : Datum} (h : σ.cell? s o w = some (sl, n, d)) :
    σ.slots s = some sl ∧ sl.width = w ∧ o.toNat = w * n ∧ sl.cells[n]? = some d := by
  unfold Store.cell? at h
  split at h
  · cases h
  · rename_i sl' hs
    split at h
    · rename_i hc
      obtain ⟨d', hd, heq⟩ := Option.map_eq_some_iff.mp h
      cases heq
      refine ⟨hs, hc.1, ?_, hd⟩
      have := Nat.div_add_mod o.toNat w
      omega
    · cases h

theorem bits_place (s : Nat) (o : UInt64) : (Datum.place s o).bits base = stackBase + (base s + o.toNat).toUInt64 := by
  have h : (base s + o.toNat).toUInt64 = (base s).toUInt64 + o := by
    rw [Nat.toUInt64, UInt64.ofNat_add, UInt64.ofNat_toNat]
  rw [Datum.bits, h, UInt64.add_assoc]

theorem cell_le {sl : Slot} {n : Nat} (h : n < sl.cells.length) : sl.width * n + sl.width ≤ sl.bytes := by
  have := Nat.mul_le_mul_left sl.width (Nat.succ_le_of_lt h)
  rwa [Nat.mul_succ] at this

theorem Holds.apart {bytes bs : Bytes} {start o : Nat} {sl : Slot} (h : Holds bytes base start sl)
    (ho : o + bs.length ≤ bytes.length) (ha : start + sl.bytes ≤ o ∨ o + bs.length ≤ start) :
    Holds (splice bytes o bs) base start sl := by
  refine ⟨?_, ?_, h.kept⟩
  · rw [length_splice ho]
    exact h.room
  · intro j d hd
    have hle := cell_le (List.getElem?_eq_some_iff.mp hd).1
    rw [slice_splice_apart ho (by omega)]
    exact h.cell j d hd

theorem Holds.set {bytes : Bytes} {start n : Nat} {sl : Slot} {d : Datum} (h : Holds bytes base start sl)
    (hn : n < sl.cells.length) (hd : Kept sl.width (d.bits base)) :
    Holds (splice bytes (start + sl.width * n) (littleEndian sl.width (d.bits base).toNat)) base start
      ⟨sl.width, sl.cells.set n d⟩ := by
  have hle := cell_le hn
  have hroom := h.room
  have hin : start + sl.width * n + (littleEndian sl.width (d.bits base).toNat).length ≤ bytes.length := by
    rw [littleEndian_length]
    omega
  refine ⟨?_, ?_, ?_⟩
  · rw [length_splice hin]
    simpa [Slot.bytes] using h.room
  · intro j d' hj
    dsimp only at hj ⊢
    by_cases hjn : n = j
    · subst hjn
      rw [List.getElem?_set_self hn] at hj
      cases hj
      have hsame := slice_splice_inside hin (a := 0) (n := sl.width) (by rw [littleEndian_length]; omega)
      rw [Nat.add_zero] at hsame
      rw [hsame, slice, List.drop_zero, List.take_of_length_le (Nat.le_of_eq (littleEndian_length _ _))]
    · rw [List.getElem?_set_ne hjn] at hj
      rw [slice_splice_apart hin, h.cell j d' hj]
      rw [littleEndian_length]
      rcases Nat.lt_or_gt_of_ne hjn with hlt | hgt
      · have := Nat.mul_le_mul_left sl.width (Nat.succ_le_of_lt hlt)
        rw [Nat.mul_succ] at this
        omega
      · have := Nat.mul_le_mul_left sl.width (Nat.succ_le_of_lt hgt)
        rw [Nat.mul_succ] at this
        omega
  · intro d' hd'
    rcases List.mem_or_eq_of_mem_set hd' with hd' | rfl
    · exact h.kept d' hd'
    · exact hd

theorem littleEndian_zero (k : Nat) : littleEndian k 0 = List.replicate k 0 := by
  induction k with
  | zero => rfl
  | succ k ih =>
    rw [littleEndian, ih]
    rfl

theorem Holds.clear {bytes : Bytes} {start : Nat} {sl : Slot} (h : Holds bytes base start sl) :
    Holds (splice bytes start (List.replicate sl.bytes 0)) base start
      ⟨sl.width, List.replicate sl.cells.length (.word 0)⟩ := by
  have hroom := h.room
  have hin : start + (List.replicate sl.bytes (0 : UInt8)).length ≤ bytes.length := by
    rwa [List.length_replicate]
  refine ⟨?_, ?_, ?_⟩
  · rw [length_splice hin]
    simpa [Slot.bytes] using h.room
  · intro j d hj
    dsimp only at hj ⊢
    obtain ⟨hlt, rfl⟩ := List.getElem?_eq_some_iff.mp hj
    rw [List.length_replicate] at hlt
    have hle := cell_le hlt
    rw [List.getElem_replicate, slice_splice_inside hin (by rwa [List.length_replicate]), slice_replicate _ hle]
    exact (littleEndian_zero _).symm
  · intro d hd
    rw [List.eq_of_mem_replicate hd]
    exact fun _ ↦ show signExtend 0 32 = 0 by decide

theorem Datum.Known.setSlot {d : Datum} (h : d.Known σ) (s : Nat) (sl : Slot) : d.Known (σ.setSlot s sl) := by
  intro k o hd
  have := h k o hd
  simp only [Store.setSlot]
  split
  · rfl
  · exact this

def withStack (e : Engine) (r : Region) : Engine := { e with memory := { e.memory with stack := r } }

theorem Backed.update (h : Backed base σ e) {s o : Nat} {sl sl' : Slot} {bs : Bytes} (hs : σ.slots s = some sl)
    (hbytes : sl'.bytes = sl.bytes) (hlo : base s ≤ o) (hhi : o + bs.length ≤ base s + sl.bytes)
    (hold : Holds (splice e.memory.stack.bytes o bs) base (base s) sl') (hk : ∀ d ∈ sl'.cells, d.Known σ) :
    Backed base (σ.setSlot s sl') (withStack e (e.memory.stack.write o bs)) := by
  have hroom := (h.slots s sl hs).room
  have hin : o + bs.length ≤ e.memory.stack.bytes.length := by omega
  have htop : o + bs.length ≤ e.memory.stack.top := by rwa [Region.length_bytes] at hin
  refine ⟨?_, ?_, ?_, ?_, ?_, h.small, h.layouts⟩
  · intro k slk hk
    simp only [withStack, Region.bytes_write _ _ _ htop]
    simp only [Store.setSlot] at hk
    split at hk
    · cases hk
      subst k
      exact hold
    · rename_i hne
      refine (h.slots k slk hk).apart hin ?_
      have := h.apart k s slk sl hne hk hs
      omega
  · intro k k' slk slk' hne hk hk'
    simp only [Store.setSlot] at hk hk'
    split at hk <;> split at hk'
    · omega
    · cases hk
      subst k
      rw [hbytes]
      exact h.apart s k' sl slk' hne hs hk'
    · cases hk'
      subst k'
      rw [hbytes]
      exact h.apart k s slk sl hne hk hs
    · exact h.apart k k' slk slk' hne hk hk'
  · intro k slk d hk' hd
    apply Datum.Known.setSlot
    simp only [Store.setSlot] at hk'
    split at hk'
    · cases hk'
      exact hk d hd
    · exact h.known k slk d hk' hd
  · exact (Region.base_write _ _ _).trans h.bottom
  · exact (Region.top_write ..).trans h.top

theorem Framed.setSlot (h : Framed F args base σ fr) (s : Nat) (sl : Slot) : Framed F args base (σ.setSlot s sl) fr :=
  ⟨fun k d hd ↦ ⟨(h.values k d hd).1, (h.values k d hd).2.setSlot s sl⟩, h.args, h.fn⟩

theorem Datum.Known.bits_eq {d : Datum} (h : d.Known σ) {k : Nat} (hk : σ.slots k = none) (start : Nat) :
    d.bits (fun j ↦ if j = k then start else base j) = d.bits base := by
  cases d with
  | word v => rfl
  | place s o =>
    have hs : s ≠ k := by
      rintro rfl
      have := h s o rfl
      simp [hk] at this
    simp [Datum.bits, hs]

theorem Holds.of_bits_eq {base' : Nat → Nat} {bytes bytes' : Bytes} {start : Nat} {sl : Slot}
    (h : Holds bytes base start sl) (hb : ∀ d ∈ sl.cells, d.bits base' = d.bits base) :
    Holds (bytes ++ bytes') base' start sl := by
  have hroom := h.room
  refine ⟨?_, ?_, ?_⟩
  · rw [List.length_append]
    omega
  · intro j d hd
    have hle := cell_le (List.getElem?_eq_some_iff.mp hd).1
    rw [slice_append (by omega), h.cell j d hd, hb d (List.mem_of_getElem? hd)]
  · intro d hd
    rw [hb d hd]
    exact h.kept d hd

theorem Backed.allocate (h : Backed base σ e) {e' : Engine} (he : e.Asked e') {k w n align : Nat}
    (hk : σ.slots k = none) (hsmall : (σ.allocate k ⟨w, List.replicate n (.word 0)⟩ align).height < 2 ^ 63) :
    Backed (fun j ↦ if j = k then Region.alignUp σ.height align else base j)
      (σ.allocate k ⟨w, List.replicate n (.word 0)⟩ align)
      (withStack e' (e.memory.stack.grow (Region.alignUp σ.height align + w * n))) := by
  have hle := Region.le_alignUp σ.height align
  have htop := h.top
  have hgrow := Region.bytes_grow e.memory.stack (show _ ≤ Region.alignUp σ.height align + w * n by omega)
  have hlen := Region.length_bytes e.memory.stack
  refine ⟨?_, ?_, ?_, ?_, ?_, hsmall, he.layouts⟩
  · intro j sl hj
    simp only [withStack, hgrow]
    simp only [Store.allocate, Store.define, Store.setSlot] at hj
    split at hj
    · cases hj
      subst j
      simp only [if_true]
      refine ⟨?_, ?_, ?_⟩
      · simp only [Slot.bytes, List.length_append, List.length_replicate]
        omega
      · intro i d hd
        obtain ⟨hi, rfl⟩ := List.getElem?_eq_some_iff.mp hd
        have hcell : w * i + w ≤ _ := cell_le hi
        simp only [Slot.bytes, List.length_replicate] at hcell
        have happ : ∀ a, e.memory.stack.top ≤ a → a + w ≤ Region.alignUp σ.height align + w * n →
            slice (e.memory.stack.bytes ++ List.replicate (Region.alignUp σ.height align + w * n -
            e.memory.stack.top) 0)
              a w = List.replicate w 0 := by
          intro a ha haw
          apply List.ext_getElem?
          intro i
          rw [getElem?_slice, List.getElem?_append_right (by omega), List.getElem?_replicate, List.getElem?_replicate]
          split
          · rw [if_pos (by omega)]
          · rfl
        simp only [List.getElem_replicate]
        rw [happ _ (by omega) (by omega)]
        exact (littleEndian_zero w).symm
      · intro d hd
        rw [List.eq_of_mem_replicate hd]
        exact fun _ ↦ show signExtend 0 32 = 0 by decide
    · rename_i hne
      simp only [hne, if_false]
      exact (h.slots j sl hj).of_bits_eq fun d hd ↦ (h.known j sl d hj hd).bits_eq hk _
  · intro j j' sl sl' hne hj hj'
    simp only [Store.allocate, Store.define, Store.setSlot] at hj hj'
    have hbelow : ∀ i sli, σ.slots i = some sli → base i + sli.bytes ≤ Region.alignUp σ.height align := by
      intro i sli hi
      have := (h.slots i sli hi).room
      omega
    by_cases hjk : j = k <;> by_cases hjk' : j' = k
    · omega
    · simp only [hjk, hjk', if_true, if_false] at hj hj' ⊢
      exact .inr (hbelow j' sl' hj')
    · simp only [hjk, hjk', if_true, if_false] at hj hj' ⊢
      exact .inl (hbelow j sl hj)
    · simp only [hjk, hjk', if_false] at hj hj' ⊢
      exact h.apart j j' sl sl' hne hj hj'
  · intro j sl d hj hd
    change d.Known (σ.setSlot k _)
    apply Datum.Known.setSlot
    simp only [Store.allocate, Store.define, Store.setSlot] at hj
    split at hj
    · cases hj
      rw [List.eq_of_mem_replicate hd]
      intro s o heq
      cases heq
    · exact h.known j sl d hj hd
  · exact h.bottom
  · simp only [withStack, Store.allocate, Slot.bytes, List.length_replicate]
    exact Region.top_grow ..

def Store.without (σ : Store) (k : Nat) : Store where
  values j := if j = k then none else σ.values j
  slots j := if j = k then none else σ.slots j
  height := σ.height

theorem Datum.Known.without {d : Datum} {k : Nat} (h : d.Known σ) (hd : ∀ o, d ≠ .place k o) :
    d.Known (σ.without k) := by
  intro s o hs
  have hne : s ≠ k := by
    rintro rfl
    exact hd o hs
  simpa [Store.without, hne] using h s o hs

theorem Backed.without {k : Nat} (h : Backed base σ e)
    (hno : ∀ j sl o, σ.slots j = some sl → j ≠ k → .place k o ∉ sl.cells) : Backed base (σ.without k) e := by
  have hsub : ∀ {j sl}, (σ.without k).slots j = some sl → j ≠ k ∧ σ.slots j = some sl := by
    intro j sl hj
    simp only [Store.without] at hj
    split at hj
    · cases hj
    · exact ⟨‹_›, hj⟩
  refine ⟨fun j sl hj ↦ h.slots j sl (hsub hj).2, fun j j' sl sl' hne hj hj' ↦ h.apart j j' sl sl' hne
    (hsub hj).2 (hsub hj').2, fun j sl d hj hd ↦ ?_, h.bottom, h.top, h.small, h.layouts⟩
  exact (h.known j sl d (hsub hj).2 hd).without fun o heq ↦ hno j sl o (hsub hj).2 (hsub hj).1 (heq ▸ hd)

theorem Framed.without {k : Nat} (h : Framed F args base σ fr) (hno : ∀ j o, j ≠ k → σ.values j ≠ some (.place k o)) :
    Framed F args base (σ.without k) fr := by
  refine ⟨fun j d hj ↦ ?_, h.args, h.fn⟩
  simp only [Store.without] at hj
  split at hj
  · cases hj
  · rename_i hne
    obtain ⟨hv, hk⟩ := h.values j d hj
    exact ⟨hv, hk.without fun o heq ↦ hno j o hne (heq ▸ hj)⟩

theorem Framed.allocate (h : Framed F args base σ fr) {k : Nat} (start align : Nat) (sl : Slot)
    (hk : σ.slots k = none) : ∀ j d, (σ.allocate k sl align).values j = some d → j ≠ k →
      fr.values[(⟨F.id, j⟩ : InstrId)]? = some (d.bits fun j ↦ if j = k then start else base j) ∧
        d.Known (σ.allocate k sl align) := by
  intro j d hd hj
  simp only [Store.allocate, Store.define, hj, if_false] at hd
  obtain ⟨hv, hknown⟩ := h.values j d hd
  exact ⟨by rw [hv, hknown.bits_eq hk], hknown.setSlot k sl⟩

theorem Framed.define (h : Framed F args base σ fr) {k : Nat} {rest : List Nat}
    (hrest : fr.rest = k :: rest) {i : Instr} (hi : i.hasValue = true) {d : Datum} (hd : d.Known σ) :
    Framed F args base (σ.define k d) (fr.advance i (d.bits base)) := by
  have hadv : fr.advance i (d.bits base) =
      { fr with values := fr.values.insert ⟨fr.block.fn, k⟩ (d.bits base), rest } := by
    simp only [Frame.advance, hrest, hi, if_true]
  rw [hadv]
  refine ⟨?_, h.args, h.fn⟩
  intro j d' hj
  simp only [Store.define] at hj
  simp only [h.fn, Std.HashMap.getElem?_insert, beq_iff_eq, InstrId.mk.injEq, true_and]
  by_cases hjk : j = k
  · simp only [hjk, if_true] at hj ⊢
    cases hj
    exact ⟨rfl, hd⟩
  · simp only [hjk, if_false] at hj
    rw [if_neg (Ne.symm hjk)]
    exact h.values j d' hj

theorem advance_rest {k : Nat} {rest : List Nat} (hrest : fr.rest = k :: rest) (i : Instr) (v : UInt64) :
    (fr.advance i v).rest = rest ∧ (fr.advance i v).fn = fr.fn ∧ (fr.advance i v).mark = fr.mark := by
  simp only [Frame.advance, hrest]
  split <;> exact ⟨rfl, rfl, rfl⟩

theorem Framed.advance (h : Framed F args base σ fr) {i : Instr} (hi : i.hasValue = false) (v : UInt64) :
    Framed F args base σ (fr.advance i v) := by
  unfold Frame.advance
  split
  · exact h
  · rw [hi]
    exact ⟨h.values, h.args, h.fn⟩

theorem Backed.reenter (h : Backed base σ e) (values : Nat → Option Datum) : Backed base (σ.reenter values) e :=
  ⟨h.slots, h.apart, h.known, h.bottom, h.top, h.small, h.layouts⟩

theorem Framed.reenter (h : Framed F args base σ fr) {values : Nat → Option Datum}
    (hsub : ∀ j d, values j = some d → σ.values j = some d) : Framed F args base (σ.reenter values) fr :=
  ⟨fun j d hj ↦ h.values j d (hsub j d hj), h.args, h.fn⟩

/-- The machine is behind some instructions, or the stack ran out of room before. -/
structure Reaches (m : Module) (F : Function) (args : List UInt64) (fr : Frame) (e : Engine) (n : Nat) (rest : List Nat)
    (σ' : Store) (base' : Nat → Nat) (fr' : Frame) (e' : Engine) : Prop where
  run : ∀ fuel, run m (n + fuel) [fr] e = run m fuel [fr'] e'
  backed : Backed base' σ' e'
  framed : Framed F args base' σ' fr'
  rest : fr'.rest = rest
  fn : fr'.fn = fr.fn
  mark : fr'.mark = fr.mark
  kin : Kin e e'

/-- A run ends in an overflow of the stack once it has the fuel for `n` steps. -/
def RunsOver (m : Module) (fr : Frame) (e : Engine) (n : Nat) : Prop :=
  ∃ f e', (∀ fuel, n ≤ fuel → run m fuel [fr] e = (.stopped (.fault f), e')) ∧ f.code = .stackOverflow ∧ Kin e e'

section

variable {m : Module} {fr fr₁ : Frame} {e e₁ e' : Engine} {n k : Nat}

theorem run_after {r : Outcome} (hrun : ∀ fuel, run m (n + fuel) [fr] e = run m fuel [fr₁] e₁)
    (h : ∀ fuel, k ≤ fuel → run m fuel [fr₁] e₁ = (r, e')) : ∀ fuel, n + k ≤ fuel → run m fuel [fr] e = (r, e') := by
  intro fuel hfuel
  obtain ⟨f, rfl⟩ : ∃ f, fuel = n + f := ⟨fuel - n, by omega⟩
  rw [hrun, h f (by omega)]

theorem RunsOver.mono (h : RunsOver m fr e n) (hle : n ≤ k) : RunsOver m fr e k := by
  obtain ⟨f, e', hf, hover⟩ := h
  exact ⟨f, e', fun fuel hfuel ↦ hf fuel (hle.trans hfuel), hover⟩

theorem RunsOver.after (hkin : Kin e e₁) (hrun : ∀ fuel, run m (n + fuel) [fr] e = run m fuel [fr₁] e₁)
    (h : RunsOver m fr₁ e₁ k) : RunsOver m fr e (n + k) := by
  obtain ⟨f, e', hf, hcode, hkin'⟩ := h
  exact ⟨f, e', run_after hrun hf, hcode, hkin.trans hkin'⟩

theorem chained {h₀ h₁ h : Nat} {limit : Int} {P Q O : Prop} (hle : h₀ ≤ h₁) (hle' : h₁ ≤ h)
    (hfirst : (h₁ ≤ limit ∨ h₁ = h₀ → P) ∧ (¬ (h₁ ≤ limit ∨ h₁ = h₀) → O))
    (hnext : P → (h ≤ limit ∨ h = h₁ → Q) ∧ (¬ (h ≤ limit ∨ h = h₁) → O)) :
    (h ≤ limit ∨ h = h₀ → Q) ∧ (¬ (h ≤ limit ∨ h = h₀) → O) := by
  by_cases hone : h₁ ≤ limit ∨ h₁ = h₀
  · exact ⟨fun hor ↦ (hnext (hfirst.1 hone)).1 (by omega), fun hor ↦ (hnext (hfirst.1 hone)).2 (by omega)⟩
  · exact ⟨fun hor ↦ absurd hone (by omega), fun _ ↦ hfirst.2 hone⟩

end

/-- The machine is behind an instruction and agrees with the store there. -/
structure Arrives (m : Module) (F : Function) (args : List UInt64) (fr : Frame) (e : Engine)
    (rest : List Nat) (σ' : Store) (base' : Nat → Nat) (fr' : Frame) (e' : Engine) : Prop where
  run : (step m [fr]).run.run e = (.ok (.running [fr']), e')
  backed : Backed base' σ' e'
  framed : Framed F args base' σ' fr'
  rest : fr'.rest = rest
  fn : fr'.fn = fr.fn
  mark : fr'.mark = fr.mark
  kin : Kin e e'

def Overflows (m : Module) (fr : Frame) (e : Engine) : Prop :=
  ∃ f e', (step m [fr]).run.run e = (.error (.fault f), e') ∧ f.code = .stackOverflow ∧ Kin e e'

def entryFrame (F : Function) (args : List UInt64) (B : Ssa.Block) : Frame :=
  { fn := F.id, name := F.name, args, block := ⟨F.id, 0⟩, rest := B.instrs, mark := 0 }

/-- An engine between calls. -/
structure Idle (e : Engine) : Prop where
  bottom : e.memory.stack.base = stackBase
  top : e.memory.stack.top = 0
  layouts : e.layouts.Plain

theorem Idle.backed (h : Idle e) : Backed (fun _ ↦ 0) {} e :=
  ⟨nofun, nofun, nofun, h.bottom, h.top, by decide, h.layouts⟩

theorem entryFrame_framed (F : Function) (args : List UInt64) (B : Ssa.Block) :
    Framed F args base {} (entryFrame F args B) :=
  ⟨nofun, rfl, rfl⟩

section step

variable (hF : m.function? F.id = some F)

include hF

theorem instr?_eq (hfr : Framed F args base σ fr) {k : Nat} {i : Instr} (hi : F.instrs[k]? = some i) :
    m.instr? ⟨fr.block.fn, k⟩ = some i := by
  simp only [Module.instr?, hfr.fn, hF, Option.bind_some, Function.instr?, hi]

variable {k : Nat} {rest : List Nat} {i : Instr} {ts : List Ty} {ds : List Datum}

theorem step_compute (hfr : Framed F args base σ fr) (hrest : fr.rest = k :: rest) (hr : Fetches F base σ fr k i ts ds)
    (hop : i.op ≠ .br ∧ i.op ≠ .condbr ∧ i.op ≠ .ret ∧ i.op ≠ .call) :
    (step m [fr]).run.run e = (do
      let v ← compute m [fr.name] i (ds.map (Datum.bits base))
      return .running [fr.advance i v] : Run Progress).run.run e := by
  obtain ⟨h1, h2, h3, h4⟩ := hop
  have hops := hr.run m [fr.name] e
  unfold step
  simp only [List.map_cons, List.map_nil, hrest, instr?_eq hF hfr hr.found]
  rw [run_bind_ok hops]

theorem step_value (hB : Backed base σ e) (hfr : Framed F args base σ fr) (hrest : fr.rest = k :: rest)
    (hr : Fetches F base σ fr k i ts ds) (hop : i.op ≠ .br ∧ i.op ≠ .condbr ∧ i.op ≠ .ret ∧ i.op ≠ .call)
    (hv : i.hasValue = true) {d : Datum} (hk : d.Known σ)
    (hd : (compute m [fr.name] i (ds.map (Datum.bits base))).run.run e = (.ok (d.bits base), e)) :
    Arrives m F args fr e rest (σ.define k d) base (fr.advance i (d.bits base)) e := by
  obtain ⟨h1, h2, h3⟩ := advance_rest hrest i (d.bits base)
  refine ⟨?_, ⟨hB.slots, hB.apart, hB.known, hB.bottom, hB.top, hB.small, hB.layouts⟩,
    hfr.define hrest hv hk, h1, h2, h3, .refl e⟩
  rw [step_compute hF hfr hrest hr hop, run_bind_ok hd]
  rfl

theorem step_void (hB : Backed base σ e) (hfr : Framed F args base σ fr) (hrest : fr.rest = k :: rest)
    (hr : Fetches F base σ fr k i ts ds) (hop : i.op ≠ .br ∧ i.op ≠ .condbr ∧ i.op ≠ .ret ∧ i.op ≠ .call)
    (hv : i.hasValue = false) {v : UInt64}
    (hd : (compute m [fr.name] i (ds.map (Datum.bits base))).run.run e = (.ok v, e)) :
    Arrives m F args fr e rest σ base (fr.advance i v) e := by
  obtain ⟨h1, h2, h3⟩ := advance_rest hrest i v
  refine ⟨?_, hB, hfr.advance hv v, h1, h2, h3, .refl e⟩
  rw [step_compute hF hfr hrest hr hop, run_bind_ok hd]
  rfl

theorem step_pure (hB : Backed base σ e) (hfr : Framed F args base σ fr) (hrest : fr.rest = k :: rest)
    (hr : Fetches F base σ fr k i ts ds) {d : Datum} (hd : computed i ts ds = some d) :
    ∃ fr', Arrives m F args fr e rest (σ.define k d) base fr' e := by
  obtain ⟨hv, hpure⟩ := computed_op hd
  have hop : i.op ≠ .br ∧ i.op ≠ .condbr ∧ i.op ≠ .ret ∧ i.op ≠ .call := by
    refine ⟨?_, ?_, ?_, ?_⟩ <;> (intro h; rw [h] at hpure; cases hpure)
  exact ⟨_, step_value hF hB hfr hrest hr hop hv (computed_known hd hr.known) (compute_pure hd hr.types)⟩

theorem step_load (hB : Backed base σ e) (hfr : Framed F args base σ fr) (hrest : fr.rest = k :: rest)
    {t : Ty} {s : Nat} {o : UInt64} {w n : Nat} {sl : Slot} {d : Datum} (hr : Fetches F base σ fr k i [t] [.place s o])
    (hop : i.op = .load) (hw : width? i.type = some w) (hc : σ.cell? s o w = some (sl, n, d)) :
    ∃ fr', Arrives m F args fr e rest (σ.define k d) base fr' e := by
  obtain ⟨hs, rfl, ho, hd⟩ := cell?_eq_some hc
  have hlt := (List.getElem?_eq_some_iff.mp hd).1
  have hle := cell_le hlt
  have hmem := List.mem_of_getElem? hd
  have hold := hB.slots s sl hs
  have hroom := hold.room
  rw [Region.length_bytes] at hroom
  have hv : i.hasValue = true := by
    unfold Instr.hasValue
    obtain ⟨h, -⟩ | ⟨⟨t', h⟩, -⟩ := width?_cases hw <;> rw [h] <;> rfl
  have hload : (compute m [fr.name] i [(Datum.place s o).bits base]).run.run e = (.ok (d.bits base), e) := by
    simp only [compute, hop]
    rw [bits_place, ← hB.bottom]
    refine load_run m [fr.name] hB.bounds hw (by omega) ?_ (hold.kept d hmem)
    rw [ho]
    exact hold.cell n d hd
  exact ⟨_, step_value hF hB hfr hrest hr (by simp [hop]) hv (hB.known s sl d hs hmem) hload⟩

theorem step_store (hB : Backed base σ e) (hfr : Framed F args base σ fr) (hrest : fr.rest = k :: rest)
    {t t' : Ty} {s : Nat} {o : UInt64} {w n : Nat} {sl : Slot} {d d' : Datum}
    (hr : Fetches F base σ fr k i [t, t'] [d, .place s o])
    (hop : i.op = .store) (ht : i.type = .void) (hw : width? t = some w) (hc : σ.cell? s o w = some (sl, n, d')) :
    ∃ fr' e', Arrives m F args fr e rest (σ.setSlot s ⟨w, sl.cells.set n d⟩) base fr' e' := by
  obtain ⟨hs, rfl, ho, hd'⟩ := cell?_eq_some hc
  have hlt := (List.getElem?_eq_some_iff.mp hd').1
  have hle := cell_le hlt
  have hold := hB.slots s sl hs
  have hroom := hold.room
  have hvoid : i.hasValue = false := by simp [Instr.hasValue, ht, Ty.hasValue]
  have hin : base s + sl.width * n + sl.width ≤ e.memory.stack.top := by
    rw [Region.length_bytes] at hroom
    omega
  have hstore : (compute m [fr.name] i [d.bits base, (Datum.place s o).bits base]).run.run e =
      (.ok 0, withStack e
        (e.memory.stack.write (base s + sl.width * n) (littleEndian sl.width (d.bits base).toNat))) := by
    simp only [compute, hop]
    rw [bits_place, ← hB.bottom, firstType_eq hr.types, ho, run_bind_ok (store_run m [fr.name] hB.bounds hw hin _)]
    rfl
  obtain ⟨h1, h2, h3⟩ := advance_rest hrest i 0
  have hadv := (hfr.setSlot s ⟨sl.width, sl.cells.set n d⟩).advance hvoid 0
  refine ⟨fr.advance i 0, _, ?_, hB.update hs ?_ ?_ ?_ (hold.set hlt (hr.kept rfl hw d rfl)) ?_, hadv, h1, h2, h3,
    ⟨rfl, rfl, rfl, rfl⟩⟩
  · rw [step_compute hF hfr hrest hr (by simp [hop]), List.map_cons, List.map_cons, List.map_nil, run_bind_ok hstore]
    rfl
  · simp [Slot.bytes]
  · omega
  · rw [littleEndian_length]
    omega
  · intro x hx
    rcases List.mem_or_eq_of_mem_set hx with hx | rfl
    · exact hB.known s sl x hs hx
    · exact hr.known x (by simp)

theorem step_allocate (hB : Backed base σ e) (hfr : Framed F args base σ fr) (hrest : fr.rest = k :: rest)
    (hr : Fetches F base σ fr k i ts ds) (hop : i.op = .alloca) {t : Ty} (htype : i.type = .pointer t)
    (hall : i.allocated = t) {l : Layout} (hl : scalarLayout? t = some l) {w n : Nat} (count : Nat)
    (hsize : l.size * count = w * n) (hcount : ds = [] ∧ count = 1 ∨ ∃ c, ds = [.word c] ∧ intOfWord c = count)
    (hk : σ.slots k = none) {σ' : Store} (hσ : σ' = σ.allocate k ⟨w, List.replicate n (.word 0)⟩ l.align)
    (hsmall : σ'.height < 2 ^ 63) :
    (σ'.height ≤ e.limits.stackSize → ∃ base' fr' e', Arrives m F args fr e rest σ' base' fr' e') ∧
    (e.limits.stackSize < σ'.height → Overflows m fr e) := by
  subst hσ
  have hstop : Region.alignUp σ.height l.align + l.size * count = Region.alignUp σ.height l.align + w * n := by
    rw [hsize]
  have hheight : (σ.allocate k ⟨w, List.replicate n (.word 0)⟩ l.align).height =
      Region.alignUp σ.height l.align + w * n := by
    simp [Store.allocate, Slot.bytes]
  have hv : i.hasValue = true := by simp [Instr.hasValue, htype, Ty.hasValue]
  obtain ⟨e', he, hrun⟩ := stackAlloc_run m [fr.name] hB.layouts hl (by rw [hB.top]) hstop
    (by rwa [hheight] at hsmall)
  have hcompute : (compute m [fr.name] i (ds.map (Datum.bits base))).run.run e =
      (stackAlloc m [fr.name] t count).run.run e := by
    have hnot : ¬ (count : Int) < 0 := by omega
    obtain ⟨rfl, rfl⟩ | ⟨c, rfl, hc⟩ := hcount
    · simp only [compute, hop, hall]
      rfl
    · simp only [compute, hop, hall, List.map_cons, List.map_nil, Datum.bits, hc, hnot, if_false]
  have hstep := step_compute (e := e) hF hfr hrest hr (by simp [hop])
  rw [hheight]
  constructor
  · intro hle
    rw [if_pos hle] at hrun
    obtain ⟨h1, h2, h3⟩ := advance_rest hrest i (e.memory.stack.base + (Region.alignUp σ.height l.align).toUInt64)
    refine ⟨_, _, _, ?_, hB.allocate he hk hsmall, ?_, h1, h2, h3,
      ⟨he.limits, by simp only [withStack, he.memory], he.addressed, he.closed⟩⟩
    · rw [hstep, run_bind_ok (hcompute.trans hrun), withStack, he.memory]
      rfl
    · have hnew := hfr.allocate (Region.alignUp σ.height l.align) l.align ⟨w, List.replicate n (.word 0)⟩ hk
      simp only [Frame.advance, hrest, hv, if_true]
      refine ⟨?_, hfr.args, hfr.fn⟩
      intro j d hj
      simp only [hfr.fn, Std.HashMap.getElem?_insert, beq_iff_eq, InstrId.mk.injEq, true_and]
      by_cases hjk : j = k
      · subst hjk
        simp only [Store.allocate, Store.define, if_true, Option.some.injEq] at hj
        subst hj
        refine ⟨?_, ?_⟩
        · simp only [if_true, Datum.bits, UInt64.add_zero, hB.bottom]
        · rintro s o ⟨⟩
          simp [Store.allocate, Store.define, Store.setSlot]
      · rw [if_neg (Ne.symm hjk)]
        exact hnew j d hj hjk
  · intro hlt
    rw [if_neg (by omega)] at hrun
    exact ⟨_, e', hstep.trans (run_bind_error (hcompute.trans hrun)), rfl,
      ⟨he.limits, by rw [he.memory], he.addressed, he.closed⟩⟩

theorem step_clear (hB : Backed base σ e) (hfr : Framed F args base σ fr) (hrest : fr.rest = k :: rest) {s : Nat}
    {n : UInt64} {sl : Slot} {x : Datum} (hr : Fetches F base σ fr k i ts [.place s 0, .word 0, .word n, x])
    (hop : i.op = .call)
    (ht : i.type = .void) {g : Function} (hg : i.callee.bind m.function? = some g) (hname : g.name = memsetName)
    (hs : σ.slots s = some sl) (hn : n.toNat = sl.bytes) (hlt : sl.bytes < 2 ^ 63) :
    ∃ fr' e', Arrives m F args fr e rest (σ.setSlot s ⟨sl.width, List.replicate sl.cells.length (.word 0)⟩)
    base fr' e' := by
  have hops := hr.run m [fr.name] e
  have hold := hB.slots s sl hs
  have hroom := hold.room
  have hvoid : i.hasValue = false := by simp [Instr.hasValue, ht, Ty.hasValue]
  have hin : base s + sl.bytes ≤ e.memory.stack.top := by rwa [Region.length_bytes] at hroom
  have hint : intOfWord n = sl.bytes := by rw [intOfWord_of_lt (by omega), hn]
  have hwrite := writeBytes_run [fr.name] hB.bounds (o := base s) (List.replicate sl.bytes 0)
    (by rwa [List.length_replicate])
  have hfill : (fill [fr.name] (List.map (Datum.bits base) [.place s 0, .word 0, .word n, x])).run.run e =
      (.ok (), withStack e (e.memory.stack.write (base s) (List.replicate sl.bytes 0))) := by
    have hnot : ¬ (sl.bytes : Int) < 0 := by omega
    simp only [List.map_cons, List.map_nil, fill, hint, Datum.bits, hnot, if_false, Int.toNat_natCast, UInt64.add_zero,
      ← hB.bottom]
    rw [run_bind_ok (needBytes_run [fr.name] hB.bounds hin)]
    exact hwrite
  obtain ⟨h1, h2, h3⟩ := advance_rest hrest i 0
  have hadv := (hfr.setSlot s ⟨sl.width, List.replicate sl.cells.length (.word 0)⟩).advance hvoid 0
  refine ⟨fr.advance i 0, _, ?_, hB.update hs ?_ (Nat.le_refl _) ?_ hold.clear ?_, hadv, h1, h2, h3,
    ⟨rfl, rfl, rfl, rfl⟩⟩
  · unfold step
    simp only [List.map_cons, List.map_nil, hrest, instr?_eq hF hfr hr.found]
    rw [run_bind_ok hops]
    simp only [hop, hg, hname, if_true]
    rw [run_bind_ok hfill]
    rfl
  · simp [Slot.bytes]
  · exact Nat.le_of_eq (by rw [List.length_replicate])
  · intro d hd
    rw [List.eq_of_mem_replicate hd]
    exact nofun

theorem step_goto (hfr : Framed F args base σ fr) (hrest : fr.rest = [k]) (hr : Fetches F base σ fr k i ts ds) {b : Nat}
    {B : Ssa.Block} (hl : Leaves F.id i ds (.goto b)) (hbl : F.blocks[b]? = some B) :
    (step m [fr]).run.run e = (.ok (.running [{ fr with block := ⟨F.id, b⟩, rest := B.instrs }]), e) := by
  have hops := hr.run m [fr.name] e
  have hblock : m.block? ⟨F.id, b⟩ = some B := by simp only [Module.block?, hF, Option.bind_some, hbl]
  have hgoto : (goto m fr (some (some ⟨F.id, b⟩))).run.run e =
      (.ok { fr with block := ⟨F.id, b⟩, rest := B.instrs }, e) := by
    simp only [goto, hblock]
    rfl
  unfold step
  simp only [List.map_cons, List.map_nil, hrest, instr?_eq hF hfr hr.found]
  rw [run_bind_ok hops]
  cases hl with
  | br hop ht =>
    simp only [hop, ht]
    rw [run_bind_ok hgoto]
    rfl
  | condbr hop ht =>
    simp only [hop, List.map_cons, List.map_nil, Datum.bits, ht]
    rw [run_bind_ok hgoto]
    rfl

theorem step_ret (hfr : Framed F args base σ fr) (hrest : fr.rest = [k]) (hr : Fetches F base σ fr k i ts ds)
    {v : UInt64} (hl : Leaves F.id i ds (.done (.word v))) (hfn : fr.fn = F.id) (hret : F.ret.isStruct = false) :
    (step m [fr]).run.run e = (.ok (.returned ⟨v, []⟩), withStack e (e.memory.stack.release fr.mark)) := by
  have hops := hr.run m [fr.name] e
  unfold step
  simp only [List.map_cons, List.map_nil, hrest, instr?_eq hF hfr hr.found]
  rw [run_bind_ok hops]
  cases hl with
  | ret hop =>
    simp only [hop, List.map_cons, List.map_nil, Datum.bits, List.headD_cons, leave, returnedBytes, resume, hfn, hF,
      Option.map_some, Option.getD_some, hret]
    rfl

variable {fill : FuncId}

/-- One instruction: the machine follows the slot machine unless the stack would grow over its limit. -/
theorem step_act (hclears : i.callee = some fill → ∃ g, m.function? fill = some g ∧ g.name = memsetName)
    (hB : Backed base σ e) (hfr : Framed F args base σ fr) (hrest : fr.rest = k :: rest)
    (hr : Fetches F base σ fr k i ts ds) (ha : Act fill i k σ ts ds σ') (hsmall : σ'.height < 2 ^ 63) :
    (σ'.height ≤ e.limits.stackSize ∨ σ'.height = σ.height →
      ∃ base' fr' e', Arrives m F args fr e rest σ' base' fr' e') ∧
    (¬ (σ'.height ≤ e.limits.stackSize ∨ σ'.height = σ.height) → Overflows m fr e) := by
  cases ha with
  | slot hop htype hall hw hk hv =>
    rename_i t w
    have hl : ∃ l, scalarLayout? t = some l ∧ l.size = w ∧ l.align = w ∧ 0 < w := by
      obtain ⟨rfl, rfl⟩ | ⟨⟨t', rfl⟩, rfl⟩ := width?_cases hw
      · exact ⟨_, rfl, rfl, rfl, by omega⟩
      · exact ⟨_, rfl, rfl, rfl, by omega⟩
    obtain ⟨l, hl, hsize, halign, hpos⟩ := hl
    have hgrows : σ.height < (σ.allocate k ⟨w, [.word 0]⟩ w).height := by
      have := Region.le_alignUp σ.height w
      simp only [Store.allocate, Slot.bytes, List.length_singleton]
      omega
    have h := step_allocate hF hB hfr hrest hr hop htype hall hl (w := w) (n := 1) 1 (by rw [hsize])
      (.inl ⟨rfl, rfl⟩) hk (by rw [halign]; rfl) hsmall
    exact ⟨fun hor ↦ h.1 (by omega), fun hor ↦ h.2 (by omega)⟩
  | buffer hop htype hall hpos hn hk hv =>
    rename_i t n
    have hbytes : ((4 * n).toUInt64).toNat = 4 * n := by
      rw [Nat.toUInt64, UInt64.toNat_ofNat']
      omega
    have hgrows : σ.height < (σ.allocate k ⟨4, List.replicate n (.word 0)⟩ 1).height := by
      have := Region.le_alignUp σ.height 1
      simp only [Store.allocate, Slot.bytes, List.length_replicate]
      omega
    have hl : scalarLayout? Ty.i8 = some ⟨1, 1, [], []⟩ := rfl
    have h := step_allocate hF hB hfr hrest hr hop htype hall hl (w := 4) (n := n) (4 * n) (Nat.one_mul _)
      (.inr ⟨_, rfl, by rw [intOfWord_of_lt (by omega), hbytes]⟩) hk rfl hsmall
    dsimp only at h
    exact ⟨fun hor ↦ h.1 (by omega), fun hor ↦ h.2 (by omega)⟩
  | load hop hw hc hv =>
    obtain ⟨fr', h⟩ := step_load hF hB hfr hrest hr hop hw hc
    exact ⟨fun _ ↦ ⟨base, fr', e, h⟩, fun hor ↦ absurd (.inr rfl) hor⟩
  | store hop ht hw hc =>
    obtain ⟨fr', e', h⟩ := step_store hF hB hfr hrest hr hop ht hw hc
    exact ⟨fun _ ↦ ⟨base, fr', e', h⟩, fun hor ↦ absurd (.inr rfl) hor⟩
  | clear hop ht hcallee hs hn hlt =>
    obtain ⟨g, hg, hname⟩ := hclears hcallee
    obtain ⟨fr', e', h⟩ := step_clear hF hB hfr hrest hr hop ht (by rw [hcallee]; exact hg) hname hs hn hlt
    exact ⟨fun _ ↦ ⟨base, fr', e', h⟩, fun hor ↦ absurd (.inr rfl) hor⟩
  | pure hd hv =>
    obtain ⟨fr', h⟩ := step_pure hF hB hfr hrest hr hd
    exact ⟨fun _ ↦ ⟨base, fr', e, h⟩, fun hor ↦ absurd (.inr rfl) hor⟩

variable (hfill : ∀ (k : Nat) (i : Instr), F.instrs[k]? = some i → i.callee = some fill →
    ∃ g, m.function? fill = some g ∧ g.name = memsetName)

include hfill

theorem run_line {ks : List Nat} (hl : Line F fill args ks σ σ') (hB : Backed base σ e) (hfr : Framed F args base σ fr)
    (hrest : fr.rest = ks ++ rest) (hsmall : σ'.height < 2 ^ 63) :
    (σ'.height ≤ e.limits.stackSize ∨ σ'.height = σ.height →
      ∃ base' fr' e', Reaches m F args fr e ks.length rest σ' base' fr' e') ∧
    (¬ (σ'.height ≤ e.limits.stackSize ∨ σ'.height = σ.height) → RunsOver m fr e ks.length) := by
  induction hl generalizing base fr e with
  | nil =>
    refine ⟨fun _ ↦ ⟨base, fr, e, fun fuel ↦ by rw [List.length_nil, Nat.zero_add], hB, hfr, hrest, rfl, rfl, .refl e⟩,
      ?_⟩
    exact fun hor ↦ absurd (.inr rfl) hor
  | cons hr ha hl ih =>
    rename_i k ks σ σ₁ σ' i ts ds
    have hstep := step_act hF (hfill k i hr.found) hB hfr hrest (hr.fetches hfr) ha (hl.height_le.trans_lt hsmall)
    have hone : ∀ {fr₁ e₁}, (step m [fr]).run.run e = (.ok (.running [fr₁]), e₁) → ∀ fuel, run m (1 + fuel) [fr] e =
        run m fuel [fr₁] e₁ := by
      intro fr₁ e₁ h fuel
      rw [Nat.add_comm, run, h]
    rw [List.length_cons, Nat.add_comm ks.length]
    refine chained ha.height_le hl.height_le ⟨hstep.1, fun hor ↦ ?_⟩ fun ⟨base₁, fr₁, e₁, h₁⟩ ↦ ?_
    · obtain ⟨f, e', hf, hover⟩ := hstep.2 hor
      refine ⟨f, e', fun fuel hfuel ↦ ?_, hover⟩
      obtain ⟨n, rfl⟩ : ∃ n, fuel = n + 1 := ⟨fuel - 1, by omega⟩
      rw [run, hf]
    · have hnext := ih h₁.backed h₁.framed h₁.rest hsmall
      rw [h₁.kin.limits] at hnext
      refine ⟨fun hor ↦ ?_, fun hor ↦ (hnext.2 hor).after h₁.kin (hone h₁.run)⟩
      obtain ⟨base', fr', e', h'⟩ := hnext.1 hor
      exact ⟨base', fr', e', fun fuel ↦ by rw [Nat.add_assoc, hone h₁.run, h'.run], h'.backed, h'.framed, h'.rest,
        h'.fn.trans h₁.fn, h'.mark.trans h₁.mark, h₁.kin.trans h'.kin⟩

theorem run_goto {ks : List Nat} {b : Nat} {B : Ssa.Block} (hb : Block F fill args ks σ (.goto b) σ')
    (hB : Backed base σ e) (hfr : Framed F args base σ fr) (hrest : fr.rest = ks) (hbl : F.blocks[b]? = some B)
    (hsmall : σ'.height < 2 ^ 63) :
    (σ'.height ≤ e.limits.stackSize ∨ σ'.height = σ.height →
      ∃ base' fr' e', Reaches m F args fr e ks.length B.instrs σ' base' fr' e') ∧
    (¬ (σ'.height ≤ e.limits.stackSize ∨ σ'.height = σ.height) → RunsOver m fr e ks.length) := by
  obtain ⟨line, k, i, ts, ds, rfl, hl, hr, hleave⟩ := hb
  obtain ⟨hgood, hover⟩ := run_line hF hfill hl hB hfr hrest hsmall
  rw [List.length_append, List.length_singleton]
  constructor
  · intro hor
    obtain ⟨base', fr', e', h'⟩ := hgood hor
    refine ⟨base', { fr' with block := ⟨F.id, b⟩, rest := B.instrs }, e', ?_, h'.backed,
      ⟨h'.framed.values, h'.framed.args, rfl⟩, rfl, h'.fn, h'.mark, h'.kin⟩
    intro fuel
    rw [Nat.add_assoc, Nat.add_comm 1, h'.run, run, step_goto hF h'.framed h'.rest (hr.fetches h'.framed) hleave hbl]
  · exact fun hor ↦ (hover hor).mono (Nat.le_succ _)

theorem run_ret {ks : List Nat} {v : UInt64} (hb : Block F fill args ks σ (.done (.word v)) σ')
    (hB : Backed base σ e) (hfr : Framed F args base σ fr) (hrest : fr.rest = ks) (hfn : fr.fn = F.id)
    (hret : F.ret.isStruct = false) (hsmall : σ'.height < 2 ^ 63) :
    (σ'.height ≤ e.limits.stackSize ∨ σ'.height = σ.height →
      ∃ e', (∀ fuel, ks.length ≤ fuel → run m fuel [fr] e = (.returned ⟨v, []⟩, e')) ∧ Kin e e') ∧
    (¬ (σ'.height ≤ e.limits.stackSize ∨ σ'.height = σ.height) → RunsOver m fr e ks.length) := by
  obtain ⟨line, k, i, ts, ds, rfl, hl, hr, hleave⟩ := hb
  obtain ⟨hgood, hover⟩ := run_line hF hfill hl hB hfr hrest hsmall
  rw [List.length_append, List.length_singleton]
  constructor
  · intro hor
    obtain ⟨base', fr', e', h'⟩ := hgood hor
    refine ⟨withStack e' (e'.memory.stack.release fr'.mark), ?_,
      h'.kin.trans ⟨rfl, rfl, rfl, rfl⟩⟩
    intro fuel hfuel
    obtain ⟨n, rfl⟩ : ∃ n, fuel = line.length + (n + 1) := ⟨fuel - line.length - 1, by omega⟩
    rw [h'.run, run, step_ret hF h'.framed h'.rest (hr.fetches h'.framed) hleave (h'.fn.trans hfn) hret]
  · exact fun hor ↦ (hover hor).mono (Nat.le_succ _)

/-- From a block on the machine returns what the slot machine does, after as many steps, unless the stack grows over its
limit. -/
theorem run_returns {values : Nat → Option Datum} {b n h : Nat} {v : UInt64} {B : Ssa.Block}
    (hr : Returns F fill args values b σ n (.word v) h) (hB : Backed base σ e)
    (hfr : Framed F args base (σ.reenter values) fr) (hbl : F.blocks[b]? = some B) (hrest : fr.rest = B.instrs)
    (hfn : fr.fn = F.id) (hret : F.ret.isStruct = false) (hsmall : h < 2 ^ 63) :
    (h ≤ e.limits.stackSize ∨ h = σ.height →
      ∃ e', (∀ fuel, n ≤ fuel → run m fuel [fr] e = (.returned ⟨v, []⟩, e')) ∧ Kin e e') ∧
    (¬ (h ≤ e.limits.stackSize ∨ h = σ.height) → RunsOver m fr e n) := by
  generalize hd : Datum.word v = d at hr
  induction hr generalizing base fr e B with
  | done hbl' hb =>
    subst hd
    cases hbl.symm.trans hbl'
    have h := run_ret hF hfill hb (hB.reenter values) hfr hrest hfn hret hsmall
    exact h
  | goto hbl' hb hne hr ih =>
    rename_i b b' C σ σ' n d h
    subst hd
    obtain rfl : B = C := Option.some.inj (hbl.symm.trans hbl')
    obtain ⟨B', hbl''⟩ := hr.block
    have hfirst := run_goto hF hfill hb (hB.reenter values) hfr hrest hbl'' (hr.height_le.trans_lt hsmall)
    have hheight : (σ.reenter values).height = σ.height := rfl
    rw [hheight] at hfirst
    refine chained hb.height_le hr.height_le ⟨hfirst.1, fun hor ↦ (hfirst.2 hor).mono (Nat.le_add_right ..)⟩
      fun ⟨base₁, fr₁, e₁, h₁⟩ ↦ ?_
    have hnext := ih h₁.backed (h₁.framed.reenter fun j d hj ↦ hb.values hj) hbl'' h₁.rest (h₁.fn.trans hfn) hsmall rfl
    rw [h₁.kin.limits] at hnext
    refine ⟨fun hor ↦ ?_, fun hor ↦ (hnext.2 hor).after h₁.kin h₁.run⟩
    obtain ⟨e', hrun, hkin⟩ := hnext.1 hor
    exact ⟨e', run_after h₁.run hrun, h₁.kin.trans hkin⟩

/-- A call from outside returns what the slot machine does, unless the stack grows over its limit. -/
theorem run_result {n h : Nat} {v : UInt64} {B : Ssa.Block} (hr : Result F fill args n (.word v) h) (he : Idle e)
    (hbl : F.blocks[0]? = some B) (hret : F.ret.isStruct = false) (hsmall : h < 2 ^ 63) :
    (h ≤ e.limits.stackSize ∨ h = 0 →
      ∃ e', (∀ fuel, n ≤ fuel → run m fuel [entryFrame F args B] e = (.returned ⟨v, []⟩, e')) ∧ Kin e e') ∧
    (¬ (h ≤ e.limits.stackSize ∨ h = 0) → RunsOver m (entryFrame F args B) e n) := by
  obtain ⟨C, σ, b, k, hbl', hb, hne, hrets, rfl⟩ := hr
  obtain rfl : B = C := Option.some.inj (hbl.symm.trans hbl')
  obtain ⟨C, hblC⟩ := hrets.block
  have hfirst := run_goto hF hfill hb he.backed (entryFrame_framed F args B) rfl hblC (hrets.height_le.trans_lt hsmall)
  refine chained (Nat.zero_le _) hrets.height_le ⟨hfirst.1, fun hor ↦ (hfirst.2 hor).mono (Nat.le_add_right ..)⟩
    fun ⟨base₁, fr₁, e₁, h₁⟩ ↦ ?_
  have hnext := run_returns hF hfill hrets h₁.backed (h₁.framed.reenter fun _ _ hj ↦ hj) hblC h₁.rest h₁.fn hret hsmall
  rw [h₁.kin.limits] at hnext
  refine ⟨fun hor ↦ ?_, fun hor ↦ (hnext.2 hor).after h₁.kin h₁.run⟩
  obtain ⟨e', hrun, hkin⟩ := hnext.1 hor
  exact ⟨e', run_after h₁.run hrun, h₁.kin.trans hkin⟩

end step

end CilSsa.SlotMachine

