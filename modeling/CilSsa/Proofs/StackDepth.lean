import CilSsa.Proofs.CarriedOperands
import CilSsa.Proofs.JoinTypes
import CilSsa.Proofs.TypedBodies
import Mathlib.Algebra.BigOperators.Ring.Finset

namespace CilSsa.Lowering

open CilSsa.Bytecode CilSsa.Metadata
open CilSsa.Ssa (BlockId FuncId Function Instr Module Value)

/-- The move puts what carries an operand of the type `t` onto the run-time stack. -/
def Puts (u : CompilationUnit) (t : Ty) (d : Shift) : Prop := ∃ c n, d = .push c n ∧ Bears u t c ∧ c.width? = some n

def rises (ds : List Shift) : Int := (ds.map Shift.rise).sum

section

variable {site : Site} {fn : FuncId} {b : Nat} {F : Function} {u u' : CompilationUnit} {s s' : Stage}
  {t t' : Ty} {c : Ssa.Ty} {n m : Nat} {d : Shift} {start : Nat} {os : List Nat}

theorem Weighs.mono (h : Extended u u') : Weighs u t n → Weighs u' t n := fun ⟨c, hm, hc⟩ ↦ ⟨c, hm.mono h, hc⟩

theorem Measures.mono {n : Int} (h : Extended u u') (hn : Measures u t n) : Measures u' t n := fun ht ↦ by
  obtain ⟨k, rfl, hk⟩ := hn ht
  exact ⟨k, rfl, hk.mono h⟩

theorem Puts.mono (h : Extended u u') : Puts u t d → Puts u' t d := fun ⟨c, n, hd, hb, hc⟩ ↦ ⟨c, n, hd, hb.mono h, hc⟩

theorem Weighs.unique (h : Weighs u t n) (halike : Alike u t t') (hb : Bears u t' c)
    (hc : c.width? = some m) : n = m := by
  obtain ⟨c₀, hm, hc₀⟩ := h
  refine (hb.width ?_ hc hc₀).symm
  rcases halike with rfl | ⟨c₁, ht, ht'⟩
  · exact hm
  · exact hm.unique ht ▸ ht'

theorem Fetches.weighs (h : Fetches u t d) : Weighs u t d.bytes ∧ d.rise = -d.bytes := by
  obtain ⟨c, n, rfl, hm, hc⟩ := h
  exact ⟨⟨c, hm, hc⟩, rfl⟩

theorem Fetches.flat (h : Fetches u t d) : t.kind ≠ .valueType := by
  obtain ⟨c, n, rfl, hm, hc⟩ := h
  exact (Bears.plain hm).flat hc

theorem rises_append (ds ds' : List Shift) : rises (ds ++ ds') = rises ds + rises ds' := by
  simp [rises]

/-! ### The end of a block -/

theorem pushAll_puts {depth : Int} {vs : List Operand} {ts : List Ty} (he : Lowers (pushAll depth vs) site s u ts s' u')
    (hs : Laid site fn b u s) (hi : s.inferring = false) (hvs : ∀ v ∈ vs, Borne u site.top v)
    (hF : Hosts fn site.top F u) (hu : Weighed site.world u) : Weighed site.world u' ∧ Extended u u' ∧ ∃ F' ds,
    Hosts fn site.top F' u' ∧
      Gains fn site.top b F ds F' ∧ List.Forall₂ (Puts u') ts ds ∧ (ds ≠ [] → depth + rises ds ≤ site.capacity) := by
  induction vs generalizing depth s u ts F with
  | nil =>
    obtain ⟨rfl, rfl, rfl⟩ := Lowers.pure_iff.mp he
    exact ⟨hu, .refl u, F, [], hF, .refl, .nil, fun h ↦ absurd rfl h⟩
  | cons v vs ih =>
    obtain ⟨_, _, _, hread, he⟩ := Lowers.bind_iff.mp he
    obtain ⟨rfl, rfl, rfl⟩ := Lowers.read_iff.mp hread
    obtain ⟨w, s₁, u₁, hw, he⟩ := Lowers.bind_iff.mp he
    obtain ⟨hv, hvs⟩ := List.forall_mem_cons.mp hvs
    have hspilled : CarryingAt site fn b u (liftM (spilled v)) fun x u' ↦ Borne u' site.top x ∧
      x.value.type.isStruct = false :=
      carrying_spilled hv
    obtain ⟨⟨k, rfl⟩, ⟨hborne, hstruct⟩, hu₁, hg₁, F₁, hF₁, hgains₁⟩ := hspilled.idle (idle_spilled v) hw hs hi hF hu
    obtain ⟨n, _, u₂, hn, he⟩ := Lowers.bind_iff.mp he
    obtain ⟨rfl, hsize⟩ := Lowers.compile_iff.mp hn
    obtain ⟨hwidth, hu₂, hg₂, hF₂⟩ := sizeOf_keeps hsize hF₁.toHouses hu₁
    obtain ⟨n, rfl, hbytes⟩ := hwidth hstruct
    dsimp only at he
    split at he
    · obtain ⟨_, _, _, hthrow, -⟩ := Lowers.bind_iff.mp he
      exact absurd hthrow Lowers.throw_iff
    rename_i hroom
    obtain ⟨_, s₃, u₃, hpush, he⟩ := Lowers.bind_iff.mp he
    obtain ⟨⟨k', rfl⟩, hu₃, hg₃, F₃, lines, hF₃, hwrites, hspelt⟩ :=
      writing_pushBuffer site.top w.value n _ _ _ _ _ F₁ (Lowers.emit_iff.mp hpush) hs.own hs.block hF₂ hu₂
    obtain ⟨ts', _, _, hrest, he⟩ := Lowers.bind_iff.mp he
    obtain ⟨rfl, rfl, rfl⟩ := Lowers.pure_iff.mp he
    have hg := (hg₁.trans hg₂).trans hg₃
    have hgains : Gains fn site.top b F [.push w.value.type n] F₃ := hgains₁.shift hspelt hwrites
    obtain ⟨hu', hg', F', ds, hF', hgains', hputs, hdepth⟩ :=
      ih hrest { hs.mono hg with } hi (fun v hv ↦ (hvs v hv).mono hg) (hF.later hgains.earlier hF₃) hu₃
    refine ⟨hu', hg.trans hg', F', _, hF', hgains.trans hgains', .cons ⟨_, n, rfl, ?_, hbytes⟩ hputs, fun _ ↦ ?_⟩
    · exact (hborne.bears.mono (hg₂.trans hg₃)).mono hg'
    · rw [rises_append, ← add_assoc]
      by_cases hds : ds = []
      · subst hds
        simpa [rises, Shift.rise] using hroom
      · simpa [rises, Shift.rise] using hdepth hds

theorem recordEntry_keeps {shape : List Ty} {o : Nat} {x : Unit} (he : Lowers (recordEntry shape o) site s u x s' u')
    (hs : Laid site fn b u s) (hi : s.inferring = false) (hF : Hosts fn site.top F u) (hu : Weighed site.world u) :
    Laid site fn b u' s' ∧ s'.inferring = false ∧ (∀ p ∈ s'.entries, p ∈ s.entries ∨ p.2 = shape) ∧
      Weighed site.world u' ∧ Extended u u' ∧ ∃ F', Hosts fn site.top F' u' ∧ Gains fn site.top b F [] F' := by
  obtain ⟨_, _, _, hget, he⟩ := Lowers.bind_iff.mp he
  obtain ⟨rfl, rfl, rfl⟩ := Lowers.getThe_iff.mp hget
  split at he
  · obtain ⟨rfl, rfl⟩ := Lowers.set_iff.mp he
    refine ⟨{ hs with }, hi, fun p hp ↦ ?_, hu, .refl u, F, hF, .refl⟩
    exact (List.mem_cons.mp hp).symm.imp_right fun h ↦ by rw [h]
  · rename_i known _
    obtain ⟨same, s₁, u₁, hsame, he⟩ := Lowers.bind_iff.mp he
    obtain ⟨⟨k, rfl⟩, -, hu₁, hg, F', hF', hgains⟩ :=
      (carrying_sameShape known shape).idle (idle_sameShape known shape) hsame hs hi hF hu
    cases same with
    | false => exact absurd he Lowers.throw_iff
    | true =>
      obtain ⟨-, rfl, rfl⟩ := Lowers.pure_iff.mp he
      exact ⟨{ hs.mono hg with }, hi, fun _ hp ↦ .inl hp, hu₁, hg, F', hF', hgains⟩

theorem recordAll_keeps {shape : List Ty} {x : PUnit} (he : Lowers (os.forM (recordEntry shape)) site s u x s' u')
    (hs : Laid site fn b u s) (hi : s.inferring = false) (hF : Hosts fn site.top F u) (hu : Weighed site.world u) :
    Laid site fn b u' s' ∧ s'.inferring = false ∧ (∀ p ∈ s'.entries, p ∈ s.entries ∨ p.2 = shape) ∧
      Weighed site.world u' ∧ Extended u u' ∧ ∃ F', Hosts fn site.top F' u' ∧ Gains fn site.top b F [] F' := by
  induction os generalizing s u F with
  | nil =>
    obtain ⟨-, rfl, rfl⟩ := Lowers.pure_iff.mp he
    exact ⟨hs, hi, fun _ hp ↦ .inl hp, hu, .refl u, F, hF, .refl⟩
  | cons o os ih =>
    obtain ⟨_, s₁, u₁, hfirst, hrest⟩ := Lowers.bind_iff.mp he
    obtain ⟨hs₁, hi₁, hrecorded, hu₁, hg, F₁, hF₁, hgains⟩ := recordEntry_keeps hfirst hs hi hF hu
    obtain ⟨hs', hi', hrecorded', hu', hg', F', hF', hgains'⟩ := ih hrest hs₁ hi₁ hF₁ hu₁
    refine ⟨hs', hi', fun p hp ↦ ?_, hu', hg.trans hg', F', hF', hgains.trans hgains'⟩
    exact (hrecorded' p hp).elim (hrecorded p) .inr

theorem exists_weights {ts : List Ty} {ns : List Int} (hflat : ∀ t ∈ ts, t.kind ≠ .valueType)
    (h : List.Forall₂ (Measures u) ts ns) :
    ∃ ks : List Nat, ns = ks.map (↑) ∧ List.Forall₂ (Weighs u) ts ks := by
  induction h with
  | nil => exact ⟨[], rfl, .nil⟩
  | cons hn _ ih =>
    obtain ⟨ht, hflat⟩ := List.forall_mem_cons.mp hflat
    obtain ⟨k, rfl, hk⟩ := hn ht
    obtain ⟨ks, rfl, hks⟩ := ih hflat
    exact ⟨k :: ks, rfl, .cons hk hks⟩

/-- At the end of a block the operands that it pushed are put onto the run-time stack, and no aggregate is recorded. -/
theorem flush_puts {x : Unit} (he : Lowers (flush start os) site s u x s' u') (hs : Laid site fn b u s)
    (hF : Hosts fn site.top F u) (hu : Weighed site.world u) (hflat : ∀ p ∈ s.settled start, ∀ t ∈ p.2,
    t.kind ≠ .valueType) : Laid site fn b u' s' ∧ s'.inferring = false ∧
    (∀ p ∈ s'.entries, ∀ t ∈ p.2, t.kind ≠ .valueType) ∧
      Weighed site.world u' ∧ Extended u u' ∧ ∃ F' ds ns, Hosts fn site.top F' u' ∧ Gains fn site.top b F ds F' ∧
      List.Forall₂ (Weighs u') s.entry ns ∧
        List.Forall₂ (Puts u') (s.pending.map Operand.spilledType).reverse ds ∧
        (ds ≠ [] → ns.sum + rises ds ≤ site.capacity) := by
  unfold flush at he
  simp only [Lowers.bind_iff, Lowers.getThe_iff, Lowers.modifyThe_iff] at he
  obtain ⟨_, _, v, hsettle, _, _, _, ⟨rfl, rfl, rfl⟩, sizes, s₂, u₂, hsizes, ts, s₃, u₃, hpush, _, _, _,
    ⟨rfl, rfl⟩, hrecord⟩ := he
  obtain ⟨rfl, rfl⟩ := settleEntry_spec hsettle
  have hs₁ : Laid site fn b v { s with entries := s.settled start, inferring := false } := { hs with }
  have hmeasure : CarryingAt site fn b v (s.entry.reverse.mapM operandSize) fun ns u' ↦
      List.Forall₂ (Measures u') s.entry.reverse ns :=
    .mapM (T := fun t n u ↦ Measures u t n) (fun hg hn ↦ hn.mono hg) fun u' t _ _ ↦ carrying_operandSize t
  obtain ⟨⟨k, rfl⟩, hmeasured, hu₂, hg₂, F₂, hF₂, hgains₂⟩ :=
    hmeasure.idle (Idle.mapM fun t _ ↦ idle_operandSize t) hsizes hs₁ rfl hF hu
  have hbelow : ∀ t ∈ s.entry.reverse, t.kind ≠ .valueType := fun t ht ↦ hs.flat t (List.mem_reverse.mp ht)
  obtain ⟨ns, rfl, hns⟩ := exists_weights hbelow hmeasured
  obtain ⟨hu₃, hg₃, F₃, ds, hF₃, hgains₃, hputs, hroom⟩ := pushAll_puts hpush { hs₁.mono hg₂ with } rfl
    (fun v hv ↦ (hs.pending v (List.mem_reverse.mp hv)).mono hg₂) hF₂ hu₂
  obtain ⟨rfl, k', rfl⟩ := pushAll_types hpush
  obtain ⟨hs', hi', hrecorded, hu', hg', F', hF', hgains'⟩ :=
    recordAll_keeps hrecord { hs₁.mono (hg₂.trans hg₃) with pending := nofun } rfl hF₃ hu₃
  refine ⟨hs', hi', fun p hp ↦ ?_, hu', (hg₂.trans hg₃).trans hg', F', ds, ns.reverse, hF', ?_, ?_, ?_, fun hds ↦ ?_⟩
  · refine (hrecorded p hp).elim (hflat p) fun heq t ht ↦ ?_
    rcases List.mem_append.mp (heq ▸ ht) with ht | ht
    · exact hbelow t ht
    · obtain ⟨d, -, c, n, -, hb, hc⟩ := exists_right_of_forall₂ hputs ht
      exact hb.flat hc
  · simpa using (hgains₂.trans hgains₃).trans hgains'
  · rw [← List.forall₂_reverse_iff, List.reverse_reverse]
    exact hns.imp fun _ _ h ↦ h.mono (hg₃.trans hg')
  · rw [← List.map_reverse]
    exact hputs.imp fun _ _ h ↦ h.mono hg'
  · rw [List.sum_reverse, Nat.cast_list_sum]
    exact hroom hds

/-! ### Whole blocks -/

/-- The block of a span makes the exchange `x`. What it takes are the moves `pops`, what it leaves takes `ns` bytes, and
what it puts there are the moves `pushes`, for which there is room. All this is recorded in `E`. -/
structure Balance (site : Site) (u : CompilationUnit) (E : List (Nat × List Ty)) (sp : Bytecode.Span) (x : Exchange)
    (pops pushes : List Shift) (ns : List Nat) : Prop where
  handed : List.Forall₂ (Fetches u) x.handed pops
  left : List.Forall₂ (Weighs u) x.left ns
  pushed : List.Forall₂ (Puts u) x.pushed.reverse pushes
  room : pushes ≠ [] → ns.sum + rises pushes ≤ site.capacity
  own : E.lookup sp.start = some (x.handed ++ x.left).reverse
  next : ∀ o ∈ follows sp, ∃ e, E.lookup o = some e ∧ List.Forall₂ (Alike u) e (x.pushed ++ x.left).reverse

theorem Balance.mono {E E' : List (Nat × List Ty)} {sp : Bytecode.Span} {x : Exchange}
    {pops pushes : List Shift} {ns : List Nat} (hg : Extended u u') (hE : ∀ o e, E.lookup o = some e →
    E'.lookup o = some e) (h : Balance site u E sp x pops pushes ns) : Balance site u' E' sp x pops pushes ns where
  handed := h.handed.imp fun _ _ ↦ .mono hg
  left := h.left.imp fun _ _ ↦ .mono hg
  pushed := h.pushed.imp fun _ _ ↦ .mono hg
  room := h.room
  own := hE _ _ h.own
  next o ho := (h.next o ho).imp fun _ he ↦ ⟨hE _ _ he.1, he.2.imp fun _ _ ↦ .mono hg⟩

/-- The code of a block moves the cursor as it takes operands and then puts some there, and is shut by an instruction
that leads to the blocks that follow. -/
theorem lowerTraced_balance {sp : Bytecode.Span} {x : Unit} (hsite : site.Genuine) (htiles : Tiles site.spans sp)
    (hslots : ∀ w ∈ site.args ++ site.locals, Borne u site.top w) (hfn : s.fn = fn)
    (hflat : ∀ p ∈ s.entries, ∀ t ∈ p.2, t.kind ≠ .valueType) (hF : Hosts fn site.top F u) (hu : Weighed site.world u)
    (he : Lowers (lowerTraced n sp) site s u x s' u') :
    s'.fn = fn ∧ (∀ p ∈ s'.entries, ∀ t ∈ p.2, t.kind ≠ .valueType) ∧
      (∀ o e, s.entries.lookup o = some e → s'.entries.lookup o = some e) ∧ Weighed site.world u' ∧ Extended u u' ∧
      ∃ F' i x pops pushes ns,
        Hosts fn site.top (F'.append n i).1 u' ∧ LeadsTo site fn i (follows sp) ∧
        Gains fn site.top n F (pops ++ pushes) F' ∧ Balance site u' s'.entries sp x pops pushes ns := by
  have hgoing : Going site fn s u := ⟨hfn, hu.typed, F, hF.toHouses⟩
  obtain ⟨t, s₁, u₁, s₂, u₂, i, v, s₃, u₃, t', htoEnd, hup, hflush, hemit, hleads, hsettle, rfl⟩ :=
    lowerTraced_inv htiles he
  -- Traces are no matter of types and sizes.
  have htraced : ∀ {w : CompilationUnit} t, Extended w { w with tracing := t } := fun _ ↦ ⟨.refl _, fun _ _ _ h ↦ h⟩
  have hkept : ∀ {w : CompilationUnit} t, Weighed site.world w → Weighed site.world { w with tracing := t } :=
    fun t hw ↦ (lasting_weighed site.world).same hw ⟨rfl, rfl, rfl, .nothing⟩
  have hopened : Laid site fn n { u with tracing := t } (opened s n sp.start) := by
    refine ⟨hsite, fun w hw ↦ (hslots w hw).mono (htraced t), hfn, rfl, nofun, fun t ht ↦ ?_⟩
    cases hlookup : s.entries.lookup sp.start with
    | none => simp [opened, hlookup] at ht
    | some e => exact hflat _ (mem_of_lookup hlookup) t (by simpa [opened, hlookup] using ht)
  obtain ⟨hs₁, -, F₁, ts, ds, hcar⟩ :=
    carrying_lowerUpTo htiles _ _ _ _ F hup hopened ⟨hF.of_functions rfl rfl, hF.slot⟩ (hkept t hu)
  have hx : Exchanges site n sp s u ⟨ts, s₁.entry, s₁.pending.map Operand.spilledType⟩ :=
    ⟨s₁, u₁, htoEnd, hcar.hands, rfl, rfl⟩
  obtain ⟨hown, hrecorded⟩ := hx.recorded hsite htiles hgoing he
  have hsettled : ∀ p ∈ s₁.settled sp.start, ∀ t ∈ p.2, t.kind ≠ .valueType := by
    obtain ⟨-, -, hsame, hinferring, -, hinferred⟩ := hcar.hands.spec
    unfold Stage.settled
    split
    · rename_i hi
      have hunknown : s.entries.lookup sp.start = none := Option.isNone_iff_eq_none.mp (hinferring.symm.trans hi)
      have hnew : s₁.inferred = ts.reverse ++ [] :=
        (hinferred (hinferring.symm.trans hi) (by simp [opened, hunknown])).2
      refine List.forall_mem_cons.mpr ⟨fun t ht ↦ ?_, fun p hp ↦ hflat p (by rwa [hsame] at hp)⟩
      obtain ⟨d, -, hd⟩ := exists_right_of_forall₂ hcar.takes (List.mem_reverse.mp (by simpa [hnew] using ht))
      exact hd.flat
    · rw [hsame]
      exact hflat
  obtain ⟨hs₂, hi₂, hflat₂, hu₂, hg₂, F₂, ds', ns, hF₂, hgains, hns, hputs, hroom⟩ :=
    flush_puts hflush hs₁ hcar.hosts hcar.kept hsettled
  obtain ⟨_, _, _, hget, hemit⟩ := Emits.bind_iff.mp (Lowers.emit_iff.mp hemit)
  obtain ⟨rfl, rfl, rfl⟩ := Emits.get_iff.mp hget
  rw [hs₂.block] at hemit
  obtain ⟨rfl, -, hu₃, hg₃, hF₃⟩ := emitAt_keeps hemit hs₂.own hF₂.toHouses hu₂
  obtain ⟨rfl, -⟩ := settleEntry_spec hsettle
  have hg := (hg₂.trans hg₃).trans (htraced t')
  refine ⟨hs₂.own, ?_, hrecorded.kept, hkept t' hu₃, ((htraced t).trans hcar.grown).trans hg, F₂, i,
    ⟨ts, s₁.entry, s₁.pending.map Operand.spilledType⟩, ds, ds', ns,
    hF₂.later (earlier_append F₂ n i) (hF₃.of_functions rfl rfl), hs₂.own ▸ hleads, hcar.code.trans hgains, ?_⟩
  · dsimp only
    rw [Stage.settled, hi₂]
    exact hflat₂
  · exact ⟨hcar.takes.imp fun _ _ ↦ .mono hg, hns.imp fun _ _ ↦ .mono (hg₃.trans (htraced t')),
      hputs.imp fun _ _ ↦ .mono (hg₃.trans (htraced t')), hroom, hown, hrecorded.each⟩

/-- Block `b` of the code makes the moves `ds`, and an instruction that leads to the blocks at the offsets `os` shuts
it. -/
def Closes (site : Site) (fn : FuncId) (F : Function) (b : Nat) (ds : List Shift) (os : List Nat) : Prop :=
  ∃ B ks k i, F.blocks[b]? = some B ∧ B.instrs = ks ++ [k] ∧ F.instrs[k]? = some i ∧ LeadsTo site fn i os ∧
    Moves fn site.top F B.instrs ds

/-- The first block sets the run-time stack up, and else does not touch the slot of the cursor. -/
def Begins (fn : FuncId) (top : Value) (size : Int) (F : Function) : Prop :=
  ∃ B js ks buffer x o, F.blocks[0]? = some B ∧ B.instrs = js ++ ks ∧ Spells fn F js (opening size buffer top x o) ∧
    Moves fn top F ks []

variable {F' : Function} {ds : List Shift} {ks : List Nat} {top : Value} {size : Int}

theorem Closes.later (h : Closes site fn F b ds os) (happ : Appends (fun _ _ ↦ True) b F F' []) :
    Closes site fn F' b ds os := by
  obtain ⟨B, ks, k, i, hB, hinstrs, hi, hleads, hmoves⟩ := h
  refine ⟨_, ks, k, i, happ.block B hB, ?_, happ.earlier k i hi, hleads, ?_⟩
  · rw [List.append_nil, hinstrs]
  · simpa using hmoves.mono happ.earlier

theorem successors_of_last {B : Ssa.Block} {k : Nat} {i : Instr} (hF : Houses fn F u) (hB : F.blocks[b]? = some B)
    (hinstrs : B.instrs = ks ++ [k]) (hi : F.instrs[k]? = some i) (hends : i.op.isTerminator = true) :
    u.module.successors ⟨fn, b⟩ = i.successors := by
  have hlast : F.terminator? B = some i := by
    simp [Function.terminator?, hinstrs, Function.instr?, hi, hends]
  simp [Module.successors, hF.found, hB, hlast]

theorem Closes.successors (h : Closes site fn F b ds os) (hF : Houses fn F u) :
    u.module.successors ⟨fn, b⟩ = os.map fun o ↦ some ⟨fn, blockOf site.spans o⟩ := by
  obtain ⟨B, ks, k, i, hB, hinstrs, hi, hleads, -⟩ := h
  rw [successors_of_last hF hB hinstrs hi hleads.ends, hleads.successors]

theorem Begins.later (h : Begins fn top size F)
    (happ : Appends (fun G k ↦ ∃ i, G.instrs[k]? = some i ∧ Aside top i) 0 F F' ks) : Begins fn top size F' := by
  obtain ⟨B, js, ks', buffer, x, o, hB, hinstrs, hspells, hmoves⟩ := h
  have hquiet : Moves fn top F' ks [] := by
    have hall := happ.each
    clear happ
    induction ks with
    | nil => exact .nil
    | cons k ks ih =>
      obtain ⟨⟨i, hi, haside⟩, hall⟩ := List.forall_mem_cons.mp hall
      exact .aside hi haside (ih hall)
  refine ⟨_, js, ks' ++ ks, buffer, x, o, happ.block B hB, ?_, hspells.mono happ.earlier,
    (hmoves.mono happ.earlier).append hquiet⟩
  rw [hinstrs, List.append_assoc]

/-! ### The set-up -/

theorem carrying_bindArgument (site : Site) {f : Function} {i : Nat} (ht : Passes u t (f.param i).type)
    (hp : f.param i ≠ site.top) : Carrying site fn 0 u (bindArgument f t i) fun w u' ↦ Borne u' site.top w := by
  unfold bindArgument
  dsimp only
  split
  · exact .pure ⟨.plain ht.1, hp, nofun⟩
  refine (carrying_slotFor _ ("arg" ++ toString i)).bind fun slot u₁ hg₁ hslot ↦ ?_
  refine (carrying_emitAt (i := .store (f.param i) slot) (.inl rfl) (aside_two hp hslot.2)).bind fun _ u₂ hg₂ _ ↦
    .pure ?_
  exact ⟨hslot.1 ▸ .address rfl (.plain (ht.1.mono (hg₁.trans hg₂))), hslot.2, fun _ ↦ rfl⟩

theorem carrying_bindLocal (site : Site) (t : Ty) (i : Nat) :
    Carrying site fn 0 u (bindLocal site.world t i) fun w u' ↦ Borne u' site.top w := by
  refine Carrying.bind (R := fun c u' ↦ Bears u' t c) (.compile fun u' F c hc hF hu ↦ ?_) fun c u₁ _ hc ↦ ?_
  · have hc := Compiles.adapt_iff.mp hc
    split at hc
    · rename_i href
      obtain ⟨e, _, he, hc⟩ := Compiles.bind_iff.mp hc
      obtain ⟨rfl, rfl⟩ := Compiles.pure_iff.mp hc
      obtain ⟨hm, hkept⟩ := counterpart_keeps he hF hu
      exact ⟨.address (by rw [Ty.isAddress, href, Bool.true_or]) (.plain hm), hkept⟩
    · obtain ⟨hm, hkept⟩ := counterpart_keeps hc hF hu
      exact ⟨.plain hm, hkept⟩
  refine Carrying.bind (R := fun _ _ ↦ True) (.compile fun u' F n hn hF hu ↦
    ⟨trivial, (sizeOf_keeps (Compiles.adapt_iff.mp hn) hF hu).2⟩) fun n u₂ hg₂ _ ↦ ?_
  refine (carrying_slotFor c ("loc" ++ toString i)).bind fun slot u₃ hg₃ hslot ↦ ?_
  refine (carrying_clearAt n hslot.2).bind fun _ u₄ hg₄ _ ↦ .pure ⟨?_, hslot.2, fun _ ↦ rfl⟩
  exact hslot.1 ▸ .address rfl (hc.mono ((hg₂.trans hg₃).trans hg₄))

theorem prepare_begins {world : Universe} {fuel : Nat} {m : Method} {body : Body} {args : List Ty} {f : Function}
    {spans : List Bytecode.Span} {B : Ssa.Block} (hworld : Consistent world)
    (hargs : List.Forall₂ (Passes u) args f.paramTypes) (hF : Houses f.id F u) (hblank : Blank F)
    (hB : F.blocks[0]? = some B) (hu : Weighed world u)
    (he : Emits (prepare world (compileMethod world fuel) m body args f spans) { fn := f.id } u site s u') :
    site.world = world ∧ site.capacity = bufferSize body.maxStack ∧ site.Genuine ∧
      (∀ w ∈ site.args ++ site.locals, Borne u' site.top w) ∧ Weighed world u' ∧ ∃ F', Hosts f.id site.top F' u' ∧
        Begins f.id site.top (bufferSize body.maxStack) F' ∧ ∀ b ≠ 0, Appends (fun _ _ ↦ True) b F F' [] := by
  obtain ⟨top, _, u₁, hmake, he⟩ := Emits.bind_iff.mp he
  obtain ⟨⟨k, rfl⟩, hu₁, hg₁, F₁, _, hF₁, hwrites, buffer, x, o, rfl⟩ :=
    writing_makeBuffer _ _ _ _ _ _ F hmake rfl rfl hF hu
  obtain ⟨js, happ, hspells⟩ := hwrites.appends
  have htop : ∃ k t, top = .instr ⟨f.id, k⟩ t ∧ k < F₁.instrs.size := by
    obtain _ | ⟨-, _ | ⟨⟨htop, _, _, hk⟩, -⟩⟩ := hspells
    exact ⟨_, _, htop, (Array.getElem?_eq_some_iff.mp hk).1⟩
  have hparam : ∀ i, f.param i ≠ top := by
    obtain ⟨_, _, rfl, -⟩ := htop
    exact fun _ ↦ Value.noConfusion
  let bare : Site :=
    { world, method := m, spans, top, capacity := bufferSize body.maxStack, compile := compileMethod world fuel }
  have hlaid : Laid bare f.id 0 u₁ { fn := f.id, constants := k } :=
    ⟨⟨hworld, fuel, rfl⟩, fun _ h ↦ absurd h List.not_mem_nil, rfl, rfl, fun _ h ↦ absurd h List.not_mem_nil,
      fun _ h ↦ absurd h List.not_mem_nil⟩
  have hslots : Carrying bare f.id 0 u₁ (do
      let args ← args.zipIdx.mapM fun p ↦ bindArgument f p.1 p.2
      let locals ← body.locals.zipIdx.mapM fun p ↦ bindLocal world p.1 p.2
      return { bare with args, locals }) fun site u' ↦
      ∃ vs ws, site = { bare with args := vs, locals := ws } ∧ ∀ w ∈ vs ++ ws, Borne u' top w := by
    refine (Carrying.mapM (T := fun _ w u ↦ Borne u top w) (fun hg hw ↦ hw.mono hg) fun u' p hp hg ↦ ?_).bind
      fun vs u₂ _ hvs ↦ (Carrying.mapM (T := fun _ w u ↦ Borne u top w) (fun hg hw ↦ hw.mono hg) fun u' p _ _ ↦
        carrying_bindLocal bare p.1 p.2).bind fun ws u₃ hg₃ hws ↦ .pure ⟨vs, ws, rfl, ?_⟩
    · refine carrying_bindArgument bare ?_ (hparam p.2)
      obtain ⟨hlt, hat⟩ := List.mem_zipIdx' hp
      have hparam : p.2 < f.paramTypes.length := hargs.length_eq ▸ hlt
      have hpasses := (hargs.get hlt hparam).mono (hg₁.trans hg)
      rw [List.get_eq_getElem, ← hat, List.get_eq_getElem] at hpasses
      rwa [Function.param, Value.type, List.getD_eq_getElem?_getD, List.getElem?_eq_getElem hparam, Option.getD_some]
    · refine List.forall_mem_append.mpr ⟨fun w hw ↦ ?_, fun w hw ↦ ?_⟩
      · exact (exists_left_of_forall₂ hvs hw).elim fun _ h ↦ h.2.mono hg₃
      · exact (exists_left_of_forall₂ hws hw).elim fun _ h ↦ h.2
  obtain ⟨-, ⟨vs, ws, rfl, hborne⟩, F', ts, ds, hcar⟩ := hslots _ _ _ _ F₁ he hlaid ⟨hF₁, htop⟩ hu₁
  obtain rfl : ts = [] := (List.append_eq_nil_iff.mp (hcar.hands.spec.2.2.2.2.1 rfl).symm).1
  obtain rfl := List.forall₂_nil_left_iff.mp hcar.takes
  refine ⟨rfl, rfl, ⟨hworld, fuel, rfl⟩, hborne, hcar.kept, F', hcar.hosts, ?_, fun b hb ↦ ?_⟩
  · obtain ⟨ks, hquiet, -⟩ := hcar.code.others (a := 0) (.inr rfl)
    refine Begins.later ⟨_, js, [], buffer, x, o, happ.block B hB, ?_, hspells, .nil⟩ hquiet
    rw [hblank.blocks 0 B hB, List.append_nil]
    rfl
  · obtain ⟨ks, hquiet, hnone⟩ := hcar.code.others (a := b) (.inr rfl)
    obtain rfl := hnone hb hb
    exact (hwrites.elsewhere hb).trans (fun _ h ↦ h) ⟨hquiet.earlier, hquiet.block, List.forall_mem_nil _⟩

/-! ### One block after the other -/

/-- What is known when the blocks of `k` spans are lowered: they are balanced and shut, and those that come after are
empty. -/
structure Pace (site : Site) (fn : FuncId) (size : Int) (k : Nat) (s : Stage) (u : CompilationUnit)
    (F : Function) : Prop where
  own : s.fn = fn
  slots : ∀ w ∈ site.args ++ site.locals, Borne u site.top w
  flat : ∀ p ∈ s.entries, ∀ t ∈ p.2, t.kind ≠ .valueType
  kept : Weighed site.world u
  hosts : Hosts fn site.top F u
  begins : Begins fn site.top size F
  blank : ∀ b, k < b → b ≤ site.spans.length → ∃ B, F.blocks[b]? = some B ∧ B.instrs = []
  past : ∀ j < k, ∀ sp : Bytecode.Span, site.spans[j]? = some sp → ∃ x pops pushes ns, Balance site u s.entries sp x
    pops pushes ns ∧ Closes site fn F (j + 1) (pops ++ pushes) (follows sp)

theorem Pace.next {k : Nat} {sp : Bytecode.Span} (h : Pace site fn size k s u F) (hsite : site.Genuine)
    (htiles : Tiles site.spans sp) (hsp : site.spans[k]? = some sp)
    (he : Lowers (lowerTraced (k + 1) sp) site s u ⟨⟩ s' u') : ∃ F', Pace site fn size (k + 1) s' u' F' := by
  obtain ⟨hfn, hflat, hentries, hu', hg, F', i, x, pops, pushes, ns, hF', hleads, hgains, hbalance⟩ :=
    lowerTraced_balance hsite htiles h.slots h.own h.flat h.hosts h.kept he
  have hall : Gains fn site.top (k + 1) F (pops ++ pushes) (F'.append (k + 1) i).1 :=
    hgains.aside (.inl rfl) (.inr hleads.ends)
  have hothers : ∀ b, b ≠ k + 1 → b ≠ 0 → Appends (fun _ _ ↦ True) b F (F'.append (k + 1) i).1 [] := by
    intro b hb h0
    obtain ⟨ks, hquiet, hnone⟩ := hall.others (a := b) (.inl hb)
    obtain rfl := hnone hb h0
    exact ⟨hquiet.earlier, hquiet.block, nofun⟩
  refine ⟨_, hfn, fun w hw ↦ (h.slots w hw).mono hg, hflat, hu', hF', ?_, fun b hb hle ↦ ?_, fun j hj sp' hsp' ↦ ?_⟩
  · obtain ⟨ks, hquiet, -⟩ := hall.others (a := 0) (.inl (Nat.succ_ne_zero k).symm)
    exact h.begins.later hquiet
  · obtain ⟨B, hB, hnil⟩ := h.blank b (by omega) hle
    refine ⟨_, (hothers b (by omega) (by omega)).block B hB, ?_⟩
    rw [hnil, List.append_nil]
  · rcases Nat.lt_succ_iff_lt_or_eq.mp hj with hlt | rfl
    · obtain ⟨x', pops', pushes', ns', hbalance', hcloses⟩ := h.past j hlt sp' hsp'
      exact ⟨x', pops', pushes', ns', hbalance'.mono hg hentries, hcloses.later (hothers (j + 1) (by omega) (by omega))⟩
    · obtain rfl := Option.some.inj (hsp.symm.trans hsp')
      obtain ⟨ks, happ, hmoves⟩ := hgains.moves (Nat.succ_ne_zero j)
      obtain ⟨B, hB, hnil⟩ := h.blank (j + 1) (Nat.lt_succ_self j) (List.getElem?_eq_some_iff.mp hsp).1
      refine ⟨x, pops, pushes, ns, hbalance, _, ks, F'.instrs.size, _, append_block (happ.block B hB) i,
        ?_, append_found i, ⟨hleads.ends, hleads.successors⟩, ?_⟩
      · rw [hnil]
        rfl
      · have hend : Moves fn site.top (F'.append (j + 1) i).1 [F'.instrs.size] [] :=
          .aside (append_found i) (Aside.placed (.inr hleads.ends) F' (j + 1)) .nil
        simpa [hnil] using (hmoves.mono (earlier_append F' (j + 1) i)).append hend

end

/-! ### Along paths -/

/-- A path through the code leads to a block, and on it the cursor makes the moves of the blocks before. -/
inductive Walks (m : Module) (fn : FuncId) (shifts : Nat → List Shift) : BlockId → List Shift → Prop
  | start : Walks m fn shifts ⟨fn, 0⟩ []
  | went {b c : BlockId} {ms : List Shift} : Walks m fn shifts b ms → some c ∈ m.successors b →
      Walks m fn shifts c (ms ++ shifts b.index)

/-- After so many of the moves the cursor is not below the start of the buffer, and not above its end. -/
def Contained (size : Int) (ds : List Shift) : Prop := ∀ n, 0 ≤ rises (ds.take n) ∧ rises (ds.take n) ≤ size

section

variable {site : Site} {fn : FuncId} {u : CompilationUnit} {E : List (Nat × List Ty)} {sp sp' : Bytecode.Span}
  {x x' : Exchange} {ds ms pops pops' pushes pushes' : List Shift} {ns ns' : List Nat} {size : Int}

theorem rises_of_falls (h : ∀ d ∈ ds, d.rise = -d.bytes) : rises ds = -((ds.map Shift.bytes).sum : Nat) := by
  induction ds with
  | nil => rfl
  | cons d ds ih =>
    obtain ⟨hd, hds⟩ := List.forall_mem_cons.mp h
    have := ih hds
    simp only [rises, List.map_cons, List.sum_cons] at this ⊢
    omega

theorem rises_of_climbs (h : ∀ d ∈ ds, d.rise = d.bytes) : rises ds = ((ds.map Shift.bytes).sum : Nat) := by
  rw [Nat.cast_list_sum, rises, List.map_map]
  exact congrArg List.sum (List.map_congr_left h)

theorem bytes_take (ds : List Shift) (n : Nat) : ((ds.take n).map Shift.bytes).sum ≤ (ds.map Shift.bytes).sum := by
  conv => rhs; rw [← List.take_append_drop n ds, List.map_append, List.sum_append]
  exact Nat.le_add_right _ _

theorem Contained.append (h : Contained size ms)
    (hds : ∀ n, 0 ≤ rises ms + rises (ds.take n) ∧ rises ms + rises (ds.take n) ≤ size) :
    Contained size (ms ++ ds) := by
  intro n
  rw [List.take_append, rises_append]
  by_cases hn : n ≤ ms.length
  · have hnone : n - ms.length = 0 := Nat.sub_eq_zero_of_le hn
    simpa [hnone, rises] using h n
  · rw [List.take_of_length_le (by omega)]
    exact hds _

theorem Contained.le (h : Contained size ms) : 0 ≤ rises ms ∧ rises ms ≤ size := by
  simpa using h ms.length

theorem weights_unique {es ts : List Ty} {ms : List Nat} (h : List.Forall₂ (Weighs u) es ns)
    (halike : List.Forall₂ (Alike u) es ts)
    (hts : List.Forall₂ (fun t m ↦ ∃ c, Bears u t c ∧ c.width? = some m) ts ms) : ns = ms := by
  induction h generalizing ts ms with
  | nil =>
    cases halike
    cases hts
    rfl
  | cons hn _ ih =>
    obtain _ | ⟨ha, halike⟩ := halike
    obtain _ | ⟨⟨c, hb, hc⟩, hts⟩ := hts
    rw [hn.unique ha hb hc, ih halike hts]

/-- The bytes of what is recorded for the entry of a block, bottom first. -/
def entryBytes (pops : List Shift) (ns : List Nat) : List Nat := (pops.map Shift.bytes ++ ns).reverse

theorem Balance.entry (h : Balance site u E sp x pops pushes ns) :
    List.Forall₂ (Weighs u) (x.handed ++ x.left).reverse (entryBytes pops ns) := by
  rw [entryBytes, List.forall₂_reverse_iff]
  refine List.rel_append ?_ h.left
  exact List.forall₂_map_right_iff.mpr (h.handed.imp fun _ _ hd ↦ hd.weighs.1)

theorem Balance.falls (h : Balance site u E sp x pops pushes ns) : ∀ d ∈ pops, d.rise = -d.bytes := fun _ hd ↦
  (exists_left_of_forall₂ h.handed hd).elim fun _ ht ↦ ht.2.weighs.2

theorem Balance.climbs (h : Balance site u E sp x pops pushes ns) : ∀ d ∈ pushes, d.rise = d.bytes := by
  intro d hd
  obtain ⟨t, -, c, n, rfl, -⟩ := exists_left_of_forall₂ h.pushed hd
  rfl

theorem Balance.widths (h : Balance site u E sp x pops pushes ns) : ∀ d ∈ pops ++ pushes, d.code.width? =
    some d.bytes := by
  refine List.forall_mem_append.mpr ⟨fun d hd ↦ ?_, fun d hd ↦ ?_⟩
  · obtain ⟨t, -, c, n, rfl, -, hc⟩ := exists_left_of_forall₂ h.handed hd
    exact hc
  · obtain ⟨t, -, c, n, rfl, -, hc⟩ := exists_left_of_forall₂ h.pushed hd
    exact hc

theorem Balance.contained (h : Balance site u E sp x pops pushes ns) (hms : Contained site.capacity ms)
    (hdepth : rises ms = (entryBytes pops ns).sum) :
    Contained site.capacity (ms ++ (pops ++ pushes)) ∧ rises (ms ++ (pops ++ pushes)) = ns.sum + rises pushes := by
  have hle := hms.le
  have hpops := rises_of_falls h.falls
  have hpushes := rises_of_climbs h.climbs
  rw [entryBytes, List.sum_reverse, List.sum_append] at hdepth
  have hsum : rises (ms ++ pops) = ns.sum := by
    rw [rises_append]
    omega
  have hlow : Contained site.capacity (ms ++ pops) := hms.append fun n ↦ by
    have hn := rises_of_falls fun d hd ↦ h.falls d (List.mem_of_mem_take (i := n) hd)
    have := bytes_take pops n
    omega
  rw [← List.append_assoc, rises_append, hsum]
  refine ⟨hlow.append fun n ↦ ?_, rfl⟩
  have hn := rises_of_climbs fun d hd ↦ h.climbs d (List.mem_of_mem_take (i := n) hd)
  have := bytes_take pushes n
  by_cases hnone : pushes = []
  · subst hnone
    simpa [rises] using hlow.le
  · have := h.room hnone
    omega

theorem Balance.enters (h : Balance site u E sp x pops pushes ns) (h' : Balance site u E sp' x' pops' pushes' ns')
    (hfollows : sp'.start ∈ follows sp) : ns.sum + rises pushes = (entryBytes pops' ns').sum := by
  obtain ⟨e, he, halike⟩ := h.next _ hfollows
  obtain rfl := Option.some.inj (he.symm.trans h'.own)
  have hbears : List.Forall₂ (fun t m ↦ ∃ c, Bears u t c ∧ c.width? = some m) (x.pushed ++ x.left).reverse
      (ns.reverse ++ pushes.map Shift.bytes) := by
    rw [List.reverse_append]
    refine List.rel_append ?_ (List.forall₂_map_right_iff.mpr (h.pushed.imp fun _ _ ⟨c, n, hd, hb, hc⟩ ↦ ?_))
    · exact (List.forall₂_reverse_iff.mpr h.left).imp fun _ _ ⟨c, hm, hc⟩ ↦ ⟨c, .plain hm, hc⟩
    · subst hd
      exact ⟨c, hb, hc⟩
  rw [weights_unique h'.entry halike hbears, List.sum_append, List.sum_reverse, rises_of_climbs h.climbs]
  omega

/-- What is known of the blocks of finished code: what they move the cursor by, and that they are balanced and shut. -/
structure Steered (site : Site) (fn : FuncId) (u : CompilationUnit) (E : List (Nat × List Ty)) (F : Function)
    (shifts : Nat → List Shift) : Prop where
  houses : Houses fn F u
  room : 0 ≤ site.capacity
  begins : Begins fn site.top site.capacity F
  first : u.module.successors ⟨fn, 0⟩ = [some ⟨fn, 1⟩]
  entered : ∃ sp, site.spans[0]? = some sp ∧ E.lookup sp.start = some []
  still : shifts 0 = []
  blocks : ∀ (k : Nat) (sp : Bytecode.Span), site.spans[k]? = some sp → ∃ x pops pushes ns, shifts (k + 1) =
    pops ++ pushes ∧ Balance site u E sp x pops pushes ns ∧ Closes site fn F (k + 1) (pops ++ pushes) (follows sp)
  inside : ∀ (k : Nat) (sp : Bytecode.Span), site.spans[k]? = some sp → ∀ o ∈ follows sp,
    ∃ sp' ∈ site.spans, sp'.start = o

variable {F : Function} {shifts : Nat → List Shift} {b : BlockId}

theorem Walks.depth (h : Steered site fn u E F shifts) (hw : Walks u.module fn shifts b ms) :
    Contained site.capacity ms ∧ (b = ⟨fn, 0⟩ ∧ ms = [] ∨ ∃ k sp, b = ⟨fn, k + 1⟩ ∧ site.spans[k]? = some sp ∧
      ∀ x pops pushes ns, Balance site u E sp x pops pushes ns → rises ms = (entryBytes pops ns).sum) := by
  induction hw with
  | start => exact ⟨fun n ↦ by simpa [rises] using h.room, .inl ⟨rfl, rfl⟩⟩
  | @went b c ms _ hedge ih =>
    obtain ⟨hms, ⟨rfl, rfl⟩ | ⟨k, sp, rfl, hsp, hdepth⟩⟩ := ih
    · obtain ⟨sp, hsp, hentry⟩ := h.entered
      rw [h.first, List.mem_singleton, Option.some_inj] at hedge
      subst hedge
      rw [h.still]
      refine ⟨hms, .inr ⟨0, sp, rfl, hsp, fun x pops pushes ns hbalance ↦ ?_⟩⟩
      have hnone := Option.some.inj (hbalance.own.symm.trans hentry)
      rw [List.reverse_eq_nil_iff, List.append_eq_nil_iff] at hnone
      have hhanded := hbalance.handed
      have hleft := hbalance.left
      rw [hnone.1, List.forall₂_nil_left_iff] at hhanded
      rw [hnone.2, List.forall₂_nil_left_iff] at hleft
      rw [hhanded, hleft]
      rfl
    · obtain ⟨x, pops, pushes, ns, hshifts, hbalance, hcloses⟩ := h.blocks k sp hsp
      rw [hcloses.successors h.houses, List.mem_map] at hedge
      obtain ⟨o, ho, hc⟩ := hedge
      obtain ⟨l, sp', hsp', rfl, hblock⟩ := blockOf_inside (h.inside k sp hsp o ho)
      rw [hblock, Option.some_inj] at hc
      subst hc
      obtain ⟨hcontained, hrises⟩ := hbalance.contained hms (hdepth x pops pushes ns hbalance)
      rw [hshifts]
      refine ⟨hcontained, .inr ⟨l, sp', rfl, hsp', fun x' pops' pushes' ns' hbalance' ↦ ?_⟩⟩
      rw [hrises, hbalance.enters hbalance' ho]

end

section

variable {world : Universe} {fuel : Nat} {m : Method} {body : Body} {f : Function}
  {u u₂ : CompilationUnit} {site : Site} {stage : Nat → Stage} {unit : Nat → CompilationUnit}

theorem Stages.pace (hworld : Consistent world) (hf : Houses f.id f u) (hblank : Blank f)
    (hnone : f.blocks = #[]) (hd : Declares u m f.signature) (hu : Weighed world u)
    (h : Stages world (compileMethod world fuel) m body m.receives f u u₂ site stage unit) {k : Nat}
    (hk : k ≤ site.spans.length) : site.Genuine ∧ site.capacity = bufferSize body.maxStack ∧
      ∃ F, Pace site f.id (bufferSize body.maxStack) k (stage k) (unit k) F := by
  induction k with
  | zero =>
    obtain ⟨u₀, haddBlocks, hprepare⟩ := h.prepared
    obtain ⟨-, -, hgoing, hentries, -⟩ := Going.prepared hworld hf hu.typed h.spans haddBlocks hprepare
    obtain ⟨F₀, hF₀, hsize, hkept⟩ := addBlocks_houses hf haddBlocks
    rw [hnone, Array.size_empty, Nat.zero_add, List.length_cons, List.length_map] at hsize
    have hblank₀ : Blank F₀ := hkept Blank (fun _ name h ↦ h.addBlock name) hblank
    obtain ⟨ret, params, hsig, -, hpasses⟩ := hd
    have hparams : f.paramTypes = params := by rw [Function.paramTypes, hsig]
    have hg₀ := (sound_addBlocks hu.toSound haddBlocks).2
    obtain ⟨rfl, hcapacity, hgenuine, hslots, hkept, F, hF, hbegins, hothers⟩ := prepare_begins hworld
      (hparams ▸ hpasses.imp fun _ _ h ↦ h.mono hg₀) hF₀ hblank₀ (Array.getElem?_eq_getElem (by omega))
      (addBlocks_lasting (lasting_weighed _) hu haddBlocks) hprepare
    refine ⟨hgenuine, hcapacity, F, hgoing.own, hslots, ?_, hkept, hF, hbegins, fun b hb hle ↦ ?_,
      fun j hj ↦ absurd hj (Nat.not_lt_zero j)⟩
    · simp [hentries]
    · have hB : F₀.blocks[b]? = some F₀.blocks[b] := Array.getElem?_eq_getElem (by omega)
      refine ⟨_, (hothers b (by omega)).block _ hB, ?_⟩
      rw [hblank₀.blocks b _ hB]
      rfl
  | succ k ih =>
    obtain ⟨hgenuine, hcapacity, F, hpace⟩ := ih (by omega)
    have hsp : site.spans[k]? = some site.spans[k] := List.getElem?_eq_getElem hk
    exact ⟨hgenuine, hcapacity, hpace.next hgenuine (h.tiles hsp) hsp (h.blocks k _ hsp)⟩

theorem Stages.steered (hworld : Consistent world) (hf : Houses f.id f u) (hinstrs : f.instrs = #[])
    (hnone : f.blocks = #[]) (hd : Declares u m f.signature) (hu : Weighed world u)
    (h : Stages world (compileMethod world fuel) m body m.receives f u u₂ site stage unit) :
    site.capacity = bufferSize body.maxStack ∧
      ∃ F shifts, Steered site f.id u₂ (stage site.spans.length).entries F shifts := by
  obtain ⟨hgenuine, hcapacity, F, hpace⟩ := h.pace hworld hf (.of_empty hinstrs hnone) hnone hd hu le_rfl
  obtain ⟨v, s, hbranch⟩ := h.finished
  obtain ⟨-, -, -, hg, hF⟩ := emitAt_keeps hbranch hpace.own hpace.hosts.toHouses hpace.kept
  have hgains : Gains f.id site.top 0 F [] (F.append 0 (.br (some ⟨f.id, 1⟩))).1 := .aside .refl (.inl rfl) (.inr rfl)
  obtain ⟨B, js, ks, buffer, x, o, hB, hhead, hspells, hmoves⟩ := hpace.begins
  obtain ⟨ks', hquiet, -⟩ := hgains.others (a := 0) (.inr rfl)
  have hall : ∀ k, ∃ ds, ∀ sp, site.spans[k]? = some sp → ∃ x pops pushes ns, ds = pops ++ pushes ∧
      Balance site u₂ (stage site.spans.length).entries sp x pops pushes ns ∧
      Closes site f.id (F.append 0 (.br (some ⟨f.id, 1⟩))).1 (k + 1) (pops ++ pushes) (follows sp) := by
    intro k
    cases hsp : site.spans[k]? with
    | none => exact ⟨[], nofun⟩
    | some sp =>
      obtain ⟨x, pops, pushes, ns, hbalance, hcloses⟩ := hpace.past k (List.getElem?_eq_some_iff.mp hsp).1 sp hsp
      refine ⟨_, fun sp' hsp' ↦ ⟨x, pops, pushes, ns, rfl, ?_⟩⟩
      cases hsp'
      exact ⟨hbalance.mono hg fun _ _ ho ↦ ho, hcloses.later (appends_elsewhere (Nat.succ_ne_zero k).symm _)⟩
  choose ds hds using hall
  refine ⟨hcapacity, _, fun b ↦ b.casesOn [] ds, hF, ?_, ?_, ?_, ?_, rfl, hds, fun k sp hsp ↦ h.inside hsp⟩
  · rw [hcapacity, bufferSize]
    omega
  · exact hcapacity ▸ hpace.begins.later hquiet
  · rw [successors_of_last hF (append_block hB _) rfl (append_found _) rfl]
    rfl
  · obtain ⟨sp, rest, hspans, hzero⟩ := (discoverBlocks_ok h.spans).first
    obtain ⟨u₀, haddBlocks, hprepare⟩ := h.prepared
    obtain ⟨-, -, -, hentries, -⟩ := Going.prepared hworld hf hu.typed h.spans haddBlocks hprepare
    refine ⟨sp, by rw [hspans]; rfl, (h.kept hworld hf hu.typed (Nat.zero_le _)).2 _ _ ?_⟩
    rw [hentries, hzero]
    rfl

end

/-- The run-time stack along paths: in units between requests sizes stay. In such a unit, if a body is lowered, the code
of its function moves the cursor only where it takes operands from the run-time stack or puts some there, by as many
bytes as they take. On every path through the code from the set-up to a block the cursor rises by the bytes of what is
recorded for the entry of the block, and on the way there and in the block it stays in the buffer. That has the size
which lowering counts on, if this is no number that was cut off. -/
theorem cursor_along_paths {world : Universe} (hworld : Consistent world) :
    (∀ u, u.Reachable world → Weighed world u) ∧
    ∀ (fuel count : Nat) (m : Method) (body : Body) (f : Function) (u u₂ : CompilationUnit), Weighed world u →
    Houses f.id f u →
      f.instrs = #[] → f.blocks = #[] → Declares u m f.signature → body.maxStack < 2 ^ 28 →
      Compiles (lowerBody world (compileMethod world fuel) m body m.receives f) u count u₂ →
      ∃ site stage unit F shifts, Stages world (compileMethod world fuel) m body m.receives f u u₂ site stage unit ∧
        Houses f.id F u₂ ∧ site.capacity = bufferSize body.maxStack ∧ Begins f.id site.top site.capacity F ∧
        (-2 ^ 60 ≤ body.maxStack → site.capacity = max (8 * body.maxStack) 8 ∧ site.capacity < 2 ^ 31) ∧ shifts 0 = [] ∧
        (∀ k < site.spans.length, ∃ B, F.blocks[k + 1]? = some B ∧ Moves f.id site.top F B.instrs (shifts (k + 1)) ∧
          ∀ d ∈ shifts (k + 1), d.code.width? = some d.bytes) ∧
        ∀ b ms, Walks u₂.module f.id shifts b ms → Contained site.capacity (ms ++ shifts b.index) ∧
          (b = ⟨f.id, 0⟩ ∧ ms = [] ∨ ∃ k sp e ns, b = ⟨f.id, k + 1⟩ ∧ site.spans[k]? = some sp ∧
            (stage site.spans.length).entries.lookup sp.start = some e ∧ List.Forall₂ (Weighs u₂) e ns ∧
            rises ms = ns.sum) := by
  refine ⟨fun u hu ↦ hu.weighed hworld, fun fuel count m body f u u₂ hu hf hinstrs hblocks hd hstack hc ↦ ?_⟩
  obtain ⟨site, stage, unit, h⟩ := exists_stages hworld hf hu.typed hc
  obtain ⟨hcapacity, F, shifts, hsteered⟩ := h.steered hworld hf hinstrs hblocks hd hu
  refine ⟨site, stage, unit, F, shifts, h, hsteered.houses, hcapacity, hsteered.begins, fun hlow ↦ ?_, hsteered.still,
    fun k hk ↦ ?_, fun b ms hw ↦ ?_⟩
  · have hwrap : Number.wrapInt (body.maxStack * 8) = body.maxStack * 8 := Int.bmod_eq_of_le (by omega) (by omega)
    rw [hcapacity, bufferSize, hwrap]
    omega
  · obtain ⟨x, pops, pushes, ns, hshifts, hbalance, B, _, _, _, hB, -, -, -, hmoves⟩ :=
      hsteered.blocks k _ (List.getElem?_eq_getElem hk)
    rw [hshifts]
    exact ⟨B, hB, hmoves, hbalance.widths⟩
  · obtain ⟨hms, ⟨rfl, rfl⟩ | ⟨k, sp, rfl, hsp, hdepth⟩⟩ := hw.depth hsteered
    · rw [hsteered.still]
      exact ⟨hms, .inl ⟨rfl, rfl⟩⟩
    · obtain ⟨x, pops, pushes, ns, hshifts, hbalance, -⟩ := hsteered.blocks k sp hsp
      have hrises := hdepth x pops pushes ns hbalance
      rw [hshifts]
      exact ⟨(hbalance.contained hms hrises).1, .inr ⟨k, sp, _, _, rfl, hsp, hbalance.own, hbalance.entry, hrises⟩⟩

theorem joinUnit_weighed : Weighed joinWorld joinUnit where
  fills j F hF hname := by
    obtain _ | j := j
    · cases hF
      exact absurd hname (by decide)
    · simp [joinUnit, openUnit, freshUnit, withFunction, CompilationUnit.create] at hF
  measured l := nofun
  typed := joinUnit_typed
  mirrored := ⟨nofun, nofun, nofun⟩
  native := ⟨rfl, nofun⟩

/-- Whichever way is taken in a body with two ways to one place, the cursor stays in a buffer of 64 bytes. -/
theorem cursor_along_paths_join : Consistent joinWorld ∧ Weighed joinWorld joinUnit ∧
    Compiles joinLowering joinUnit 4 joined ∧ ∃ site stage unit shifts, Stages joinWorld (compileMethod joinWorld 1)
    joinMethod joinBody
      joinArgs joinFunction joinUnit joined site stage unit ∧ site.capacity = 64 ∧
      ∀ b ms, Walks joined.module ⟨0⟩ shifts b ms → Contained 64 (ms ++ shifts b.index) := by
  have hd : Declares joinUnit joinMethod joinFunction.signature :=
    ⟨.i64, _, rfl, .scalar rfl, .cons ⟨.scalar rfl, Ssa.Ty.noConfusion⟩ (.cons ⟨.scalar rfl, Ssa.Ty.noConfusion⟩
      (.cons ⟨.scalar rfl, Ssa.Ty.noConfusion⟩ .nil))⟩
  obtain ⟨site, stage, unit, F, shifts, h, -, hcapacity, -, hsize, -, -, hpaths⟩ :=
    (cursor_along_paths joinWorld_consistent).2 1 4 joinMethod joinBody joinFunction joinUnit joined joinUnit_weighed
      (openUnit_houses rfl) rfl rfl hd (by decide) joined_lowers
  have hsize : site.capacity = 64 := (hsize (by decide)).1
  exact ⟨joinWorld_consistent, joinUnit_weighed, joined_lowers, site, stage, unit, shifts, h, hsize,
    fun b ms hw ↦ hsize ▸ (hpaths b ms hw).1⟩

end CilSsa.Lowering

