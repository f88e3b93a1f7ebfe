import CilSsa.Proofs.IntegerMethods
import CilSsa.Proofs.OptimizedCalls

/-! A run of the slot machine is a run with variables, whichever of the slots that are only loaded from and stored
to are variables. -/

namespace CilSsa.FlowMachine

open CilSsa.Ssa CilSsa.Passes
open CilSsa.Machine (width?_cases)
open CilSsa.SlotMachine (Datum Exit Leaves Slot Store width? cell?_eq_some)

/-- A store of the slot machine as a state in which the slots that are `plain` are variables. The state may have values
that the store has forgotten, and what gives no value has none in the store. -/
structure Mirrors (F : Function) (plain : Nat → Bool) (μ : Store) (σ : State) : Prop where
  values : ∀ j d, plain j = false → μ.values j = some d → σ.values j = some d
  places : ∀ s d, plain s = true → μ.values s = some d → d = .place s 0
  mute : ∀ j x, F.instr? j = some x → x.op = .store ∨ x.op = .call → μ.values j = none
  slots : ∀ s, plain s = false → σ.slots s = μ.slots s
  vars : ∀ s sl, plain s = true → μ.slots s = some sl → ∃ w c, sl = ⟨w, [c]⟩ ∧ σ.vars s = some c
  height : σ.height = μ.height

section

variable {m : Module} {dom : DomTree} {F : Function} {plain : Nat → Bool} {fill : FuncId} {args : List UInt64}
  {b k n h s : Nat} {i : Instr} {pre rest ks : List Nat} {μ μ' : Store} {σ σ' : State} {d : Datum} {v : Value}
  {ts : List Ty} {ds : List Datum}

theorem Mirrors.start (F : Function) (plain : Nat → Bool) : Mirrors F plain {} {} :=
  ⟨nofun, nofun, fun _ _ _ _ ↦ rfl, fun _ _ ↦ rfl, nofun, rfl⟩

theorem Mirrors.reenter {values : Nat → Option Datum} (hσ : Mirrors F plain μ σ)
    (hsub : ∀ j d, values j = some d → μ.values j = some d) : Mirrors F plain (μ.reenter values) σ := by
  refine ⟨fun j d hj h ↦ hσ.values j d hj (hsub j d h), fun s d hs h ↦ hσ.places s d hs (hsub s d h),
    fun j x hx hop ↦ ?_, hσ.slots, hσ.vars, hσ.height⟩
  have hnone := hσ.mute j x hx hop
  refine Option.eq_none_iff_forall_ne_some.mpr fun d h ↦ ?_
  rw [hsub j d h] at hnone
  cases hnone

theorem Mirrors.define (hσ : Mirrors F plain μ σ) (hk : plain k = false) (hi : F.instr? k = some i)
    (hop : i.op ≠ .store ∧ i.op ≠ .call) (d : Datum) : Mirrors F plain (μ.define k d) (σ.define k d) := by
  refine ⟨fun j x hj h ↦ ?_, fun s x hs h ↦ ?_, fun j x hx hx' ↦ ?_, hσ.slots, hσ.vars, hσ.height⟩
  · simp only [Store.define, State.define] at h ⊢
    split at h
    · rename_i heq
      rwa [if_pos heq]
    · rename_i hne
      rw [if_neg hne]
      exact hσ.values j x hj h
  · have hne : s ≠ k := by
      rintro rfl
      rw [hk] at hs
      cases hs
    simp only [Store.define, hne, if_false] at h
    exact hσ.places s x hs h
  · have hne : j ≠ k := by
      rintro rfl
      cases hi.symm.trans hx
      exact hx'.elim hop.1 hop.2
    simp only [Store.define, hne, if_false]
    exact hσ.mute j x hx hx'

theorem Mirrors.setSlot (hσ : Mirrors F plain μ σ) (hs : plain s = false) (sl : Slot) :
    Mirrors F plain (μ.setSlot s sl) { σ.toStore.setSlot s sl with vars := σ.vars } := by
  refine ⟨hσ.values, hσ.places, hσ.mute, fun q hq ↦ ?_, fun q sl' hq h ↦ ?_, hσ.height⟩
  · simp only [Store.setSlot]
    split
    · rfl
    · exact hσ.slots q hq
  · have hne : q ≠ s := by
      rintro rfl
      rw [hs] at hq
      cases hq
    simp only [Store.setSlot, hne, if_false] at h
    exact hσ.vars q sl' hq h

theorem Mirrors.setVar {w : Nat} (hσ : Mirrors F plain μ σ) (hs : plain s = true) (d : Datum) :
    Mirrors F plain (μ.setSlot s ⟨w, [d]⟩) (σ.setVar s d) := by
  refine ⟨hσ.values, hσ.places, hσ.mute, fun q hq ↦ ?_, fun q sl hq h ↦ ?_, hσ.height⟩
  · have hne : q ≠ s := by
      rintro rfl
      rw [hs] at hq
      cases hq
    simp only [Store.setSlot, hne, if_false]
    exact hσ.slots q hq
  · simp only [Store.setSlot, State.setVar] at h ⊢
    split at h
    · rename_i heq
      cases h
      exact ⟨w, d, rfl, by rw [if_pos heq]⟩
    · rename_i hne
      rw [if_neg hne]
      exact hσ.vars q sl hq h

theorem Mirrors.forget (hσ : Mirrors F plain μ σ) (hk : μ.values k = none) :
    Mirrors F plain μ { σ.forget k with vars := σ.vars } := by
  refine ⟨fun j d hj h ↦ ?_, hσ.places, hσ.mute, hσ.slots, hσ.vars, hσ.height⟩
  have hne : j ≠ k := by
    rintro rfl
    rw [hk] at h
    cases h
  simp only [State.forget, hne, if_false]
  exact hσ.values j d hj h

theorem Mirrors.allocate (hσ : Mirrors F plain μ σ) (hk : plain k = false) (hi : F.instr? k = some i)
    (hop : i.op = .alloca) (sl : Slot) (align : Nat) : Mirrors F plain (μ.allocate k sl align)
    { σ.toStore.allocate k sl align with vars := σ.vars } := by
  have hmade := (hσ.setSlot hk sl).define hk hi (by rw [hop]; decide) (.place k 0)
  refine ⟨hmade.values, hmade.places, hmade.mute, hmade.slots, hmade.vars, ?_⟩
  simp only [Store.allocate, hσ.height]

theorem Mirrors.var {w : Nat} (hσ : Mirrors F plain μ σ) (hk : plain k = true) (hi : F.instr? k = some i)
    (hop : i.op = .alloca) : Mirrors F plain (μ.allocate k ⟨w, [.word 0]⟩ w)
    (σ.allocate k { size := w, align := w }) := by
  have hmade := hσ.setVar (w := w) hk (.word 0)
  refine ⟨fun j d hj h ↦ ?_, fun s d hs h ↦ ?_, fun j x hx hx' ↦ ?_, hmade.slots, hmade.vars, ?_⟩
  · have hne : j ≠ k := by
      rintro rfl
      rw [hk] at hj
      cases hj
    simp only [Store.allocate, Store.define, hne, if_false] at h
    exact hσ.values j d hj h
  · simp only [Store.allocate, Store.define] at h
    split at h
    · rename_i heq
      cases h
      rw [heq]
    · exact hσ.places s d hs h
  · have hne : j ≠ k := by
      rintro rfl
      cases hi.symm.trans hx
      rw [hop] at hx'
      simp at hx'
    simp only [Store.allocate, Store.define, hne, if_false]
    exact hσ.mute j x hx hx'
  · simp [Store.allocate, State.allocate, Slot.bytes, hσ.height]

/-! ### Operands -/

theorem suits_of_fits {t : Ty} (h : d.fits t = true) : suits d t = true := by
  unfold Datum.fits at h
  split at h
  · exact h
  · exact h
  · rfl
  · cases h

theorem Mirrors.datum (hσ : Mirrors F plain μ σ) (hno : ∀ id t, v = .instr id t → plain id.index = false)
    (hd : SlotMachine.datum F.id args μ (some v) = some d) : datum F.id plain args σ v = some d := by
  obtain ⟨hd, hfits⟩ := Option.filter_eq_some_iff.mp hd
  refine Option.filter_eq_some_iff.mpr ⟨?_, suits_of_fits hfits⟩
  cases v with
  | instr id t =>
    dsimp only at hd ⊢
    split at hd
    · rename_i hfn
      rw [if_pos ⟨hfn, hno id t rfl⟩]
      exact hσ.values _ _ (hno id t rfl) hd
    · cases hd
  | param => exact hd
  | func => cases hd
  | const c o =>
    obtain ⟨w, hw, rfl⟩ := Option.map_eq_some_iff.mp hd
    dsimp only
    rw [hw]
    rfl

theorem exists_values {os : List (Option Value)} (h : os.mapM (SlotMachine.datum F.id args μ) = some ds) :
    ∃ vs, os = vs.map some ∧ List.Forall₂ (fun v d ↦ SlotMachine.datum F.id args μ (some v) = some d) vs ds := by
  induction os generalizing ds with
  | nil =>
    cases h
    exact ⟨[], rfl, .nil⟩
  | cons o os ih =>
    rw [List.mapM_cons] at h
    obtain ⟨d, hd, h⟩ := Option.bind_eq_some_iff.mp h
    obtain ⟨ds', hds, h⟩ := Option.bind_eq_some_iff.mp h
    cases h
    obtain ⟨vs, rfl, hvs⟩ := ih hds
    cases o with
    | none => cases hd
    | some v => exact ⟨v :: vs, rfl, .cons hd hvs⟩

theorem Mirrors.reads (hσ : Mirrors F plain μ σ) (hno : ∀ id t, some (.instr id t) ∈ i.operands →
    plain id.index = false) (hr : SlotMachine.Reads F args μ k i ts ds) : ∃ vs, Reads F plain args σ i vs ds ∧
    ts = vs.map Value.type := by
  obtain ⟨vs, ho, hvs⟩ := exists_values hr.data
  refine ⟨vs, ⟨ho, ?_⟩, ?_⟩
  · have hmem := (List.forall₂_and_left vs ds).mpr ⟨fun v (hv : v ∈ vs) ↦ hv, hvs⟩
    refine hmem.imp fun v d hvd ↦ hσ.datum (fun id t heq ↦ hno id t ?_) hvd.2
    rw [ho, ← heq]
    exact List.mem_map_of_mem hvd.1
  · rw [← hr.types, ho, List.map_map]
    rfl

theorem layout_of_width {t : Ty} {w : Nat} (hw : width? t = some w) :
    scalarLayout? t = some { size := w, align := w } ∧ accessible t = true := by
  obtain ⟨rfl, rfl⟩ | ⟨⟨t', rfl⟩, rfl⟩ := width?_cases hw <;> exact ⟨rfl, rfl⟩

theorem computed_of_slots (h : SlotMachine.computed i ts ds = some d) : computed i ts ds = some d := by
  have hint : i.type = .i32 ∨ i.type = .i64 → i.type.isInt = true := by
    rintro (ht | ht) <;> rw [ht] <;> rfl
  unfold SlotMachine.computed at h
  split at h
  all_goals first | contradiction | split at h
  all_goals try contradiction
  iterate 3
    · rename_i hop hc
      obtain ⟨ht, rfl, rfl⟩ := hc
      simp [computed, hop, hint ht, h]
  · rename_i hop hc
    obtain ⟨ht, rfl, rfl, hp⟩ := hc
    simp [computed, hop, ht, hp, ← h, evalCompare, Ty.i32]
  · rename_i hop hc
    obtain ⟨-, rfl, rfl, rfl⟩ := hc
    simp [computed, hop, h]
  all_goals
    rename_i hop hc
    simp [computed, hop, hc, h]

/-! ### Steps -/

section step

variable (hv : m.Valid dom F) (hd : DomTree.Sound m F dom) (hplain : ∀ s, plain s = true → Variable dom F s)

include hv hplain

theorem At.plain_use (hat : At dom F b pre k i) {id : InstrId} {t : Ty} (ho : some (.instr id t) ∈ i.operands)
    (hs : plain id.index = true) : isPlainUse (.instr id t) i = true := by
  obtain ⟨hfn, x, hx, rfl⟩ := hv.offers hat.lists ho
  have hresult : F.result id.index = .instr id x.type := by
    rw [Function.result_eq hx, ← hfn]
  have huse := (hplain _ hs).uses hat.lists hat.live (by rw [hresult]; exact ho)
  rwa [hresult] at huse

theorem At.no_plain (hat : At dom F b pre k i) (hop : i.op ≠ .load ∧ i.op ≠ .store) :
    ∀ id t, some (.instr id t) ∈ i.operands → plain id.index = false := by
  intro id t ho
  by_contra hs
  exact (op_of_isPlainUse (hat.plain_use hv hplain ho (by simpa using hs))).elim hop.1 hop.2

omit hv hplain in
theorem Proper.place_plain {vs : List Value} {q : Nat} {o : UInt64} (hσ : Proper F plain σ)
    (hr : Reads F plain args σ i vs ds) (hq : .place q o ∈ ds) : plain q = false := by
  by_contra hne
  exact hσ.hidden.reads (s := q) (by simpa using hne) (fun id t _ hid ↦ by simp [FlowMachine.datum, hid]) hr hq

omit hv hplain in
theorem Mirrors.cell (hσ : Mirrors F plain μ σ) (hs : plain s = false) (o : UInt64) (w : Nat) :
    (σ.forget k).cell? s o w = μ.cell? s o w := by
  have hslot : (σ.forget k).slots s = μ.slots s := hσ.slots s hs
  simp only [Store.cell?, hslot]

omit hv hplain in
theorem Mirrors.plain_place {q : Nat} {o : UInt64} {id : InstrId} {t : Ty} (hσ : Mirrors F plain μ σ)
    (hs : plain id.index = true) (hd : SlotMachine.datum F.id args μ (some (.instr id t)) = some (.place q o)) : id.fn =
    F.id ∧ q = id.index := by
  obtain ⟨hd, -⟩ := Option.filter_eq_some_iff.mp hd
  dsimp only at hd
  split at hd
  · rename_i hfn
    cases hσ.places _ _ hs hd
    exact ⟨hfn, rfl⟩
  · cases hd

omit hv hplain in
theorem Mirrors.plain_cell {o : UInt64} {w : Nat} {sl : Slot} {c : Datum} (hσ : Mirrors F plain μ σ)
    (hs : plain s = true) (hc : μ.cell? s o w = some (sl, n, c)) : σ.vars s = some c ∧ ∀ d, sl.cells.set n d = [d] := by
  obtain ⟨hslot, -, -, hcell⟩ := cell?_eq_some hc
  obtain ⟨w', c', rfl, hvar⟩ := hσ.vars s sl hs hslot
  have hn : n = 0 := by
    have := (List.getElem?_eq_some_iff.mp hcell).1
    simpa using this
  subst hn
  obtain rfl : c' = c := by simpa using hcell
  exact ⟨hvar, fun d ↦ rfl⟩

omit hv hplain in
theorem Mirrors.act_slot (hσ : Mirrors F plain μ σ) (hat : At dom F b pre k i)
    (hr : SlotMachine.Reads F args μ k i [] []) {t : Ty} {w : Nat} (hop : i.op = .alloca) (ht : i.type = .pointer t)
    (hallocated : i.allocated = t) (hw : width? t = some w) (hslot : μ.slots k = none) (hvalue : μ.values k = none) :
    ∃ σ', Act F plain fill args σ k i σ' ∧ Mirrors F plain (μ.allocate k ⟨w, [.word 0]⟩ w) σ' := by
  have hi := hat.found
  obtain ⟨vs, ho, hvs⟩ := exists_values hr.data
  cases hvs
  by_cases hk : plain k = true
  · have hl : scalarLayout? i.allocated = some { size := w, align := w } := by
      rw [hallocated]
      exact (layout_of_width hw).1
    exact ⟨_, .var hk hop ho hl, hσ.var hk hi hop⟩
  · have hk : plain k = false := by simpa using hk
    have hnone : (σ.forget k).slots k = none := (hσ.slots k hk).trans hslot
    refine ⟨_, .memory hk (.inl hop) ⟨ho, .nil⟩ (.slot hop ht hallocated hw hnone (by simp [State.forget])), ?_⟩
    exact (hσ.forget hvalue).allocate hk hi hop _ _

theorem Mirrors.act_buffer (hσ : Mirrors F plain μ σ) (hat : At dom F b pre k i) {t : Ty}
    (hr : SlotMachine.Reads F args μ k i [t] [.word (4 * n).toUInt64]) (hop : i.op = .alloca)
    (ht : i.type = .pointer .i8) (hallocated : i.allocated = .i8) (hpos : 0 < n) (hsmall : 4 * n < 2 ^ 63)
    (hslot : μ.slots k = none) (hvalue : μ.values k = none) : ∃ σ', Act F plain fill args σ k i σ' ∧
      Mirrors F plain (μ.allocate k ⟨4, List.replicate n (.word 0)⟩ 1) σ' := by
  have hk : plain k = false := by
    by_contra hk
    have hnone := ((hplain k (by simpa using hk)).single hat.lists hat.live).2
    have hdata := hr.data
    rw [hnone] at hdata
    cases hdata
  obtain ⟨vs, hreads, hts⟩ := hσ.reads (hat.no_plain hv hplain (by rw [hop]; decide)) hr
  have hnone : (σ.forget k).slots k = none := (hσ.slots k hk).trans hslot
  have hnew : SlotMachine.Act fill i k (σ.forget k) [t] [.word (4 * n).toUInt64] _ :=
    .buffer hop ht hallocated hpos hsmall hnone (by simp [State.forget])
  exact ⟨_, .memory hk (.inl hop) hreads (hts ▸ hnew), (hσ.forget hvalue).allocate hk hat.found hop _ _⟩

omit hv in
/-- A load reads what is kept of a variable, or a cell. -/
theorem Mirrors.act_load (hσ : Mirrors F plain μ σ) (hproper : Proper F plain σ) (hat : At dom F b pre k i) {t : Ty}
    {q w : Nat} {o : UInt64} {sl : Slot} {c : Datum} (hr : SlotMachine.Reads F args μ k i [t] [.place q o])
    (hop : i.op = .load) (hw : width? i.type = some w) (hc : μ.cell? q o w = some (sl, n, c))
    (hvalue : μ.values k = none) : ∃ σ', Act F plain fill args σ k i σ' ∧ Mirrors F plain (μ.define k c) σ' := by
  have hk := plain_eq_false hplain hat.lists hat.live (by rw [hop]; decide)
  have hdefine : ∀ τ, Mirrors F plain μ τ → Mirrors F plain (μ.define k c) (τ.define k c) := fun τ hτ ↦
    hτ.define hk hat.found (by rw [hop]; decide) c
  obtain ⟨vs, ho, hvs⟩ := exists_values hr.data
  obtain ⟨p, rfl⟩ : ∃ p, vs = [p] := List.length_eq_one_iff.mp hvs.length_eq
  obtain ⟨hp, -⟩ := List.forall₂_cons.mp hvs
  by_cases hplainp : ∃ id t', p = .instr id t' ∧ plain id.index = true
  · obtain ⟨id, t', rfl, hs⟩ := hplainp
    obtain ⟨hfn, rfl⟩ := hσ.plain_place hs hp
    obtain ⟨hvar, -⟩ := hσ.plain_cell hs hc
    exact ⟨_, .get hop (by rw [ho, ← hfn]; rfl) hs (layout_of_width hw).2 hvar, hdefine σ hσ⟩
  · have hno : ∀ id t', some (.instr id t') ∈ i.operands → plain id.index = false := by
      intro id t' hmem
      by_contra hs
      rw [ho] at hmem
      cases List.mem_singleton.mp hmem
      exact hplainp ⟨id, t', rfl, by simpa using hs⟩
    obtain ⟨vs', hreads, hts⟩ := hσ.reads hno hr
    have hq := hproper.place_plain hreads List.mem_cons_self
    have hread : SlotMachine.Act fill i k (σ.forget k) [t] [.place q o] _ :=
      .load hop hw ((hσ.cell hq o w).trans hc) (by simp [State.forget])
    exact ⟨_, .memory hk (.inr (.inl hop)) hreads (hts ▸ hread),
      hdefine { σ.forget k with vars := σ.vars } (hσ.forget hvalue)⟩

/-- A store writes what is kept of a variable, or a cell. -/
theorem Mirrors.act_store (hσ : Mirrors F plain μ σ) (hproper : Proper F plain σ) (hat : At dom F b pre k i) {t t' : Ty}
    {q w : Nat} {o : UInt64} {sl : Slot} {c c' : Datum} (hr : SlotMachine.Reads F args μ k i [t, t'] [c, .place q o])
    (hop : i.op = .store) (htype : i.type = .void) (hw : width? t = some w) (hc : μ.cell? q o w = some (sl, n, c')) :
    ∃ σ', Act F plain fill args σ k i σ' ∧ Mirrors F plain (μ.setSlot q ⟨w, sl.cells.set n c⟩) σ' := by
  have hk := plain_eq_false hplain hat.lists hat.live (by rw [hop]; decide)
  obtain ⟨vs, ho, hvs⟩ := exists_values hr.data
  obtain ⟨v, p, rfl⟩ : ∃ v p, vs = [v, p] := List.length_eq_two.mp hvs.length_eq
  obtain ⟨hvalue, hvs⟩ := List.forall₂_cons.mp hvs
  obtain ⟨hp, -⟩ := List.forall₂_cons.mp hvs
  have hno : ∀ id t', v = .instr id t' → plain id.index = false := by
    rintro id t' rfl
    by_contra hs
    have huse := hat.plain_use hv hplain (by rw [ho]; exact List.mem_cons_self) (by simpa using hs)
    simp [isPlainUse, hop, ho] at huse
  by_cases hplainp : ∃ id t', p = .instr id t' ∧ plain id.index = true
  · obtain ⟨id, t', rfl, hs⟩ := hplainp
    obtain ⟨hfn, rfl⟩ := hσ.plain_place hs hp
    obtain ⟨hvar, hcells⟩ := hσ.plain_cell hs hc
    obtain rfl : t = v.type := by
      have htypes := hr.types
      rw [ho] at htypes
      exact (List.cons.inj htypes).1.symm
    refine ⟨_, .put hop (by rw [ho, ← hfn]; rfl) hs (layout_of_width hw).2 hvar (hσ.datum hno hvalue), ?_⟩
    rw [hcells]
    exact hσ.setVar hs c
  · have hnone : ∀ id t', some (.instr id t') ∈ i.operands → plain id.index = false := by
      intro id t' hmem
      rw [ho] at hmem
      rcases List.mem_pair.mp hmem with heq | heq <;> cases heq
      · exact hno id t' rfl
      · by_contra hs
        exact hplainp ⟨id, t', rfl, by simpa using hs⟩
    obtain ⟨vs', hreads, hts⟩ := hσ.reads hnone hr
    have hq := hproper.place_plain hreads (List.mem_cons_of_mem _ List.mem_cons_self)
    have hwrite : SlotMachine.Act fill i k (σ.forget k) [t, t'] [c, .place q o] _ :=
      .store hop htype hw ((hσ.cell hq o w).trans hc)
    exact ⟨_, .memory hk (.inr (.inr (.inl hop))) hreads (hts ▸ hwrite),
      (hσ.forget (hσ.mute k i hat.found (.inl hop))).setSlot hq _⟩

theorem Mirrors.act (hσ : Mirrors F plain μ σ) (hproper : Proper F plain σ) (hat : At dom F b pre k i)
    (hr : SlotMachine.Reads F args μ k i ts ds) (hact : SlotMachine.Act fill i k μ ts ds μ') :
    ∃ σ', Act F plain fill args σ k i σ' ∧ Mirrors F plain μ' σ' := by
  have hi := hat.found
  have hother : i.op ≠ .alloca → plain k = false := plain_eq_false hplain hat.lists hat.live
  cases hact with
  | slot hop ht hallocated hw hslot hvalue => exact hσ.act_slot hat hr hop ht hallocated hw hslot hvalue
  | buffer hop ht hallocated hpos hsmall hslot hvalue =>
    exact hσ.act_buffer hv hplain hat hr hop ht hallocated hpos hsmall hslot hvalue
  | load hop hw hc hvalue => exact hσ.act_load hplain hproper hat hr hop hw hc hvalue
  | store hop htype hw hc => exact hσ.act_store hv hplain hproper hat hr hop htype hw hc
  | @clear ts q size sl x hop htype hcallee hslot hsize hsmall =>
    have hk := hother (by rw [hop]; decide)
    obtain ⟨vs, hreads, hts⟩ := hσ.reads (hat.no_plain hv hplain (by rw [hop]; decide)) hr
    have hq := hproper.place_plain hreads List.mem_cons_self
    have hslot' : (σ.forget k).slots q = some sl := (hσ.slots q hq).trans hslot
    have hclear : SlotMachine.Act fill i k (σ.forget k) ts [.place q 0, .word 0, .word size, x] _ :=
      .clear hop htype hcallee hslot' hsize hsmall
    exact ⟨_, .memory hk (.inr (.inr (.inr hop))) hreads (hts ▸ hclear),
      (hσ.forget (hσ.mute k i hi (.inr hop))).setSlot hq _⟩
  | @pure ts ds c hc hvalue =>
    have hcomputed := computed_of_slots hc
    obtain ⟨halloca, hload, hstore, hcall⟩ := computed_op hcomputed
    obtain ⟨vs, hreads, rfl⟩ := hσ.reads (hat.no_plain hv hplain ⟨hload, hstore⟩) hr
    exact ⟨_, .compute hreads hcomputed, hσ.define (hother halloca) hi ⟨hstore, hcall⟩ c⟩

end step

/-! ### Runs -/

section run

variable (hv : m.Valid dom F) (hd : DomTree.Sound m F dom) (hplain : ∀ s, plain s = true → Variable dom F s)

include hv hd hplain

theorem Mirrors.line {line : List Nat} (hline : SlotMachine.Line F fill args line μ μ')
    (hlive : dom.reachable (F.blockId b) = true) (hplace : F.blocks[b]?.map (·.instrs) = some (pre ++ (line ++ rest)))
    (hσ : Mirrors F plain μ σ) (hproper : Proper F plain σ) : ∃ σ', Mirrors F plain μ' σ' ∧ Proper F plain σ' ∧
      ∀ n d h, Runs F plain fill args b rest σ' n d h → Runs F plain fill args b (line ++ rest) σ
      (line.length + n) d h := by
  induction hline generalizing pre σ with
  | nil => exact ⟨σ, hσ, hproper, fun n d h hrun ↦ by rwa [List.length_nil, Nat.zero_add]⟩
  | @cons k line μ₀ μ₁ μ₂ i ts ds hr hact _ ih =>
    obtain ⟨B, hB, hlist⟩ := Option.map_eq_some_iff.mp hplace
    have hat : At dom F b pre k i := ⟨hlive, hr.found, B, line ++ rest, hB, hlist⟩
    obtain ⟨σ₁, hact₁, hσ₁⟩ := hσ.act hv hplain hproper hat hr hact
    have hnext : F.blocks[b]?.map (·.instrs) = some ((pre ++ [k]) ++ (line ++ rest)) := by rw [hplace]; simp
    obtain ⟨σ₂, hσ₂, hproper₂, hruns⟩ := ih hnext hσ₁ (hproper.act hv hd hplain hat hact₁)
    refine ⟨σ₂, hσ₂, hproper₂, fun n d h hrun ↦ ?_⟩
    rw [List.length_cons, Nat.add_right_comm]
    exact .act hr.found hact₁ (hruns n d h hrun)

theorem Mirrors.block {B : Block} {x : Exit} (hB : F.blocks[b]? = some B)
    (hblock : SlotMachine.Block F fill args B.instrs μ x μ')
    (hlive : dom.reachable (F.blockId b) = true) (hσ : Mirrors F plain μ σ) (hproper : Proper F plain σ) :
    ∃ line k i vs ds σ', B.instrs = line ++ [k] ∧ At dom F b line k i ∧ Reads F plain args σ' i vs ds ∧
    Leaves F.id i ds x ∧
      Mirrors F plain μ' σ' ∧ Proper F plain σ' ∧ ∀ n d h, Runs F plain fill args b [k] σ' n d h →
        Runs F plain fill args b B.instrs σ (line.length + n) d h := by
  obtain ⟨line, k, i, ts, ds, hks, hline, hr, hleaves⟩ := hblock
  have hplace : F.blocks[b]?.map (·.instrs) = some ([] ++ (line ++ [k])) := by
    rw [hB, Option.map_some, hks]
    rfl
  obtain ⟨σ', hσ', hproper', hruns⟩ := hσ.line hv hd hplain hline hlive hplace hproper
  have hat : At dom F b line k i := ⟨hlive, hr.found, B, [], hB, hks⟩
  have hop : i.op ≠ .load ∧ i.op ≠ .store := by
    cases hleaves with
    | br hop | condbr hop | ret hop => rw [hop]; decide
  obtain ⟨vs, hreads, -⟩ := hσ'.reads (hat.no_plain hv hplain hop) hr
  rw [← hks] at hruns
  exact ⟨line, k, i, vs, ds, σ', hks, hat, hreads, hleaves, hσ', hproper', hruns⟩

variable (hflow : Flows m F)

include hflow

theorem Mirrors.goto {B B' : Block} {b' : Nat} (hB : F.blocks[b]? = some B)
    (hblock : SlotMachine.Block F fill args B.instrs μ (.goto b') μ') (hlive : dom.reachable (F.blockId b) = true)
    (hσ : Mirrors F plain μ σ) (hproper : Proper F plain σ) (hB' : F.blocks[b']? = some B') :
    ∃ σ', Mirrors F plain μ' σ' ∧ Proper F plain σ' ∧ dom.reachable (F.blockId b') = true ∧
      ∀ n d h, Runs F plain fill args b' B'.instrs σ' n d h → Runs F plain fill args b B.instrs σ
      (B.instrs.length + n) d h := by
  obtain ⟨line, k, i, vs, ds, σ', hks, hat, hreads, hleaves, hσ', hproper', hruns⟩ :=
    hσ.block hv hd hplain hB hblock hlive hproper
  have hend : F.blocks[b]?.map (·.instrs) = some (line ++ [k]) := by rw [hB, Option.map_some, hks]
  refine ⟨σ', hσ', hproper', hd.next hlive (hflow.leaves hv hat hend hleaves), fun n d h hrun ↦ ?_⟩
  have hall := hruns _ _ _ (.goto hat.found hreads hleaves hB' hrun)
  rwa [← Nat.add_assoc, Nat.add_right_comm, ← List.length_singleton (a := k), ← List.length_append, ← hks] at hall

theorem Mirrors.returns {values : Nat → Option Datum} (hr : SlotMachine.Returns F fill args values b μ n d h)
    (hlive : dom.reachable (F.blockId b) = true) (hσ : Mirrors F plain μ σ) (hproper : Proper F plain σ)
    (hsub : ∀ j d, values j = some d → μ.values j = some d) :
    ∃ B, F.blocks[b]? = some B ∧ Runs F plain fill args b B.instrs σ n d h := by
  induction hr generalizing σ with
  | @done b B μ μ' d hB hblock =>
    obtain ⟨line, k, i, vs, ds, σ', hks, hat, hreads, hleaves, hσ', -, hruns⟩ :=
      (hσ.reenter hsub).block hv hd hplain hB hblock hlive hproper
    cases hleaves with
    | ret hop =>
      obtain ⟨v, rfl⟩ : ∃ v, vs = [v] := List.length_eq_one_iff.mp hreads.data.length_eq
      have hall := hruns 1 d σ'.height (.ret hat.found hop hreads)
      refine ⟨B, hB, ?_⟩
      rwa [hσ'.height, ← List.length_singleton (a := k), ← List.length_append, ← hks] at hall
  | @goto b b' B μ μ' n d h hB hblock _ hrest ih =>
    obtain ⟨B', hB'⟩ := hrest.block
    obtain ⟨σ', hσ', hproper', hlive', hruns⟩ := (hσ.reenter hsub).goto hv hd hplain hflow hB hblock hlive hproper hB'
    obtain ⟨C, hC, hrun⟩ := ih hlive' hσ' hproper' fun j d hj ↦ hblock.values hj
    obtain rfl : B' = C := Option.some.inj (hB'.symm.trans hC)
    exact ⟨B, hB, hruns n d h hrun⟩

theorem gives_of_result (hr : SlotMachine.Result F fill args n d h) : Gives F plain fill args n d h := by
  obtain ⟨B, μ, b, n', hB, hblock, -, hreturns, rfl⟩ := hr
  obtain ⟨B', hB'⟩ := hreturns.block
  obtain ⟨σ, hσ, hproper, hlive, hruns⟩ :=
    (Mirrors.start F plain).goto hv hd hplain hflow hB hblock hd.entry (.start F plain) hB'
  obtain ⟨C, hC, hrun⟩ := hσ.returns hv hd hplain hflow hreturns hlive hproper fun j d hj ↦ hj
  obtain rfl : B' = C := Option.some.inj (hB'.symm.trans hC)
  exact ⟨B, hB, hruns n' d h hrun⟩

end run

end

end CilSsa.FlowMachine

namespace CilSsa.Lowering

open CilSsa.Bytecode CilSsa.Metadata CilSsa.Passes CilSsa.StackMachine
open CilSsa.Number (pattern)
open CilSsa.Ssa (FuncId Function)
open CilSsa.SlotMachine (entryFrame run_result)

section

variable {u u' v v' : CompilationUnit} {world : Universe} {m : Method} {body : Body} {f g fill : FuncId} {G : Function}
  {xs : List Int32}

theorem frameHeight_pos (room vars : Nat) : 0 < frameHeight room vars := by
  have hle : ∀ n h, h ≤ stacked 4 n h := by
    intro n
    induction n with
    | zero => exact fun h ↦ Nat.le_refl h
    | succ n ih => exact fun h ↦ ((Machine.Region.le_alignUp h 4).trans (Nat.le_add_right _ 4)).trans (ih _)
  have htop : 8 ≤ stacked 8 1 (4 * room) := Nat.le_add_left 8 _
  have := hle vars (stacked 8 1 (4 * room))
  unfold frameHeight
  omega

theorem Coded.fits (h : Coded u m body fill G) (hm : IntegerMethod m body) (hG : Callable u.module fill G)
    (hxs : xs.length = m.params.length) {B : Ssa.Block} (hB : G.blocks[0]? = some B) {e : Machine.Engine}
    (he : SlotMachine.Idle e) {fuel : Nat} {r : Machine.Returned}
    (hr : ends u.module G B (xs.map pattern) fuel e = .returned r) :
    ∃ (y : Int32) (room : Nat), StackMachine.Returns (decodeAll body.code).1 (State.start xs body.locals.length) y ∧
      r = ⟨pattern y, []⟩ ∧ bufferSize body.maxStack = (4 * room : Nat) ∧ 0 < e.limits.maxDepth ∧
      (frameHeight room (m.params.length + body.locals.length) : Nat) ≤ e.limits.stackSize := by
  obtain ⟨y, hy, rfl⟩ := agrees_sound h hm hG hxs hB he hr
  obtain ⟨plan, base, E, spans, hroom, hsize, hreal⟩ := h.follows
  obtain ⟨n, hresult⟩ := result_of_returns hreal hxs hy
  have hcount := hm.few
  have hle := frameHeight_le plan.room (m.params.length + body.locals.length)
  have hpos := frameHeight_pos plan.room (m.params.length + body.locals.length)
  obtain ⟨-, hover⟩ := run_result hG.found hG.clears hresult he hB h.ret (by omega)
  unfold ends at hr
  split at hr
  · cases hr
  rename_i hdepth
  refine ⟨y, plan.room, hy, rfl, hsize, by omega, ?_⟩
  by_contra hfits
  -- without the room the run would have failed
  obtain ⟨fault, e', hfault, -⟩ := hover (by omega)
  rcases hrun : Machine.run u.module fuel [entryFrame G (xs.map pattern) B] e with ⟨out, e''⟩
  rw [hrun] at hr
  obtain rfl : out = .returned _ := hr
  have hmore := ended_more hrun nofun n
  rw [hfault _ (by omega)] at hmore
  cases hmore

/-- Where there is room for the frame, the code of a method gives after the passes what the stack machine returns. -/
theorem Coded.optimized (h : Coded u m body fill G) (hm : IntegerMethod m body) (hon : u.optimize = true)
    (hxs : xs.length = m.params.length) {y : Int32} {room : Nat}
    (hy : StackMachine.Returns (decodeAll body.code).1 (State.start xs body.locals.length) y)
    (hsize : bufferSize body.maxStack = (4 * room : Nat)) :
    Callable u.module fill (runPasses Pass.all G).1 ∧ ∃ B, (runPasses Pass.all G).1.blocks[0]? = some B ∧
      ∀ e : Machine.Engine, SlotMachine.Idle e → 0 < e.limits.maxDepth →
        (frameHeight room (m.params.length + body.locals.length) : Nat) ≤ e.limits.stackSize → ∃ n, ∀ fuel, n ≤ fuel →
          ends u.module (runPasses Pass.all G).1 B (xs.map pattern) fuel e = .returned ⟨pattern y, []⟩ := by
  have hcallable := h.callable
  rw [if_pos hon] at hcallable
  have hheading := sameHeading_runPasses Pass.all G
  have hnow : u.module.function? G.id = some (runPasses Pass.all G).1 := hheading.id ▸ hcallable.found
  obtain ⟨plan, base, E, spans, hroom, hsize', hreal⟩ := h.follows
  obtain rfl : plan.room = room := by omega
  obtain ⟨n, hresult⟩ := result_of_returns hreal hxs hy
  obtain ⟨B₀, hB₀⟩ := h.block hxs
  have hbody : G.isDeclaration = false := by
    rw [Function.isDeclaration, Array.isEmpty_eq_false_iff]
    rintro hnone
    simp [hnone] at hB₀
  obtain ⟨M, hpre, hfound, hverified⟩ := h.checked
  have hsane := Sane.of_verify h.sturdy.built hfound hbody hverified
  have hgives := FlowMachine.gives_of_result hsane.toValid hsane.sound
    (fun _ hs ↦ FlowMachine.variable_of_unescaped (F := G) hs) (Ssa.Module.successors_own hfound) hresult
  have hcount := hm.few
  have hle := frameHeight_le plan.room (m.params.length + body.locals.length)
  obtain ⟨B, hB⟩ : ∃ B, (runPasses Pass.all G).1.blocks[0]? = some B :=
    ⟨_, Array.getElem?_eq_getElem (hheading.blocks ▸ (Array.getElem?_eq_some_iff.mp hB₀).1)⟩
  refine ⟨hcallable, B, hB, fun e he hdepth hfits ↦ ⟨n, fun fuel hfuel ↦ ?_⟩⟩
  obtain ⟨B', hB', e', hsteps⟩ := hgives.machine_optimized hfound hsane hbody h.ret hpre hnow
    (fun _ k i hl ↦ hcallable.clears k i hl.found) he (by omega) hfits
  obtain rfl : B = B' := Option.some.inj (hB.symm.trans hB')
  unfold ends
  rw [if_neg (by omega), hsteps fuel hfuel]

end

end CilSsa.Lowering

