import CilSsa.Proofs.PassMeaning

/-! Each reason that a pass has is followed through the block: what was known behind the earlier instruction is
still known where the later one stands. -/

namespace CilSsa.FlowMachine

open CilSsa.Ssa CilSsa.Passes
open CilSsa.SlotMachine (Datum Slot Store)

section acts

variable {F : Function} {plain : Nat → Bool} {fill : FuncId} {args : List UInt64} {σ σ' : State} {i x y : Instr}
  {j k s : Nat} {vs vs' : List Value} {ds ds' : List Datum} {d d' : Datum} {u v : Value}

theorem State.define_forget (σ : State) (k : Nat) (d : Datum) :
    ({ (σ.forget k).define k d with vars := σ.vars } : State) = σ.define k d := by
  have hvalues : (fun j ↦ if j = k then some d else (σ.forget k).values j) = fun j ↦
      if j = k then some d else σ.values j := by
    funext j
    simp only [State.forget]
    split <;> rfl
  simp only [Store.define, State.define, hvalues]
  rfl

theorem Reads.exists_datum (h : Reads F plain args σ i vs ds) (hv : some v ∈ i.operands) :
    ∃ d ∈ ds, datum F.id plain args σ v = some d := by
  obtain ⟨ho, hds⟩ := h
  rw [ho] at hv
  obtain ⟨w, hw, heq⟩ := List.mem_map.mp hv
  obtain rfl := Option.some.inj heq
  clear ho hv
  induction hds with
  | nil => cases hw
  | cons hd _ ih =>
    rcases List.mem_cons.mp hw with rfl | hw
    · exact ⟨_, List.mem_cons_self, hd⟩
    · obtain ⟨d, hd, hdv⟩ := ih hw
      exact ⟨d, List.mem_cons_of_mem _ hd, hdv⟩

theorem Reads.not_plain {t : Ty} (h : Reads F plain args σ i vs ds) (hs : plain s = true)
    (ho : some (.instr ⟨F.id, s⟩ t) ∈ i.operands) : False := by
  obtain ⟨d, -, hd⟩ := h.exists_datum ho
  simp [datum, hs] at hd

theorem Act.load_inv (h : Act F plain fill args σ k i σ') (hop : i.op = .load) : ∃ d, σ' = σ.define k d ∧
    ((∃ s t, i.operands = [some (.instr ⟨F.id, s⟩ t)] ∧ plain s = true ∧ σ.vars s = some d) ∨
      ∃ v s o w n sl, i.operands = [some v] ∧ FlowMachine.datum F.id plain args σ v = some (.place s o) ∧
        SlotMachine.width? i.type = some w ∧ σ.cell? s o w = some (sl, n, d)) := by
  cases h with
  | var _ hop' => cases hop.symm.trans hop'
  | put hop' => cases hop.symm.trans hop'
  | get _ ho hs _ hv => exact ⟨_, rfl, .inl ⟨_, _, ho, hs, hv⟩⟩
  | compute _ hc => exact absurd hop (computed_op hc).2.1
  | @memory vs ds μ _ _ hr hact =>
    obtain ⟨hvs, hds⟩ := hr
    generalize hts : vs.map Value.type = ts at hact
    cases hact with
    | slot hop' | buffer hop' | store hop' | clear hop' => cases hop.symm.trans hop'
    | pure hc => simp [SlotMachine.computed, hop] at hc
    | load _ hw hcell =>
      rw [State.define_forget]
      cases hds with
      | cons hd hrest =>
        cases hrest
        exact ⟨_, rfl, .inr ⟨_, _, _, _, _, _, hvs, hd, hw, hcell⟩⟩

theorem Act.define_of_pure (h : Act F plain fill args σ k i σ') (hpure : i.op.isPure = true) (hop : i.op ≠ .alloca) :
    ∃ d, σ' = σ.define k d := by
  by_cases hload : i.op = .load
  · obtain ⟨d, rfl, -⟩ := h.load_inv hload
    exact ⟨d, rfl⟩
  · cases h with
    | var _ hop' => exact absurd hop' hop
    | get hop' => exact absurd hop' hload
    | put hop' => rw [hop'] at hpure; cases hpure
    | compute => exact ⟨_, rfl⟩
    | memory _ hmem =>
      rcases hmem with hop' | hop' | hop' | hop'
      · exact absurd hop' hop
      · exact absurd hop' hload
      · rw [hop'] at hpure; cases hpure
      · rw [hop'] at hpure; cases hpure

theorem Act.compute_inv (h : Act F plain fill args σ k i σ') (hpure : i.op.isPure = true) (hop : i.op ≠ .alloca)
    (hload : i.op ≠ .load) : ∃ vs ds d, Reads F plain args σ i vs ds ∧ computed i (vs.map Value.type) ds = some d ∧
      σ' = σ.define k d := by
  cases h with
  | var _ hop' => exact absurd hop' hop
  | get hop' => exact absurd hop' hload
  | put hop' => rw [hop'] at hpure; cases hpure
  | compute hr hc => exact ⟨_, _, _, hr, hc, rfl⟩
  | memory _ hmem =>
    rcases hmem with hop' | hop' | hop' | hop'
    · exact absurd hop' hop
    · exact absurd hop' hload
    · rw [hop'] at hpure; cases hpure
    · rw [hop'] at hpure; cases hpure

theorem datum_define (hi : F.instr? k = some i) (hk : plain k = false) (σ : State) (d : Datum) :
    datum F.id plain args (σ.define k d) (F.result k) = (some d).filter (suits · i.type) := by
  rw [Function.result_eq hi]
  simp [datum, State.define, hk, Value.type]

theorem datum_result (hi : F.instr? k = some i) (hk : plain k = false) (hv : σ.values k = some d) :
    datum F.id plain args σ (F.result k) = (some d).filter (suits · i.type) := by
  rw [Function.result_eq hi]
  simp [datum, hk, hv, Value.type]

theorem filter_suits {t : Ty} (h : datum F.id plain args σ v = some d) (ht : v.type = t) :
    (some d).filter (suits · t) = some d := by
  rw [Option.filter_some, ← ht, datum_suits h, if_pos rfl]

theorem Reads.act (hr : Reads F plain args σ i vs ds) (h : Act F plain fill args σ j y σ')
    (hu : ∀ u, some u ∈ i.operands → ∀ id t, u = .instr id t → id.index ≠ j) : Reads F plain args σ' i vs ds := by
  have hmem := (List.forall₂_and_left vs ds).mpr ⟨fun v (hv : v ∈ vs) ↦ hv, hr.data⟩
  refine ⟨hr.operands, hmem.imp fun v d hvd ↦ ?_⟩
  rw [h.datum (hu v (by rw [hr.operands]; exact List.mem_map_of_mem hvd.1))]
  exact hvd.2

theorem Reads.alike (hr : Reads F plain args σ x vs ds) (hr' : Reads F plain args σ i vs' ds')
    (h : x.operands.map operandKey = i.operands.map operandKey) : vs.map Value.type = vs'.map Value.type ∧
    ds = ds' := by
  obtain ⟨ho, hds⟩ := hr
  obtain ⟨ho', hds'⟩ := hr'
  rw [ho, ho'] at h
  clear ho ho'
  induction hds generalizing vs' ds' with
  | nil =>
    cases hds' with
    | nil => exact ⟨rfl, rfl⟩
    | cons => cases h
  | @cons v d vs ds hd _ ih =>
    cases hds' with
    | nil => cases h
    | @cons v' d' vs' ds' hd' hds' =>
      rw [List.map_cons, List.map_cons, List.map_cons, List.map_cons, List.cons.injEq] at h
      obtain ⟨hkey, hrest⟩ := h
      obtain ⟨hts, rfl⟩ := ih hrest hds'
      have hsame : v.type = v'.type ∧ d = d' := by
        unfold operandKey at hkey
        simp only [Option.bind_some] at hkey
        rcases hb : v.bits? with _ | b <;> rcases hb' : v'.bits? with _ | b' <;> simp only [hb, hb', Option.map_none,
          Option.map_some, OperandKey.value.injEq, OperandKey.pattern.injEq, reduceCtorEq, Option.some.injEq] at hkey
        · subst hkey
          exact ⟨rfl, Option.some.inj (hd.symm.trans hd')⟩
        · obtain ⟨ht, rfl⟩ := hkey
          exact ⟨ht, (datum_of_bits hb hd).trans (datum_of_bits hb' hd').symm⟩
      rw [List.map_cons, List.map_cons, hsame.1, hsame.2, hts]
      exact ⟨rfl, rfl⟩

end acts

section reasons

variable {m : Module} {dom : DomTree} {known : Escapes} {F : Function} {plain : Nat → Bool} {fill : FuncId}
  {args : List UInt64} {b c j k p s : Nat} {i x y : Instr} {v u : Value} {pre mid : List Nat} {σ σ' : State} {d : Datum}

theorem At.eq (h : At dom F c pre k y) (hf : F.Formed) (hl : F.Lists b k i) : c = b ∧ y = i := by
  have hy : y = i := Option.some.inj (h.found.symm.trans hl.found)
  subst hy
  exact ⟨hf.unique h.lists hl, rfl⟩

theorem At.ne_of_mem (h : At dom F b pre j y) (hf : F.Formed) (hp : p ∈ pre) : p ≠ j := by
  rintro rfl
  exact h.not_mem hf hp

theorem plain_eq_false (hplain : ∀ s, plain s = true → Variable dom F s) (hl : F.Lists b k i)
    (hlive : dom.reachable (F.blockId b) = true) (hop : i.op ≠ .alloca) : plain k = false := by
  by_contra hne
  exact hop ((hplain k (by simpa using hne)).single hl hlive).1

variable (hv : m.Valid dom F) (hlive : dom.reachable (F.blockId b) = true)
  (hplain : ∀ s, plain s = true → Variable dom F s) (hl : F.Lists b k i)

include hv hlive hplain hl

theorem Evidence.simplified (h : simplify? ⟨F.id, k⟩ i = some v)
    (hvk : ∀ id t, v = .instr id t → id.index ≠ k) :
    Evidence dom F plain fill args b k i v fun _ _ ↦ True := by
  have hs := simplify?_inv h
  obtain ⟨hpure, hop, hload, -⟩ := hs.op_ne
  refine ⟨fun _ ↦ trivial, fun _ _ _ ↦ trivial, fun _ _ hact ↦ ?_⟩
  obtain ⟨vs, ds, d, hr, hc, rfl⟩ := hact.compute_inv hpure hop hload
  have hd := simplified_datum hs hr hc
  rw [datum_define hl.found (plain_eq_false hplain hl hlive hop), hact.datum hvk, hd]
  exact filter_suits hd (hs.type_eq hv hl)

/-- What a store puts in a variable, or a load finds there, is there still if no other store comes between. -/
theorem Evidence.forwarded (hb : Between F b p k mid) (hx : F.instr? p = some x) (hs : plain s = true)
    (hi : Loads F i s) (hor : Stores F x v s ∨ Loads F x s ∧ v = F.result p)
    (hno : ∀ j ∈ mid, ∀ y w, F.instr? j = some y → ¬ Stores F y w s) (ht : v.type = i.type)
    (hvk : ∀ id t, v = .instr id t → id.index ≠ k) : ∃ near, Evidence dom F plain fill args b k i v near := by
  have hf := hv.toFormed
  have hlx := hb.lists hx
  have hslot : some (F.result s) ∈ x.operands := by
    rcases hor with ⟨-, rest, ho⟩ | ⟨⟨-, rest, ho⟩, -⟩ <;> simp [ho]
  have hres : ∀ {s' : Nat} {t' : Ty}, F.result s = .instr ⟨F.id, s'⟩ t' → s' = s := by
    intro s' t' h
    rw [Function.result, Value.instr.injEq, InstrId.mk.injEq] at h
    exact h.1.2.symm
  have hnot : ∀ {vs ds σ}, ¬ Reads F plain args σ i vs ds := by
    intro vs ds σ hr
    obtain ⟨-, rest, ho⟩ := hi
    exact hr.not_plain hs (by rw [ho]; exact List.mem_cons_self)
  have hload : ∀ {q : Nat} {z : Instr} {σ σ' : State}, Loads F z s → Act F plain fill args σ q z σ' →
      ∃ d, σ' = σ.define q d ∧ σ.vars s = some d := by
    rintro q z σ σ' ⟨hop, rest, ho⟩ hact
    obtain ⟨d, rfl, ⟨s', t', ho', -, hd⟩ | ⟨u, s', o, w, n, sl, ho', hd, -, -⟩⟩ := hact.load_inv hop
    · rw [ho, List.cons.injEq, Option.some.injEq] at ho'
      obtain rfl := hres ho'.1
      exact ⟨d, rfl, hd⟩
    · rw [ho, List.cons.injEq, Option.some.injEq] at ho'
      obtain ⟨rfl, -⟩ := ho'
      simp [datum, Function.result, hs] at hd
  refine Evidence.since hf hb hx (fun σ ↦ ∃ d, σ.vars s = some d ∧
    datum F.id plain args σ v = (some d).filter (suits · v.type)) ?_ ?_ ?_
  · intro σ σ' hact
    rcases hor with ⟨hop, rest, ho⟩ | ⟨hld, rfl⟩
    · have hno : ∀ {vs ds}, ¬ Reads F plain args σ x vs ds := fun hr ↦ hr.not_plain (t := (F.result s).type) hs hslot
      cases hact with
      | var _ hop' | get hop' => cases hop.symm.trans hop'
      | compute hr | memory _ _ hr => exact absurd hr hno
      | @put s' t' v' d _ _ ho' _ _ _ hd =>
        rw [ho, List.cons.injEq, List.cons.injEq, Option.some.injEq, Option.some.injEq] at ho'
        obtain ⟨rfl, hres', -⟩ := ho'
        obtain rfl := hres hres'
        refine ⟨d, by simp [State.setVar], ?_⟩
        rw [filter_suits hd rfl]
        exact hd
    · obtain ⟨d, rfl, hd⟩ := hload hld hact
      refine ⟨d, hd, ?_⟩
      rw [datum_define hx (plain_eq_false hplain hlx hlive (by rw [hld.1]; decide)), Function.result_eq hx]
      rfl
  · rintro pre j y σ σ' hat hj hp hact ⟨d, hd, hdv⟩
    have hsj := hat.operand_ne hv hp hx hslot _ _ rfl
    refine ⟨d, ?_, ?_⟩
    · rw [hact.vars hsj fun w t hop ho ↦ hno j hj y w hat.found ⟨hop, [], ?_⟩]
      · exact hd
      · rw [ho, hv.eq_result hat.lists (by rw [ho]; simp)]
    · rw [hact.datum, hdv]
      rcases hor with ⟨-, rest, ho⟩ | ⟨-, rfl⟩
      · exact hat.operand_ne hv hp hx (by rw [ho]; exact List.mem_cons_self)
      · rintro id t heq
        rw [Function.result, Value.instr.injEq] at heq
        rw [← heq.1]
        exact hat.ne_of_mem hf hp
  · rintro σ σ' hact ⟨d, hd, hdv⟩
    obtain ⟨d', rfl, hd'⟩ := hload hi hact
    obtain rfl := Option.some.inj (hd.symm.trans hd')
    rw [hact.datum hvk, hdv, datum_define hl.found (plain_eq_false hplain hl hlive (by rw [hi.1]; decide)), ht]

theorem Evidence.reused {key : ValueKey} (hb : Between F b p k mid) (hx : F.instr? p = some x)
    (hkx : valueKey? x = some key) (hki : valueKey? i = some key) (hpk : p ≠ k) :
    ∃ near, Evidence dom F plain fill args b k i (F.result p) near := by
  have hf := hv.toFormed
  have hlx := hb.lists hx
  obtain ⟨hpure, hop, hload, hopx, htx⟩ := valueKey?_inv hkx
  obtain ⟨hpure', hop', hload', hopi, hti⟩ := valueKey?_inv hki
  have hkey : x.pred = i.pred ∧ x.operands.map operandKey = i.operands.map operandKey := by
    have heq := hkx.trans hki.symm
    unfold valueKey? at heq
    split at heq <;> split at heq <;> simp only [Option.some.injEq, ValueKey.mk.injEq, reduceCtorEq] at heq
    · rename_i hne _
      simp [hpure, hop, hload] at hne
    · exact ⟨heq.2.2.1, heq.2.2.2.2⟩
  refine Evidence.since hf hb hx (fun σ ↦ ∃ vs ds d, Reads F plain args σ x vs ds ∧
    computed x (vs.map Value.type) ds = some d ∧ σ.values p = some d) ?_ ?_ ?_
  · intro σ σ' hact
    obtain ⟨vs, ds, d, hr, hc, rfl⟩ := hact.compute_inv hpure hop hload
    exact ⟨vs, ds, d, hr.act hact fun u hu ↦ operand_ne_self hv hlx hlive hu, hc, by simp [State.define]⟩
  · rintro pre j y σ σ' hat _ hp hact ⟨vs, ds, d, hr, hc, hd⟩
    exact ⟨vs, ds, d, hr.act hact fun u hu ↦ hat.operand_ne hv hp hx hu, hc,
      (hact.values (hat.ne_of_mem hf hp)).trans hd⟩
  · rintro σ σ' hact ⟨vs, ds, d, hr, hc, hd⟩
    obtain ⟨vs', ds', d', hr', hc', rfl⟩ := hact.compute_inv hpure' hop' hload'
    obtain ⟨hts, rfl⟩ := hr.alike hr' hkey.2
    rw [computed_congr (i := x) (hopi.symm.trans hopx) (hti.symm.trans htx) hkey.1.symm, ← hts, hc] at hc'
    obtain rfl := Option.some.inj hc'
    have hd' : (σ.define k d).values p = some d := by simp [State.define, hpk, hd]
    rw [datum_define hl.found (plain_eq_false hplain hl hlive hop'),
      datum_result hx (plain_eq_false hplain hlx hlive hop) hd', ← hti, ← htx]

/-- What a load finds where `o` points to, as a value of type `t`. -/
inductive Finds (F : Function) (plain : Nat → Bool) (args : List UInt64) (σ : State) (o : Option Value)
    (t : Ty) (d : Datum) : Prop
  | var {s : Nat} {t' : Ty} : o = some (.instr ⟨F.id, s⟩ t') → plain s = true → σ.vars s = some d →
      Finds F plain args σ o t d
  | cell {u : Value} {s : Nat} {a : UInt64} {w n : Nat} {sl : Slot} : o = some u →
      datum F.id plain args σ u = some (.place s a) → SlotMachine.width? t = some w → σ.cell? s a w = some (sl, n, d) →
      Finds F plain args σ o t d

omit hv hlive hplain hl in
theorem Act.finds (h : Act F plain fill args σ k i σ') (hop : i.op = .load) :
    ∃ d, σ' = σ.define k d ∧ Finds F plain args σ (i.operands.headD none) i.type d := by
  obtain ⟨d, rfl, ⟨s, t, ho, hs, hd⟩ | ⟨u, s, o, w, n, sl, ho, hd, hw, hc⟩⟩ := h.load_inv hop
  · exact ⟨d, rfl, .var (by rw [ho]; rfl) hs hd⟩
  · exact ⟨d, rfl, .cell (by rw [ho]; rfl) hd hw hc⟩

omit hv hlive hplain hl in
theorem Finds.unique {o : Option Value} {t : Ty} {d' : Datum} (h : Finds F plain args σ o t d)
    (h' : Finds F plain args σ o t d') : d = d' := by
  cases h with
  | var ho hs hd =>
    cases h' with
    | var ho' _ hd' =>
      cases ho.symm.trans ho'
      exact Option.some.inj (hd.symm.trans hd')
    | cell ho' hd' =>
      cases ho.symm.trans ho'
      simp [datum, hs] at hd'
  | cell ho hd hw hc =>
    cases h' with
    | var ho' hs' =>
      cases ho.symm.trans ho'
      simp [datum, hs'] at hd
    | cell ho' hd' hw' hc' =>
      cases ho.symm.trans ho'
      cases hd.symm.trans hd'
      cases hw.symm.trans hw'
      cases hc.symm.trans hc'
      rfl

omit hv hlive hplain hl in
theorem Finds.act {o : Option Value} {t : Ty} (h : Finds F plain args σ o t d) (hact : Act F plain fill args σ j y σ')
    (hstore : y.op ≠ .store) (hcall : y.op ≠ .call) (ho : ∀ id t, o = some (.instr id t) → id.index ≠ j) :
    Finds F plain args σ' o t d := by
  cases h with
  | @var s t' heq hs hd =>
    refine .var heq hs ?_
    rw [hact.vars (ho _ _ heq) fun _ _ hop _ ↦ hstore hop]
    exact hd
  | @cell u s a w n sl heq hdu hw hc =>
    have hsame : datum F.id plain args σ' u = some (.place s a) := by
      rw [hact.datum fun id t hid ↦ ho id t (by rw [heq, hid])]
      exact hdu
    have hslot : σ.slots s ≠ none := by
      intro hnone
      simp [Store.cell?, hnone] at hc
    have hslots : σ'.slots s = σ.slots s := by
      cases hact with
      | var | get | compute => rfl
      | put hop => exact absurd hop hstore
      | memory _ _ _ hmem =>
        generalize List.map Value.type _ = ts at hmem
        have hne : (σ.forget j).slots j = none → s ≠ j := by
          rintro hnone rfl
          exact hslot hnone
        cases hmem with
        | slot _ _ _ _ hnone | buffer _ _ _ _ _ hnone =>
          simp [Store.allocate, Store.define, Store.setSlot, State.forget, hne hnone]
        | load | pure => rfl
        | store hop => exact absurd hop hstore
        | clear hop => exact absurd hop hcall
    have hcell : σ'.cell? s a w = some (sl, n, d) := by
      unfold Store.cell? at hc ⊢
      rwa [hslots]
    exact .cell heq hsame hw hcell

/-- What was loaded from the same place, with nothing in between that writes to memory. -/
theorem Evidence.reloaded (hb : Between F b p k mid) (hx : F.instr? p = some x) (hop : x.op = .load)
    (hop' : i.op = .load) (hsame : x.operands.headD none = i.operands.headD none) (ht : x.type = i.type)
    (hno : ∀ j ∈ mid, ∀ y, F.instr? j = some y → y.op ≠ .store ∧ y.op ≠ .call) (hpk : p ≠ k) :
    ∃ near, Evidence dom F plain fill args b k i (F.result p) near := by
  have hf := hv.toFormed
  have hlx := hb.lists hx
  have hhead : ∀ id t, x.operands.headD none = some (.instr id t) → some (.instr id t) ∈ x.operands := by
    intro id t h
    cases ho : x.operands with
    | nil => rw [ho] at h; cases h
    | cons o os => rw [ho] at h; exact h ▸ List.mem_cons_self
  refine Evidence.since hf hb hx (fun σ ↦ ∃ d, Finds F plain args σ (x.operands.headD none) x.type d ∧
    σ.values p = some d) ?_ ?_ ?_
  · intro σ σ' hact
    obtain ⟨d, rfl, hd⟩ := hact.finds hop
    refine ⟨d, hd.act hact (by rw [hop]; decide) (by rw [hop]; decide) fun id t h ↦ ?_, by simp [State.define]⟩
    exact operand_ne_self hv hlx hlive (hhead id t h) id t rfl
  · rintro pre j y σ σ' hat hj hp hact ⟨d, hd, hpd⟩
    obtain ⟨hstore, hcall⟩ := hno j hj y hat.found
    exact ⟨d, hd.act hact hstore hcall fun id t h ↦ hat.operand_ne hv hp hx (hhead id t h) id t rfl,
      (hact.values (hat.ne_of_mem hf hp)).trans hpd⟩
  · rintro σ σ' hact ⟨d, hd, hpd⟩
    obtain ⟨d', rfl, hd'⟩ := hact.finds hop'
    rw [hsame, ht] at hd
    obtain rfl := hd.unique hd'
    have hpd' : (σ.define k d).values p = some d := by simp [State.define, hpk, hpd]
    rw [datum_define hl.found (plain_eq_false hplain hl hlive (by rw [hop']; decide)),
      datum_result hx (plain_eq_false hplain hlx hlive (by rw [hop]; decide)) hpd', ht]

omit hplain in
theorem operand_ne_of_reason (hd : DomTree.Sound m F dom) (hr : Reason known F b k i v) :
    ∀ id t, v = .instr id t → id.index ≠ k := by
  rintro id t rfl rfl
  exact hv.not_sees_self hl (hr.sees hv hd hl hlive)

theorem exists_evidence (hd : DomTree.Sound m F dom) (hknown : ∀ s, known.lookup s = some false → plain s = true)
    (ht : v.type = i.type) (hr : Reason known F b k i v) : ∃ near, Evidence dom F plain fill args b k i v near := by
  have hvk := operand_ne_of_reason hv hlive hl hd hr
  have hne : ∀ {p : Nat} {mid : List Nat}, Between F b p k mid → p ≠ k := by
    rintro p mid hb rfl
    exact absurd hb.sees (hv.not_sees_self hl)
  cases hr with
  | simplified hs => exact ⟨_, .simplified hv hlive hplain hl hs hvk⟩
  | forwarded hb hx hs hi hor hno => exact Evidence.forwarded hv hlive hplain hl hb hx (hknown _ hs) hi hor hno ht hvk
  | reused hb hx hkx hki => exact Evidence.reused hv hlive hplain hl hb hx hkx hki (hne hb)
  | reloaded hb hx hop hop' hsame htx hno =>
    exact Evidence.reloaded hv hlive hplain hl hb hx hop hop' hsame htx hno (hne hb)

end reasons

end CilSsa.FlowMachine

