import CilSsa.Proofs.Evidence
import CilSsa.Proofs.SlotRefinement

namespace CilSsa.FlowMachine

open CilSsa.Ssa CilSsa.Passes
open CilSsa.SlotMachine (Datum Slot Store)

variable {m : Module} {dom : DomTree} {known : Escapes} {F G : Function} {plain : Nat → Bool} {fill : FuncId}
  {args : List UInt64} {b b' c j k s : Nat} {i x y : Instr} {u v : Value} {pre : List Nat} {σ σ' τ : State} {d : Datum}

theorem At.terminator (h : At dom F b pre k i) (hv : m.Valid dom F)
    (hend : F.blocks[b]?.map (·.instrs) = some (pre ++ [k])) : i.op.isTerminator = true := by
  obtain ⟨B, hB, hlist⟩ := Option.map_eq_some_iff.mp hend
  obtain ⟨ks, t, he⟩ := hv.ends hB
  obtain ⟨-, hkt⟩ := List.append_inj' (hlist.symm.trans he.instrs) rfl
  obtain rfl := List.singleton_inj.mp hkt
  exact he.last i h.found

theorem Agree.datum {hide gone veil : Nat → Prop} (h : Agree hide gone veil σ τ)
    (hu : ∀ id t, u = .instr id t → id.fn = F.id → ¬ hide id.index) :
    datum F.id plain args τ u = datum F.id plain args σ u :=
  datum_of_values fun id t hid hfn ↦ h.values _ (hu id t hid hfn)

section replace

/-- The runs agree but for the result of instruction `k` of block `b`, and wherever that is available `v` has its datum.
-/
structure Replacing (dom : DomTree) (F : Function) (plain : Nat → Bool) (args : List UInt64) (b k : Nat) (v : Value)
    (near : List Nat → State → Prop) (c : Nat) (pre : List Nat) (σ τ : State) : Prop where
  agree : Agree (· = k) (fun _ ↦ False) (fun _ ↦ False) σ τ
  same : Available dom F k c pre → ∀ d, datum F.id plain args σ (F.result k) = some d →
    datum F.id plain args σ v = some d
  near : c = b → near pre σ

variable {near : List Nat → State → Prop} (hv : m.Valid dom F) (hd : DomTree.Sound m F dom) (hl : F.Lists b k i)
  (hop : i.op ≠ .alloca) (hplain : ∀ s, plain s = true → Variable dom F s)
  (hr : dom.reachable (F.blockId b) = true → Reason known F b k i v)

include hv hd hl hr

theorem Available.operand_ne (h : Available dom F k c (pre ++ [j])) (hat : At dom F c pre j y) :
    ∀ id t, v = .instr id t → id.index ≠ j := by
  rintro id t rfl rfl
  have hmem : ∀ q ∈ pre ++ [id.index], ∃ z, F.Lists c q z := by
    intro q hq
    rcases List.mem_append.mp hq with hq | hq
    · exact (hat.before hv.toFormed hq).1
    · rw [List.mem_singleton.mp hq]
      exact ⟨_, hat.lists⟩
  have hlive := h.live hd hv.toFormed hat.live hl hmem
  exact Available.not_after hat hv hd hl ((hr hlive).sees hv hd hl hlive) h

theorem Replacing.operand (h : Replacing dom F plain args b k v near c pre σ τ) (hat : At dom F c pre j y)
    (hu : some u ∈ y.operands) (hdu : datum F.id plain args σ u = some d) :
    datum F.id plain args τ (if u = F.result k then v else u) = some d := by
  split
  · rename_i heq
    subst heq
    rw [Function.result_eq hl.found] at hu
    have hsees := hv.sees hat.lists hat.live hu
    have hlive := reachable_of_sees hv hd hl hat.live hsees
    rw [h.agree.datum fun id t hid _ ↦ operand_ne_of_reason hv hlive hl hd (hr hlive) id t hid]
    exact h.same (.of_sees hat hv.toFormed hsees) d hdu
  · rename_i hne
    rw [h.agree.datum]
    · exact hdu
    · rintro id t rfl - rfl
      exact hne (hv.eq_result hat.lists hu)

include hop hplain

theorem follows_replaced (ht : v.type = i.type) (hpure : i.op.isPure = true)
    (he : Evidence dom F plain fill args b k i v near) :
    Follows m dom F (F.replaced b k v) plain fill args (· != k) (fun _ x ↦ x.rewire (F.result k) v)
      (Replacing dom F plain args b k v near) := by
  have hid : (F.replaced b k v).id = F.id := (Function.edited_replaced hv.toFormed.tidy hl v).heading.id
  have hres := Function.result_eq hl.found
  have htype : ∀ w : Value, (if w = F.result k then v else w).type = w.type := by
    intro w
    split
    · rename_i hw
      rw [hw, ht, hres]
      rfl
    · rfl
  have hops : ∀ x : Instr, (x.rewire (F.result k) v).operands =
      x.operands.map (·.map fun w ↦ if w = F.result k then v else w) := by
    intro x
    refine List.map_congr_left fun o _ ↦ ?_
    cases o with
    | none => rfl
    | some w =>
      by_cases hw : w = F.result k <;> simp [hw]
  refine ⟨fun h ↦ h.agree.height, ?_, ?_, ?_, ?_⟩
  · intro c pre j y σ τ σ' hat hkeep h hact
    obtain rfl : j = k := by simpa using hkeep
    obtain ⟨rfl, rfl⟩ := hat.eq hv.toFormed hl
    obtain ⟨d, rfl⟩ := hact.define_of_pure hpure hop
    refine ⟨⟨fun j' hj' ↦ ?_, h.agree.slots, h.agree.vars, h.agree.there, h.agree.height⟩, ?_, ?_⟩
    · simp only [State.define, hj', if_false, h.agree.values j' hj']
    · intro _ d' hd'
      rwa [← he.finish hat (h.near rfl) hact]
    · exact fun _ ↦ he.step hat (h.near rfl) hact
  · intro c pre j y σ τ σ' hat hkeep h hact
    have hjk : j ≠ k := by simpa using hkeep
    have hvar : ∀ s t, plain s = true → some (.instr ⟨F.id, s⟩ t) ∈ y.operands → Value.instr ⟨F.id, s⟩ t ≠
        F.result k := by
      intro s t hs ho heq
      rw [hres, Value.instr.injEq, InstrId.mk.injEq] at heq
      obtain ⟨⟨-, rfl⟩, rfl⟩ := heq
      have hlive := reachable_of_sees hv hd hl hat.live (hv.sees hat.lists hat.live ho)
      exact hop ((hplain _ hs).single hl hlive).1
    obtain ⟨τ', hact', hag⟩ := hact.transfer hid (Instr.alike_rewire (by rw [ht, hres]; rfl) y) h.agree (fun hf ↦ hf)
      (fun w ↦ if w = F.result k then v else w) (hops y) htype
      (fun w d hw hdw ↦ by rw [hid]; exact h.operand hv hd hl hr hat hw hdw)
      (fun s t hs ho ↦ ⟨if_neg (hvar s t hs ho), fun hf ↦ hf, fun _ hf ↦ hf⟩) (fun _ _ _ _ _ _ hf ↦ hf)
    refine ⟨τ', hact', hag, fun hav d hdk ↦ ?_, ?_⟩
    · have hvj := hav.operand_ne hv hd hl hr hat
      have hkj : ∀ id t, F.result k = .instr id t → id.index ≠ j := by
        intro id t heq
        rw [hres, Value.instr.injEq] at heq
        rw [← heq.1]
        exact Ne.symm hjk
      rw [hact.datum hkj] at hdk
      rw [hact.datum hvj]
      exact h.same (hav.of_concat hjk) d hdk
    · rintro rfl
      exact he.step hat (h.near rfl) hact
  · intro c pre j y σ τ vs ds hat _ h hr'
    refine ⟨_, hr'.rename (fun w ↦ if w = F.result k then v else w) (hops y) fun w d hw hdw ↦ ?_⟩
    rw [hid]
    exact h.operand hv hd hl hr hat hw hdw
  · intro c c' pre j y σ τ hat hend hsucc h
    have hjk : j ≠ k := by
      rintro rfl
      obtain ⟨-, rfl⟩ := hat.eq hv.toFormed hl
      have := hat.terminator hv hend
      rw [Function.Lists.ne_terminator_of_pure hpure] at this
      cases this
    exact ⟨h.agree, fun hav ↦ h.same (hav.of_jump hd hat hend hsucc hjk), fun _ ↦ he.start σ⟩

end replace

theorem Act.again {hide gone veil : Nat → Prop} (hid : G.id = F.id) (hag : Agree hide gone veil σ τ) (hk : ¬ gone k)
    (hhide : ∀ id t, some (.instr id t) ∈ i.operands → ¬ hide id.index)
    (hvar : ∀ s t, plain s = true → some (.instr ⟨F.id, s⟩ t) ∈ i.operands → ¬ gone s ∧ (i.op = .load → ¬ veil s))
    (hplace : ∀ vs ds, Reads F plain args σ i vs ds → ∀ s o, Datum.place s o ∈ ds → ¬ gone s)
    (h : Act F plain fill args σ k i σ') :
    ∃ τ', Act G plain fill args τ k i τ' ∧ Agree hide gone veil σ' τ' := by
  refine h.transfer hid (.refl i) hag hk (fun w ↦ w) (by simp) (fun _ ↦ rfl) (fun w d hw hd ↦ ?_)
    (fun s t hs ho ↦ ⟨rfl, hvar s t hs ho⟩) hplace
  rw [hid, hag.datum fun id t heq _ ↦ hhide id t (heq ▸ hw)]
  exact hd

theorem Reads.again {hide gone veil : Nat → Prop} {vs : List Value} {ds : List Datum} (hid : G.id = F.id)
    (hag : Agree hide gone veil σ τ) (hhide : ∀ id t, some (.instr id t) ∈ i.operands → ¬ hide id.index)
    (h : Reads F plain args σ i vs ds) : ∃ vs', Reads G plain args τ i vs' ds := by
  refine ⟨_, h.rename (fun w ↦ w) (by simp) fun w d hw hd ↦ ?_⟩
  rw [hid, hag.datum fun id t heq _ ↦ hhide id t (heq ▸ hw)]
  exact hd

section drop

/-- Slots of which nothing but the instructions that make them gives an address. -/
structure Hidden (P : Nat → Prop) (σ : State) : Prop where
  values : ∀ j s o, P s → j ≠ s → σ.values j ≠ some (.place s o)
  slots : ∀ j sl s o, P s → σ.slots j = some sl → .place s o ∉ sl.cells
  vars : ∀ j s o, P s → σ.vars j ≠ some (.place s o)

theorem Hidden.start (P : Nat → Prop) : Hidden P {} := by
  constructor
  · rintro j s o - - ⟨⟩
  · rintro j sl s o - ⟨⟩
  · rintro j s o - ⟨⟩

theorem computed_place {ts : List Ty} {ds : List Datum} {o : UInt64} (h : computed i ts ds = some (.place s o)) :
    ∃ o', .place s o' ∈ ds := by
  generalize hd : Datum.place s o = d at h
  cases computed_inv h with
  | @add n a a' _ _ _ hs =>
    subst hd
    cases a <;> cases a' <;> simp only [SlotMachine.sum, Option.some.injEq, reduceCtorEq, Option.ite_none_right_eq_some,
      Datum.place.injEq] at hs
    · exact ⟨_, by simp [hs.2.1]; rfl⟩
    · exact ⟨_, by simp [hs.2.1]; rfl⟩
  | sub | mul | icmp | cut | zext => cases hd
  | select =>
    split at hd
    · exact ⟨o, by simp [hd]⟩
    · exact ⟨o, by simp [hd]⟩
  | address => exact ⟨o, by simp [hd]⟩

section hidden

variable {P : Nat → Prop}

theorem Hidden.datum {o : UInt64} (h : Hidden P σ) (hs : P s)
    (hu : ∀ id t, u = .instr id t → P id.index → datum F.id plain args σ u = none) :
    datum F.id plain args σ u ≠ some (.place s o) := by
  intro hd
  have hd' := hd
  obtain ⟨hd, -⟩ := Option.filter_eq_some_iff.mp hd
  cases u with
  | instr id t =>
    dsimp only at hd
    split at hd
    · by_cases hid : id.index = s
      · rw [hu id t rfl (hid ▸ hs)] at hd'
        cases hd'
      · exact h.values _ s o hs hid hd
    · cases hd
  | param =>
    obtain ⟨_, -, hd⟩ := Option.map_eq_some_iff.mp hd
    cases hd
  | func | const => cases hd

theorem Hidden.reads {vs : List Value} {ds : List Datum} {o : UInt64} (h : Hidden P σ) (hs : P s)
    (hno : ∀ id t, some (.instr id t) ∈ i.operands → P id.index → FlowMachine.datum F.id plain args σ (.instr id t) =
    none) (hr : Reads F plain args σ i vs ds) : .place s o ∉ ds := by
  obtain ⟨hvs, hds⟩ := hr
  have hne : ∀ v ∈ vs, ∀ id t, v = .instr id t → P id.index → FlowMachine.datum F.id plain args σ v = none := by
    rintro v hv id t rfl
    exact hno id t (by rw [hvs]; exact List.mem_map_of_mem hv)
  clear hvs
  induction hds with
  | nil => exact List.not_mem_nil
  | cons hd _ ih =>
    intro hmem
    rcases List.mem_cons.mp hmem with rfl | hmem
    · exact h.datum hs (hne _ List.mem_cons_self) hd
    · exact ih (fun v hv ↦ hne v (List.mem_cons_of_mem _ hv)) hmem

theorem Hidden.define (h : Hidden P σ) (hd : ∀ s o, P s → j ≠ s → d ≠ .place s o) : Hidden P (σ.define j d) := by
  refine ⟨fun j' s o hs hj' ↦ ?_, h.slots, h.vars⟩
  simp only [State.define]
  split
  · rename_i heq
    exact fun h ↦ hd s o hs (heq ▸ hj') (Option.some.inj h)
  · exact h.values j' s o hs hj'

theorem Hidden.setVar (h : Hidden P σ) (hd : ∀ s o, P s → d ≠ .place s o) : Hidden P (σ.setVar k d) := by
  refine ⟨h.values, h.slots, fun j s o hs ↦ ?_⟩
  simp only [State.setVar]
  split
  · exact fun h ↦ hd s o hs (Option.some.inj h)
  · exact h.vars j s o hs

theorem Hidden.act (h : Hidden P σ)
    (hno : ∀ id t, some (.instr id t) ∈ y.operands → P id.index → FlowMachine.datum F.id plain args σ (.instr id t) =
    none) (hact : Act F plain fill args σ j y σ') : Hidden P σ' := by
  cases hact with
  | var =>
    have hset := h.setVar (k := j) (d := .word 0) (by simp)
    exact ⟨hset.values, hset.slots, hset.vars⟩
  | get _ _ _ _ hd => exact h.define fun s o hs _ heq ↦ h.vars _ s o hs (heq ▸ hd)
  | put _ ho _ _ _ hd =>
    exact h.setVar fun s o hs heq ↦
      h.datum hs (fun id t hid ↦ hid ▸ hno id t (by rw [ho, hid]; exact List.mem_cons_self)) (heq ▸ hd)
  | compute hr hc =>
    refine h.define fun s o hs _ heq ↦ ?_
    subst heq
    obtain ⟨o', ho'⟩ := computed_place hc
    exact h.reads hs hno hr ho'
  | @memory vs ds μ _ hor hr hmem =>
    have hds : ∀ s o, P s → .place s o ∉ ds := fun s o hs ↦ h.reads hs hno hr
    have hforget : ∀ j' s o, P s → j' ≠ s → (σ.forget j).values j' ≠ some (.place s o) := by
      intro j' s o hs hj'
      simp only [State.forget]
      split
      · rintro ⟨⟩
      · exact h.values j' s o hs hj'
    have hset : ∀ j' sl', (∀ s o, P s → .place s o ∉ sl'.cells) →
        ∀ i sl s o, P s → ((σ.forget j).setSlot j' sl').slots i = some sl → .place s o ∉ sl.cells := by
      intro j' sl' hcells i sl s o hs hi
      simp only [Store.setSlot] at hi
      split at hi
      · cases hi
        exact hcells s o hs
      · exact h.slots i sl s o hs hi
    have hzeros : ∀ n s o, P s → Datum.place s o ∉ List.replicate n (Datum.word 0) := by
      intro n s o _ hmem
      cases List.eq_of_mem_replicate hmem
    have hdef : ∀ (μ : Store) d, (∀ j' s o, P s → j' ≠ s → μ.values j' ≠ some (.place s o)) →
        (∀ s o, P s → j ≠ s → d ≠ .place s o) → ∀ j' s o, P s → j' ≠ s → (μ.define j d).values j' ≠
        some (.place s o) := by
      intro μ d hμ hd j' s o hs hj'
      simp only [Store.define]
      split
      · rename_i heq
        exact fun h ↦ hd s o hs (heq ▸ hj') (Option.some.inj h)
      · exact hμ j' s o hs hj'
    generalize vs.map Value.type = ts at hmem
    cases hmem with
    | slot =>
      refine ⟨hdef ((σ.forget j).setSlot j _) _ hforget ?_, hset _ _ (hzeros 1), h.vars⟩
      rintro s o hs hj ⟨⟩
      exact hj rfl
    | buffer =>
      refine ⟨hdef ((σ.forget j).setSlot j _) _ hforget ?_, hset _ _ (hzeros _), h.vars⟩
      rintro s o hs hj ⟨⟩
      exact hj rfl
    | @load t s o w n sl d _ _ hc =>
      refine ⟨hdef _ _ hforget fun s' o' hs' _ heq ↦ ?_, h.slots, h.vars⟩
      obtain ⟨hslot, -, -, hd⟩ := SlotMachine.cell?_eq_some hc
      exact h.slots _ _ s' o' hs' hslot (heq ▸ List.mem_of_getElem? hd)
    | @store t t' s o w n sl d d' _ _ _ hc =>
      obtain ⟨hslot, -⟩ := SlotMachine.cell?_eq_some hc
      refine ⟨hforget, hset _ _ fun s' o' hs' hmem ↦ ?_, h.vars⟩
      rcases List.mem_or_eq_of_mem_set hmem with hmem | heq
      · exact h.slots _ _ s' o' hs' hslot hmem
      · exact hds s' o' hs' (heq ▸ List.mem_cons_self)
    | clear => exact ⟨hforget, hset _ _ (hzeros _), h.vars⟩
    | pure hc => rcases hor with hop | hop | hop | hop <;> simp [hop, SlotMachine.computed] at hc

end hidden

theorem Act.apart (h : Act F plain fill args σ k i σ') (hpure : i.op.isPure = true)
    (hag : Agree (· = k) (· = k) (· = k) σ τ) : Agree (· = k) (· = k) (· = k) σ' τ := by
  by_cases hop : i.op = .alloca
  · have hle : ∀ align size, τ.height ≤ Machine.Region.alignUp σ.height align + size := fun align size ↦
      (hag.height.trans (Machine.Region.le_alignUp _ _)).trans (Nat.le_add_right _ _)
    cases h with
    | var =>
      refine ⟨hag.values, hag.slots, fun j hj ↦ ?_, fun j hj ↦ ?_, hle _ _⟩
      · simpa [State.allocate, State.setVar, hj] using hag.vars j hj
      · simpa [State.allocate, State.setVar, hj] using hag.there j hj
    | get hop' | put hop' => cases hop.symm.trans hop'
    | compute _ hc => exact absurd hop (computed_op hc).1
    | memory _ _ _ hact =>
      generalize List.map Value.type _ = ts at hact
      cases hact with
      | load hop' | store hop' | clear hop' => cases hop.symm.trans hop'
      | pure hc => simp [SlotMachine.computed, hop] at hc
      | slot | buffer =>
        refine ⟨fun j hj ↦ ?_, fun j hj ↦ ?_, hag.vars, hag.there, hle _ _⟩
        · simpa [Store.allocate, Store.define, Store.setSlot, State.forget, hj] using hag.values j hj
        · simpa [Store.allocate, Store.define, Store.setSlot, State.forget, hj] using hag.slots j hj
  · obtain ⟨d, rfl⟩ := h.define_of_pure hpure hop
    refine ⟨fun j hj ↦ ?_, hag.slots, hag.vars, hag.there, hag.height⟩
    simpa [State.define, hj] using hag.values j hj

theorem follows_dropped (hv : m.Valid dom F) (hl : F.Lists b k i) (hpure : i.op.isPure = true)
    (hno : ∀ c j x, F.Lists c j x → some (F.result k) ∉ x.operands) :
    Follows m dom F (F.removeFrom b k) plain fill args (· != k) (fun _ x ↦ x)
      fun _ _ σ τ ↦ Agree (· = k) (· = k) (· = k) σ τ ∧ Hidden (· = k) σ := by
  have hid : (F.removeFrom b k).id = F.id := (Function.edited_removeFrom hv.toFormed.tidy hl).heading.id
  have hunread : ∀ {c j : Nat} {y : Instr}, F.Lists c j y → ∀ id t, some (.instr id t) ∈ y.operands → id.index ≠ k := by
    rintro c j y hy id t ho rfl
    rw [hv.eq_result hy ho] at ho
    exact hno c j y hy ho
  refine ⟨fun h ↦ h.1.height, ?_, ?_, ?_, fun _ _ _ h ↦ h⟩
  · intro c pre j y σ τ σ' hat hkeep ⟨hag, hhid⟩ hact
    obtain rfl : j = k := by simpa using hkeep
    obtain ⟨rfl, rfl⟩ := hat.eq hv.toFormed hl
    exact ⟨hact.apart hpure hag, hhid.act (fun id t ho heq ↦ absurd heq (hunread hl id t ho)) hact⟩
  · intro c pre j y σ τ σ' hat hkeep ⟨hag, hhid⟩ hact
    have hjk : j ≠ k := by simpa using hkeep
    obtain ⟨τ', hact', hag'⟩ := hact.again (G := F.removeFrom b k) hid hag hjk (hunread hat.lists)
      (fun s t _ ho ↦ ⟨hunread hat.lists _ t ho, fun _ ↦ hunread hat.lists _ t ho⟩) fun vs ds hr s o hmem heq ↦
        hhid.reads heq (fun id t ho heq ↦ absurd heq (hunread hat.lists id t ho)) hr hmem
    exact ⟨τ', hact', hag', hhid.act (fun id t ho heq ↦ absurd heq (hunread hat.lists id t ho)) hact⟩
  · intro c pre j y σ τ vs ds hat _ ⟨hag, _⟩ hr
    exact hr.again hid hag (hunread hat.lists)

theorem follows_unstored (hv : m.Valid dom F) (hl : F.Lists b k i) (hst : Stores F i v s) (hs : plain s = true)
    (huses : ∀ c j x, F.Lists c j x → some (F.result s) ∈ x.operands → x.op = .store) :
    Follows m dom F (F.removeFrom b k) plain fill args (· != k) (fun _ x ↦ x)
      fun _ _ σ τ ↦ Agree (fun _ ↦ False) (fun _ ↦ False) (· = s) σ τ := by
  have hid : (F.removeFrom b k).id = F.id := (Function.edited_removeFrom hv.toFormed.tidy hl).heading.id
  obtain ⟨hop, rest, ho⟩ := hst
  refine ⟨fun h ↦ h.height, ?_, ?_, ?_, fun _ _ _ h ↦ h⟩
  · intro c pre j y σ τ σ' hat hkeep hag hact
    obtain rfl : j = k := by simpa using hkeep
    obtain ⟨rfl, rfl⟩ := hat.eq hv.toFormed hl
    have hnot : ∀ {vs ds}, ¬ Reads F plain args σ y vs ds := fun hr ↦
      hr.not_plain (t := (F.result s).type) hs (by rw [ho]; exact List.mem_cons_of_mem _ List.mem_cons_self)
    cases hact with
    | var _ hop' | get hop' => cases hop.symm.trans hop'
    | compute hr | memory _ _ hr => exact absurd hr hnot
    | @put s' t v' _ _ _ ho' _ _ hd' =>
      rw [ho, List.cons.injEq, List.cons.injEq, Option.some.injEq, Option.some.injEq] at ho'
      obtain ⟨-, hres, -⟩ := ho'
      rw [Function.result, Value.instr.injEq, InstrId.mk.injEq] at hres
      obtain ⟨⟨-, rfl⟩, -⟩ := hres
      refine ⟨hag.values, hag.slots, fun q hq ↦ ?_, fun q hq ↦ ?_, hag.height⟩
      · simpa [State.setVar, hq] using hag.vars q hq
      · simp only [State.setVar]
        split
        · rename_i hqs
          exact fun _ ↦ hqs ▸ hag.there s id (by rw [hd']; rfl)
        · exact hag.there q hq
  · intro c pre j y σ τ σ' hat hkeep hag hact
    refine hact.again hid hag id (fun _ _ _ ↦ id) (fun s' t hs' hmem ↦ ⟨id, ?_⟩) fun _ _ _ _ _ _ ↦ id
    rintro hload rfl
    rw [hv.eq_result hat.lists hmem] at hmem
    cases hload.symm.trans (huses c j y hat.lists hmem)
  · intro c pre j y σ τ vs ds hat _ hag hr
    exact hr.again hid hag fun _ _ _ ↦ id

theorem follows_swapped (hv : m.Valid dom F) (hl : F.Lists b k i) (h : reassociated? i = some x) :
    Follows m dom F (F.withInstr k x) plain fill args (fun _ ↦ true) (fun j y ↦ if j = k then x else y)
      fun _ _ σ τ ↦ Agree (fun _ ↦ False) (fun _ ↦ False) (fun _ ↦ False) σ τ := by
  obtain ⟨u, w, ho, -, hx⟩ := reassociated?_operands hv hl h
  obtain ⟨-, hop, -, -, hpure⟩ := reassociated?_same h
  obtain ⟨halloca, hload, -, hterm⟩ := reassociated?_op h
  have hat' : ∀ {c : Nat} {pre : List Nat} {j : Nat} {y : Instr}, At dom F c pre j y → j = k → y = i := by
    rintro c pre j y hat rfl
    exact (hat.eq hv.toFormed hl).2
  refine ⟨fun h ↦ h.height, fun _ hkeep ↦ (by cases hkeep), ?_, ?_, fun _ _ _ h ↦ h⟩
  · intro c pre j y σ τ σ' hat _ hag hact
    by_cases hj : j = k
    · obtain rfl := hat' hat hj
      obtain ⟨vs, ds, d, hr, hc, rfl⟩ := hact.compute_inv (hop ▸ hpure) halloca hload
      obtain ⟨hvs, hds⟩ := hr
      rw [ho] at hvs
      obtain rfl : vs = [u, w] := (List.map_injective_iff.mpr (Option.some_injective _) (by rw [← hvs]; rfl))
      cases hds with
      | cons hu hrest =>
        cases hrest with
        | cons hw hnil =>
          cases hnil
          have hsame : ∀ v, datum F.id plain args τ v = datum F.id plain args σ v := fun v ↦ hag.datum fun _ _ _ _ ↦ id
          rw [if_pos hj]
          have hreads : Reads (F.withInstr k x) plain args τ x [w, u] _ :=
            ⟨hx, .cons ((hsame w).trans hw) (.cons ((hsame u).trans hu) .nil)⟩
          exact ⟨_, .compute hreads (computed_reassociated h hc), hag.define j d⟩
    · rw [if_neg hj]
      exact hact.again (F := F) rfl hag id (fun _ _ _ ↦ id) (fun _ _ _ _ ↦ ⟨id, fun _ ↦ id⟩) fun _ _ _ _ _ _ ↦ id
  · intro c pre j y σ τ vs ds hat ht hag hr
    have hj : j ≠ k := by
      intro hj
      rw [hat' hat hj, hterm] at ht
      cases ht
    rw [if_neg hj]
    exact hr.again (F := F) rfl hag fun _ _ _ ↦ id

end drop

section steps

theorem Variable.edited {keep : Nat → Bool} {change : Nat → Instr → Instr} (h : Variable dom F s) (hv : m.Valid dom F)
    (he : Edited F G keep change)
    (hsingle : ∀ {b : Nat} {x : Instr}, F.Lists b s x → x.op = .alloca → (change s x).op = x.op ∧
      (x.operands = [] → (change s x).operands = []))
    (huses : ∀ {b k : Nat} {x : Instr}, F.Lists b k x → dom.reachable (F.blockId b) = true →
      some (F.result s) ∈ (change k x).operands → some (F.result s) ∈ x.operands ∧
        (isPlainUse (F.result s) x = true → isPlainUse (F.result s) (change k x) = true)) : Variable dom G s := by
  constructor
  · intro b x hx hlive
    rw [he.blockId] at hlive
    obtain ⟨-, y, hy, rfl⟩ := he.lists_inv hv.toFormed.tidy.toShaped hx
    obtain ⟨hop, ho⟩ := h.single hy hlive
    obtain ⟨hop', ho'⟩ := hsingle hy hop
    exact ⟨hop'.trans hop, ho' ho⟩
  · intro b k x hx hlive hmem
    rw [he.blockId] at hlive
    rw [result_heading he] at hmem ⊢
    obtain ⟨-, y, hy, rfl⟩ := he.lists_inv hv.toFormed.tidy.toShaped hx
    obtain ⟨hmem', huse⟩ := huses hy hlive hmem
    exact huse (h.uses hy hlive hmem')

theorem Variable.ne_of_reason (h : Variable dom F s) (hl : F.Lists b k i) (hlive : dom.reachable (F.blockId b) = true)
    (hr : Reason known F b k i v) : v ≠ F.result s := by
  have hother : ∀ {p : Nat} {x : Instr}, F.Lists b p x → x.op ≠ .alloca → F.result p ≠ F.result s := by
    intro p x hx hop
    refine result_ne F ?_
    rintro rfl
    exact hop (h.single hx hlive).1
  rintro rfl
  generalize hv : F.result s = v at hr
  cases hr with
  | simplified hs =>
    have hs := simplify?_inv hs
    obtain ⟨-, -, hload, hstore⟩ := hs.op_ne
    rcases hs.operand with ho | ⟨c, t, w, rfl, -⟩
    · exact (op_of_isPlainUse (h.uses hl hlive (hv ▸ ho))).elim hload hstore
    · cases hv
  | forwarded hb hx _ _ hor =>
    rcases hor with ⟨hop, rest, ho⟩ | ⟨hld, rfl⟩
    · have huse := h.uses (hb.lists hx) hlive (by rw [hv, ho]; exact List.mem_cons_self)
      simp [isPlainUse, hop, ho, hv] at huse
    · exact hother (hb.lists hx) (by rw [hld.1]; decide) hv.symm
  | reused hb hx hkx => exact hother (hb.lists hx) (valueKey?_inv hkx).2.1 hv.symm
  | reloaded hb hx hop => exact hother (hb.lists hx) (by rw [hop]; decide) hv.symm

theorem Variable.step (hs : Variable dom F s) (h : Step dom known F G) (hv : m.Valid dom F)
    (hd : DomTree.Sound m F dom) : Variable dom G s := by
  cases h with
  | @replace b k i v hl _ hop _ _ _ _ hr =>
    have hsk : ∀ {c : Nat} {y : Instr}, F.Lists c s y → y.op = .alloca → s ≠ k := by
      rintro c y hy hal rfl
      exact hop (Option.some.inj (hl.found.symm.trans hy.found) ▸ hal)
    refine hs.edited hv (Function.edited_replaced hv.toFormed.tidy hl v) (fun _ _ ↦ ⟨rfl, fun ho ↦ ?_⟩)
      fun {c j y} hy hlive hmem ↦ ?_
    · simp [Instr.rewire, ho]
    · by_cases hread : some (F.result k) ∈ y.operands
      · have hsees := hv.sees hy hlive (Function.result_eq hl.found ▸ hread)
        have hlivek := reachable_of_sees hv hd hl hlive hsees
        have hnew := hs.ne_of_reason hl hlivek (hr hlivek)
        rcases Instr.mem_rewire hmem with ⟨hmem', hne⟩ | ⟨-, heq⟩
        · exact ⟨hmem', isPlainUse_rewire (fun heq ↦ hne (congrArg some heq)) hnew⟩
        · exact absurd (Option.some.inj heq).symm hnew
      · rw [Instr.rewire_of_not_mem hread] at hmem ⊢
        exact ⟨hmem, id⟩
  | drop hl | dropStore hl =>
    exact hs.edited hv (Function.edited_removeFrom hv.toFormed.tidy hl) (fun _ _ ↦ ⟨rfl, id⟩) fun _ _ hmem ↦ ⟨hmem, id⟩
  | @swap b k i i' hl h =>
    obtain ⟨ht, hop, htar, hhome, -⟩ := reassociated?_same h
    have hat : ∀ {c j : Nat} {y : Instr}, F.Lists c j y → j = k → y = i := by
      rintro c j y hy rfl
      exact Option.some.inj (hy.found.symm.trans hl.found)
    refine hs.edited hv (Function.edited_withInstr hl ht hop htar hhome) (fun hy hal ↦ ?_) fun hy hlive hmem ↦
      uses_swapped hv hl h (hat hy) (hs.uses hy hlive) hmem
    have hsk : s ≠ k := fun hsk ↦ (reassociated?_op h).1 (hat hy hsk ▸ hal)
    rw [if_neg hsk]
    exact ⟨rfl, id⟩

/-- From its beginning the function gives `d` after `n` steps, with a stack of height `h` at the end. -/
def Gives (F : Function) (plain : Nat → Bool) (fill : FuncId) (args : List UInt64) (n : Nat) (d : Datum)
    (h : Nat) : Prop :=
  ∃ B, F.blocks[0]? = some B ∧ Runs F plain fill args 0 B.instrs {} n d h

theorem Gives.follow {keep : Nat → Bool} {change : Nat → Instr → Instr} {R : Nat → List Nat → State → State → Prop}
    {n h : Nat} (hrun : Gives F plain fill args n d h) (hv : m.Valid dom F) (hd : DomTree.Sound m F dom)
    (hflow : Flows m F) (he : Edited F G keep change) (hk : Edited.Keeps m dom F keep change)
    (hR : Follows m dom F G plain fill args keep change R) (h0 : R 0 [] {} {}) :
    ∃ n' h', n' ≤ n ∧ h' ≤ h ∧ Gives G plain fill args n' d h' := by
  obtain ⟨B, hB, hrun⟩ := hrun
  have hpre : F.blocks[0]?.map (·.instrs) = some ([] ++ B.instrs) := by rw [hB]; rfl
  obtain ⟨n', h', hn, hh, hrun'⟩ := hrun.follow hv hd hflow he hk hR hd.entry hpre h0
  exact ⟨n', h', hn, hh, _, he.block hB, hrun'⟩

theorem Gives.step {n h : Nat} (hrun : Gives F plain fill args n d h) (hstep : Step dom known F G)
    (hf : Sane m dom known F) (hflow : Flows m F) (hplain : ∀ s, plain s = true → Variable dom F s)
    (hknown : ∀ s, known.lookup s = some false → plain s = true) :
    ∃ n' h', n' ≤ n ∧ h' ≤ h ∧ Gives G plain fill args n' d h' := by
  have hv := hf.toValid
  have hd := hf.sound
  cases hstep with
  | @replace b k i v hl hpure hop ht hoff htakes _ hr =>
    have hev : ∃ near, Evidence dom F plain fill args b k i v near := by
      by_cases hlive : dom.reachable (F.blockId b) = true
      · exact exists_evidence hv hlive hplain hl hd hknown ht (hr hlive)
      · refine ⟨fun _ _ ↦ True, fun _ ↦ trivial, fun _ _ _ ↦ trivial, fun hat ↦ absurd hat.live hlive⟩
    obtain ⟨near, hev⟩ := hev
    refine hrun.follow hv hd hflow (Function.edited_replaced hv.toFormed.tidy hl v)
      (keeps_replaced hv hd hl hpure ht hoff htakes hr) (follows_replaced hv hd hl hop hplain hr ht hpure hev) ?_
    refine ⟨.refl _ _ _ _, fun _ d hdk ↦ ?_, fun _ ↦ hev.start _⟩
    rw [Function.result_eq hl.found] at hdk
    simp [datum] at hdk
  | drop hl hpure hno =>
    exact hrun.follow hv hd hflow (Function.edited_removeFrom hv.toFormed.tidy hl)
      (keeps_removed hv hl (Function.Lists.ne_terminator_of_pure hpure) hno) (follows_dropped hv hl hpure hno)
      ⟨.refl _ _ _ _, .start _⟩
  | dropStore hl hst hs huses =>
    refine hrun.follow hv hd hflow (Function.edited_removeFrom hv.toFormed.tidy hl)
      (keeps_removed hv hl ?_ (store_unread hv hl hst.1)) (follows_unstored hv hl hst (hknown _ hs) huses)
      (.refl _ _ _ _)
    rw [hst.1]
    rfl
  | swap hl h =>
    obtain ⟨ht, hop, htar, hhome, -⟩ := reassociated?_same h
    exact hrun.follow hv hd hflow (Function.edited_withInstr hl ht hop htar hhome) (keeps_reassociated hv hl h)
      (follows_swapped hv hl h) (.refl _ _ _ _)

/-- A function in the course of passes, with the slots that are `plain` as variables. -/
structure Passing (m : Module) (dom : DomTree) (plain : Nat → Bool) (known : Escapes) (F : Function) : Prop
    extends Sane m dom known F where
  flows : Flows m F
  slots : ∀ s, plain s = true → Variable dom F s
  known : ∀ s, known.lookup s = some false → plain s = true

theorem Flows.same (h : Flows m F) (hG : SameFlow F G) : Flows m G := by
  intro b
  rw [hG.leaves, ← h b, Function.blockId, hG.id, Function.blockId]

theorem Passing.step (h : Passing m dom plain known F) (hstep : Step dom known F G) : Passing m dom plain known G :=
  ⟨hstep.sane h.toSane, h.flows.same (hstep.sameFlow h.toValid h.sound),
    fun s hs ↦ (h.slots s hs).step hstep h.toValid h.sound, h.known⟩

theorem Passing.steps (h : Passing m dom plain known F) (hsteps : Steps dom known F G) : Passing m dom plain known G ∧
    ∀ {n hgt : Nat}, Gives F plain fill args n d hgt →
      ∃ n' hgt', n' ≤ n ∧ hgt' ≤ hgt ∧ Gives G plain fill args n' d hgt' := by
  induction hsteps with
  | refl => exact ⟨h, fun hrun ↦ ⟨_, _, le_rfl, le_rfl, hrun⟩⟩
  | tail _ hstep ih =>
    obtain ⟨hk, hgives⟩ := ih
    refine ⟨hk.step hstep, fun hrun ↦ ?_⟩
    obtain ⟨n', h', hn, hh, hrun'⟩ := hgives hrun
    obtain ⟨n'', h'', hn', hh', hrun''⟩ := hrun'.step hstep hk.toSane hk.flows hk.slots hk.known
    exact ⟨n'', h'', hn'.trans hn, hh'.trans hh, hrun''⟩

theorem run_less (p : Pass) (hp : p ≠ .escape) (hf : Sane m dom known F) (s : Nat)
    (hs : (p.run F known).2.lookup s = some false) : known.lookup s = some false := by
  cases p with
  | escape => exact absurd rfl hp
  | promote => exact (dropSlots_steps ((forward_steps hf).sane hf).1 (forward known F).changed).less s hs
  | combine | reassociate | number | unroll | vectorize => exact hs

theorem Passing.passes (passes : List Pass) (hno : Pass.escape ∉ passes) (out : List (Pass × Bool)) {known : Escapes}
    {F : Function} (h : Passing m dom plain known F) {n hgt : Nat} (hrun : Gives F plain fill args n d hgt) :
    let r := passes.foldl (fun (f, known, out) p ↦
      let (c, known) := Pass.run p f known
      (c.f, known, out ++ [(p, c.changed)])) (F, known, out)
    (∃ known', Passing m dom plain known' r.1) ∧ ∃ n' hgt', n' ≤ n ∧ hgt' ≤ hgt ∧
    Gives r.1 plain fill args n' d hgt' := by
  induction passes generalizing known F out n hgt with
  | nil => exact ⟨⟨known, h⟩, n, hgt, le_rfl, le_rfl, hrun⟩
  | cons p passes ih =>
    obtain ⟨hp, hno⟩ := List.ne_and_not_mem_of_not_mem_cons hno
    obtain ⟨hsteps, hknows⟩ := p.run_steps h.toSane
    obtain ⟨hk, hgives⟩ := h.steps hsteps
    obtain ⟨n', h', hn, hh, hrun'⟩ := hgives hrun
    have hk' : Passing m dom plain (p.run F known).2 (p.run F known).1.f :=
      ⟨⟨hk.toValid, hk.sound, hknows⟩, hk.flows, hk.slots,
        fun s hs ↦ h.known s (run_less p (Ne.symm hp) h.toSane s hs)⟩
    obtain ⟨hpassing, n'', h'', hn', hh', hrun''⟩ := ih hno _ hk' hrun'
    exact ⟨hpassing, n'', h'', hn'.trans hn, hh'.trans hh, hrun''⟩

def unescaped (F : Function) (s : Nat) : Bool := (findEscapes F).lookup s == some false

theorem variable_of_unescaped (h : unescaped F s = true) : Variable dom F s := by
  obtain ⟨hsingle, huses⟩ := plain_of_findEscapes (eq_of_beq h)
  exact ⟨fun hl _ ↦ hsingle hl, fun hl _ ho ↦ huses hl ho⟩

theorem Gives.optimized {n h : Nat} (hrun : Gives F (unescaped F) fill args n d h) (hf : Sane m dom [] F)
    (hflow : Flows m F) (hbody : F.isDeclaration = false) :
    (∃ known, Passing m dom (unescaped F) known (runPasses Pass.all F).1) ∧
      ∃ n' h', n' ≤ n ∧ h' ≤ h ∧ Gives (runPasses Pass.all F).1 (unescaped F) fill args n' d h' := by
  have hkept : Passing m dom (unescaped F) ((Pass.run .escape F []).2) F := by
    refine ⟨⟨hf.toValid, hf.sound, (Pass.run_steps .escape hf).2⟩, hflow, fun _ hs ↦ variable_of_unescaped hs,
      fun s hs ↦ ?_⟩
    have hs : (findEscapes F ++ []).lookup s = some false := hs
    rw [List.append_nil] at hs
    exact beq_iff_eq.mpr hs
  unfold runPasses
  rw [hbody]
  exact hkept.passes [.promote, .combine, .reassociate, .number, .unroll, .vectorize] (by decide)
    [(.escape, false)] hrun

end steps

end CilSsa.FlowMachine

