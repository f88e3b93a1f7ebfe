import CilSsa.Proofs.PassSteps

/-! A pass goes through the blocks as they were when it began: what it has kept of the block that it is at and what
is still to do make up the block as it is now. -/

namespace CilSsa.Passes

open CilSsa.Ssa

section folds

variable {σ : Type}

theorem foldl_rest {step : σ → Nat → σ} (P : List Nat → σ → Prop) (hstep : ∀ k rest s, P (k :: rest) s →
    P rest (step s k)) (l : List Nat) (s : σ) (hs : P l s) : P [] (l.foldl step s) := by
  induction l generalizing s with
  | nil => exact hs
  | cons k rest ih => exact ih (step s k) (hstep k rest s hs)

theorem foldl_blocks {f : Function} {step : σ → Block × Nat → σ} (P : Nat → σ → Prop)
    (hstep : ∀ b B s, f.blocks[b]? = some B → P b s → P (b + 1) (step s (B, b))) (s : σ) (hs : P 0 s) :
    P f.blocks.size (f.blocks.toList.zipIdx.foldl step s) := by
  have hfrom : ∀ (l : List Block) (n : Nat) (s : σ), (∀ j : Nat, l[j]? = f.blocks[n + j]?) → P n s →
      P (n + l.length) ((l.zipIdx n).foldl step s) := by
    intro l
    induction l with
    | nil => exact fun _ _ _ h ↦ h
    | cons B l ih =>
      intro n s hl hn
      rw [List.zipIdx_cons, List.foldl_cons, List.length_cons, Nat.add_comm l.length, ← Nat.add_assoc]
      refine ih (n + 1) _ (fun j ↦ ?_) (hstep n B s (by simpa using (hl 0).symm) hn)
      rw [Nat.add_assoc, Nat.add_comm 1, ← hl]
      rfl
  have := hfrom f.blocks.toList 0 s (fun j ↦ by rw [Nat.zero_add, Array.getElem?_toList]) hs
  rwa [Array.length_toList, Nat.zero_add] at this

end folds

section walking

variable {m : Module} {dom : DomTree} {known : Escapes} {f g g' : Function} {b c j k : Nat} {i x : Instr} {v : Value}
  {kept todo : List Nat}

/-- `g` was made of `f`, and lists `kept` and `todo` in block `b` and what `f` does in later blocks. -/
structure Walking (dom : DomTree) (known : Escapes) (f g : Function) (b : Nat) (kept todo : List Nat) : Prop where
  steps : Steps dom known f g
  here : (g.blocks[b]?).map (·.instrs) = some (kept ++ todo)
  later : ∀ c : Nat, b < c → g.blocks[c]? = f.blocks[c]?

/-- `g` was made of `f`, and has the blocks from `b` on as they were. -/
structure Upto (dom : DomTree) (known : Escapes) (f g : Function) (b : Nat) : Prop where
  steps : Steps dom known f g
  later : ∀ c : Nat, b ≤ c → g.blocks[c]? = f.blocks[c]?

theorem Upto.enter {B : Block} (h : Upto dom known f g b) (hB : f.blocks[b]? = some B) :
    Walking dom known f g b [] B.instrs :=
  ⟨h.steps, by rw [h.later b le_rfl, hB]; rfl, fun c hc ↦ h.later c (by omega)⟩

theorem Walking.leave (h : Walking dom known f g b kept []) : Upto dom known f g (b + 1) :=
  ⟨h.steps, fun c hc ↦ h.later c (by omega)⟩

theorem Walking.keep (h : Walking dom known f g b kept (k :: todo)) : Walking dom known f g b (kept ++ [k]) todo :=
  ⟨h.steps, by rw [h.here, List.append_assoc]; rfl, h.later⟩

theorem Walking.block (h : Walking dom known f g b kept todo) : ∃ B, g.blocks[b]? = some B ∧ B.instrs = kept ++ todo :=
  Option.map_eq_some_iff.mp h.here

theorem Walking.lists (h : Walking dom known f g b kept (k :: todo)) (hg : Sane m dom known g) : ∃ i,
    g.Lists b k i := by
  obtain ⟨B, hB, hlist⟩ := h.block
  exact hg.lists hB (by simp [hlist])

theorem Walking.remove {change : Nat → Instr → Instr} (h : Walking dom known f g b kept (k :: todo))
    (hg : Sane m dom known g) (hstep : Step dom known g g') (he : Edited g g' (· != k) change) :
    Walking dom known f g' b kept todo := by
  obtain ⟨B, hB, hlist⟩ := h.block
  have hnodup := hg.once hB
  rw [hlist] at hnodup
  have hk : k ∈ B.instrs := by simp [hlist]
  refine ⟨h.steps.tail hstep, ?_, fun c hc ↦ ?_⟩
  · have hkept : k ∉ kept := fun hmem ↦ (List.nodup_append.mp hnodup).2.2 k hmem k List.mem_cons_self rfl
    have htodo : k ∉ todo := (List.nodup_cons.mp (List.nodup_append.mp hnodup).2.1).1
    have hall : ∀ l : List Nat, k ∉ l → l.filter (· != k) = l := by
      intro l hl
      refine List.filter_eq_self.mpr fun j hj ↦ ?_
      rw [bne_iff_ne]
      rintro rfl
      exact hl hj
    rw [he.block hB, Option.map_some, hlist]
    simp [hall _ hkept, hall _ htodo]
  · rw [he.blocks, ← h.later c hc]
    cases hC : g.blocks[c]? with
    | none => rfl
    | some C =>
      rw [Option.map_some, List.filter_eq_self.mpr]
      intro j hj
      rw [bne_iff_ne]
      rintro rfl
      have := hg.apart hB hC hk hj
      omega

/-- What comes before an instruction in a block that control reaches does not read its result. -/
theorem Walking.unread (h : Walking dom known f g b kept (k :: todo)) (hg : Sane m dom known g)
    (hlive : dom.reachable (g.blockId b) = true) (hj : j ∈ kept) (hx : g.instr? j = some x) :
    some (g.result k) ∉ x.operands := by
  obtain ⟨B, hB, hlist⟩ := h.block
  obtain ⟨i, hl⟩ := h.lists hg
  intro ho
  rw [Function.result_eq hl.found] at ho
  have hsees := hg.sees ⟨⟨B, hB, by simp [hlist, hj]⟩, hx⟩ hlive ho
  cases hsees with
  | @inside B' hB' hsub =>
    obtain rfl : B = B' := Option.some.inj (hB.symm.trans hB')
    have hnodup := hg.once hB
    have hlt := ((pair_sublist_iff hnodup).mp hsub).2
    rw [hlist] at hnodup hlt
    have hkept : k ∉ kept := fun hmem ↦ (List.nodup_append.mp hnodup).2.2 k hmem k List.mem_cons_self rfl
    rw [List.idxOf_append_of_notMem hkept, List.idxOf_append_of_mem hj] at hlt
    have := List.idxOf_lt_length_of_mem hj
    omega
  | above hl' hne => exact hne (hg.unique hl' hl)

theorem Walking.before (h : Walking dom known f g b kept (k :: todo)) (hg : Sane m dom known g)
    (hlive : dom.reachable (g.blockId b) = true) (hj : j ∈ kept) (v : Value) :
    (g.replaced b k v).instr? j = g.instr? j := by
  obtain ⟨B, hB, hlist⟩ := h.block
  obtain ⟨i, hl⟩ := h.lists hg
  obtain ⟨x, hx⟩ := hg.lists hB (show j ∈ B.instrs by simp [hlist, hj])
  have hjk : (j != k) = true := by
    rw [bne_iff_ne]
    rintro rfl
    have hnodup := hg.once hB
    rw [hlist] at hnodup
    exact (List.nodup_append.mp hnodup).2.2 j hj j List.mem_cons_self rfl
  rw [(Function.edited_replaced hg.toFormed.tidy hl v).kept hx hjk, hx.found,
    Instr.rewire_of_not_mem (h.unread hg hlive hj hx.found)]

end walking

section simplifying

variable {m : Module} {dom : DomTree} {known : Escapes} {f g : Function} {b k : Nat} {i : Instr} {v : Value}

theorem step_simplified (hf : Sane m dom known f) (hl : f.Lists b k i) (h : simplify? ⟨f.id, k⟩ i = some v) :
    Step dom known f (f.replaced b k v) := by
  have hs := simplify?_inv h
  obtain ⟨hpure, halloca, hload, hstore⟩ := hs.op_ne
  refine .replace hl hpure halloca (hs.type_eq hf.toValid hl) ?_ ?_ ?_ fun _ ↦ .simplified h
  · rcases hs.operand with ho | ⟨c, t, w, rfl, hc⟩
    · exact hf.offers hl ho
    · exact (ofBits?_made hc).1
  · intro hval
    rcases hs.operand with ho | ⟨c, t, w, rfl, hc⟩
    · obtain ⟨v', heq, ht⟩ := hf.takes hl ho
      rwa [Option.some.inj heq]
    · refine ⟨?_, nofun, nofun⟩
      rw [hs.type_eq hf.toValid hl]
      intro hun
      rw [hun] at hval
      cases hval
  · intro s hknown hv
    rcases hs.operand with ho | ⟨c, t, w, rfl, -⟩
    · exact (op_of_isPlainUse ((hf.knows s hknown).uses hl (hv ▸ ho))).elim hload hstore
    · cases hv

theorem simplifyAll_steps (hf : Sane m dom known f) : Steps dom known f (simplifyAll f).f := by
  refine (foldl_blocks (fun b (c : Changing) ↦ Upto dom known f c.f b) (fun b B c hB hc ↦ ?_) { f }
    ⟨.refl, fun _ _ ↦ rfl⟩).steps
  refine (foldl_rest (fun todo (c : Changing) ↦ ∃ kept, Walking dom known f c.f b kept todo) ?_ B.instrs c
    ⟨[], hc.enter hB⟩).elim fun _ h ↦ h.leave
  rintro k todo c ⟨kept, hw⟩
  have hg := (hw.steps.sane hf).1
  obtain ⟨i, hl⟩ := hw.lists hg
  unfold simplifyStep
  rw [hl.found, Option.bind_some]
  split
  · exact ⟨_, hw.keep⟩
  · rename_i v hv
    exact ⟨kept, hw.remove hg (step_simplified hg hl hv) (Function.edited_replaced hg.toFormed.tidy hl v)⟩

theorem not_mem_of_users (h : (users f v).isEmpty = true) (hl : f.Lists b k i) : some v ∉ i.operands := by
  intro ho
  have hmem : (k, i) ∈ users f v := by
    refine List.mem_flatMap.mpr ⟨(k, i), f.mem_instructions.mpr ⟨b, hl⟩, ?_⟩
    exact List.mem_map.mpr ⟨some v, List.mem_filter.mpr ⟨ho, beq_self_eq_true _⟩, rfl⟩
  rw [List.isEmpty_iff.mp h] at hmem
  cases hmem

/-- Instructions that are dead at the start of a round stay dead while others go. -/
theorem removeDeadOnce_steps (hf : Sane m dom known f) : Steps dom known f (removeDeadOnce f).f := by
  refine (foldl_blocks (fun b (c : Changing) ↦ Upto dom known f c.f b ∧ ∀ a j x, c.f.Lists a j x → f.Lists a j x)
    (fun b B c hB hc ↦ ?_) { f } ⟨⟨.refl, fun _ _ ↦ rfl⟩, fun _ _ _ h ↦ h⟩).1.steps
  refine (foldl_rest (fun todo (c : Changing) ↦ ∃ kept, Walking dom known f c.f b kept todo ∧
    ∀ a j x, c.f.Lists a j x → f.Lists a j x) ?_ B.instrs c ⟨[], hc.1.enter hB, hc.2⟩).elim fun _ h ↦ ⟨h.1.leave, h.2⟩
  rintro k todo c ⟨kept, hw, hsub⟩
  have hg := (hw.steps.sane hf).1
  obtain ⟨i, hl⟩ := hw.lists hg
  rw [(hsub _ _ _ hl).found]
  dsimp only
  split
  · rename_i hdead
    simp only [isDead, Bool.and_eq_true] at hdead
    have he := Function.edited_removeFrom hg.toFormed.tidy hl
    have hres : c.f.result k = f.result k := by
      rw [Function.result_eq hl.found, Function.result_eq (hsub _ _ _ hl).found, (hw.steps.sane hf).2.id]
    refine ⟨kept, hw.remove hg (.drop hl hdead.1.1 fun a j x hx ↦ ?_) he, fun a j x hx ↦ ?_⟩
    · rw [hres]
      exact not_mem_of_users hdead.2 (hsub a j x hx)
    · obtain ⟨-, y, hy, heq⟩ := he.lists_inv hg.toFormed.tidy.toShaped hx
      exact heq ▸ hsub a j y hy
  · exact ⟨_, hw.keep, hsub⟩

theorem removeDead_steps (fuel : Nat) (c : Changing) (hf : Sane m dom known c.f) :
    Steps dom known c.f (removeDead fuel c).f := by
  induction fuel generalizing c with
  | zero => exact .refl
  | succ fuel ih =>
    have hround := removeDeadOnce_steps hf
    rw [removeDead]
    split
    · exact hround.trans (ih { f := (removeDeadOnce c.f).f, changed := true } (hround.sane hf).1)
    · exact .refl

theorem combineRounds_steps (fuel : Nat) (c : Changing) (hf : Sane m dom known c.f) :
    Steps dom known c.f (combineRounds fuel c).f := by
  induction fuel generalizing c with
  | zero => exact .refl
  | succ fuel ih =>
    have hs := simplifyAll_steps hf
    have hround := hs.trans (removeDead_steps ((simplifyAll c.f).f.instructions.length + 1) { f := (simplifyAll c.f).f }
      (hs.sane hf).1)
    rw [combineRounds]
    split
    · exact hround.trans (ih { f := _, changed := true } (Steps.sane hround hf).1)
    · exact hround

theorem foldl_reassociated_steps (dom : DomTree) (known : Escapes) (f : Function) (l : List (Nat × Instr)) :
    ∀ c : Changing, (∀ p ∈ l, p ∈ f.instructions) → Steps dom known f c.f → c.f.blocks = f.blocks →
      (∀ p ∈ f.instructions, c.f.instr? p.1 = some p.2 ∨ ∃ x, reassociated? p.2 = some x ∧ c.f.instr? p.1 = some x) →
      Steps dom known f (l.foldl (fun c (k, i) ↦ match reassociated? i with
        | some i => { f := { c.f with instrs := c.f.instrs.set! k i }, changed := true }
        | none => c) c).f := by
  induction l with
  | nil => exact fun c _ h _ _ ↦ h
  | cons p l ih =>
    obtain ⟨k, i⟩ := p
    intro c hsub hsteps hblocks hinstrs
    have hp : (k, i) ∈ f.instructions := hsub _ List.mem_cons_self
    have hrest : ∀ p ∈ l, p ∈ f.instructions := fun p hp ↦ hsub p (List.mem_cons_of_mem _ hp)
    rw [List.foldl_cons]
    dsimp only
    split
    swap
    · exact ih c hrest hsteps hblocks hinstrs
    rename_i x hx
    obtain ⟨b, ⟨B, hB, hk⟩, hi⟩ := f.mem_instructions.mp hp
    obtain ⟨y, hy⟩ : ∃ y, c.f.instr? k = some y := by
      rcases hinstrs _ hp with h | ⟨y, -, h⟩
      · exact ⟨_, h⟩
      · exact ⟨y, h⟩
    refine ih { f := c.f.withInstr k x, changed := true } hrest ?_ hblocks fun p hp' ↦ ?_
    · rcases hinstrs _ hp with h | ⟨z, hz, h⟩
      · exact hsteps.tail (.swap ⟨⟨B, by rw [hblocks]; exact hB, hk⟩, h⟩ hx)
      · obtain rfl := Option.some.inj (hz.symm.trans hx)
        dsimp only
        rwa [Function.withInstr_self h]
    · dsimp only
      rw [Function.instr?_withInstr hy]
      split
      · rename_i hkp
        obtain ⟨-, -, hi'⟩ := f.mem_instructions.mp hp'
        obtain rfl : i = p.2 := Option.some.inj (hi.symm.trans (hkp ▸ hi'))
        exact .inr ⟨x, hx, rfl⟩
      · exact hinstrs p hp'

theorem reassociate_steps (dom : DomTree) (known : Escapes) (f : Function) : Steps dom known f (reassociate f).f := by
  refine foldl_reassociated_steps dom known f f.instructions { f } (fun _ h ↦ h) .refl rfl fun p hp ↦ .inl ?_
  obtain ⟨-, -, hi⟩ := f.mem_instructions.mp hp
  exact hi

end simplifying

section forwarding

variable {m : Module} {dom : DomTree} {known : Escapes} {f g g' : Function} {b j k s t : Nat} {i x : Instr}
  {v w : Value} {kept todo : List Nat} {o : Option Value}

theorem promotable?_eq_some : promotable? f known o = some s ↔ ∃ t, o = some (.instr ⟨f.id, s⟩ t) ∧
    (f.instr? s).map (·.op) = some .alloca ∧ known.lookup s = some false := by
  unfold promotable?
  split
  · rename_i id t
    split
    · rename_i h
      obtain ⟨fn, n⟩ := id
      obtain ⟨rfl, hop, hk⟩ := h
      simp only [Option.some.injEq, Value.instr.injEq, InstrId.mk.injEq, true_and]
      constructor
      · rintro rfl
        exact ⟨t, ⟨rfl, rfl⟩, hop, hk⟩
      · rintro ⟨_, ⟨rfl, rfl⟩, -⟩
        rfl
    · rename_i h
      refine ⟨nofun, ?_⟩
      rintro ⟨t', heq, hop, hk⟩
      cases heq
      exact absurd ⟨rfl, hop, hk⟩ h
  · rename_i h
    refine ⟨nofun, ?_⟩
    rintro ⟨t, rfl, -⟩
    exact (h _ _ rfl).elim

theorem promotable?_operand (hf : Sane m dom known f) (hl : f.Lists b k i) (ho : o ∈ i.operands)
    (h : promotable? f known o = some s) : o = some (f.result s) ∧ known.lookup s = some false := by
  obtain ⟨t, rfl, -, hknown⟩ := promotable?_eq_some.mp h
  exact ⟨congrArg some (hf.eq_result hl ho), hknown⟩

/-- After `kept` of block `b` slot `s` holds `v`, which was stored to it or loaded from it. -/
structure Holds (dom : DomTree) (known : Escapes) (f : Function) (b : Nat) (kept : List Nat) (s : Nat) (v : Value) :
    Prop where
  slot : promotable? f known (some (f.result s)) = some s
  offers : f.Offers v
  takes : v.type.hasValue = true → f.Takes v
  apart : ∀ s, known.lookup s = some false → v ≠ f.result s
  held : dom.reachable (f.blockId b) = true → ∃ p pre mid x, kept = pre ++ p :: mid ∧ f.instr? p = some x ∧
    (Stores f x v s ∨ Loads f x s ∧ v = f.result p) ∧ ∀ j ∈ mid, ∀ y w, f.instr? j = some y → ¬ Stores f y w s

theorem Holds.keep (h : Holds dom known f b kept s v) (hi : f.instr? k = some i) (hk : ∀ w, ¬ Stores f i w s) :
    Holds dom known f b (kept ++ [k]) s v := by
  refine ⟨h.slot, h.offers, h.takes, h.apart, fun hlive ↦ ?_⟩
  obtain ⟨p, pre, mid, x, rfl, hx, hor, hno⟩ := h.held hlive
  refine ⟨p, pre, mid ++ [k], x, by simp, hx, hor, fun j hj y w hy ↦ ?_⟩
  rcases List.mem_append.mp hj with hj | hj
  · exact hno j hj y w hy
  · rw [List.mem_singleton.mp hj, hi] at hy
    exact Option.some.inj hy ▸ hk w

theorem Holds.replaced (h : Holds dom known g b kept s v) (hw : Walking dom known f g b kept (k :: todo))
    (hg : Sane m dom known g) (hl : g.Lists b k i) (w : Value) : Holds dom known (g.replaced b k w) b kept s v := by
  have he := Function.edited_replaced hg.toFormed.tidy hl w
  have hres := result_heading he
  have hst : ∀ y u, Stores (g.replaced b k w) y u s ↔ Stores g y u s := fun y u ↦ by rw [Stores, Stores, hres]
  have hld : ∀ y, Loads (g.replaced b k w) y s ↔ Loads g y s := fun y ↦ by rw [Loads, Loads, hres]
  refine ⟨?_, he.offers h.offers, fun ht ↦ he.takes (h.takes ht), fun s hs ↦ hres s ▸ h.apart s hs, fun hlive ↦ ?_⟩
  · obtain ⟨t, heq, hop, hk⟩ := promotable?_eq_some.mp h.slot
    refine promotable?_eq_some.mpr ⟨t, by rw [hres, he.heading.id, heq], ?_, hk⟩
    obtain ⟨x, hx, hop⟩ := Option.map_eq_some_iff.mp hop
    obtain ⟨y, hy, -, hop', -⟩ := he.same hx
    rw [hy, Option.map_some, hop', hop]
  · rw [he.blockId] at hlive
    obtain ⟨p, pre, mid, x, hkept, hx, hor, hno⟩ := h.held hlive
    refine ⟨p, pre, mid, x, hkept, ?_, ?_, fun j hj y u hy ↦ ?_⟩
    · rw [hw.before hg hlive (by simp [hkept]), hx]
    · rw [hst, hld, hres]
      exact hor
    · rw [hw.before hg hlive (by simp [hkept, hj])] at hy
      rw [hst]
      exact hno j hj y u hy

theorem Holds.step (h : Holds dom known g b kept s v) (hw : Walking dom known f g b kept (k :: todo))
    (hl : g.Lists b k i) (hi : Loads g i s) (ht : v.type = i.type) (hknown : known.lookup s = some false) :
    Step dom known g (g.replaced b k v) := by
  refine .replace hl (by rw [hi.1]; rfl) (by rw [hi.1]; exact nofun) ht h.offers (ht ▸ h.takes) h.apart fun hlive ↦ ?_
  obtain ⟨p, pre, mid, x, rfl, hx, hor, hno⟩ := h.held hlive
  obtain ⟨B, hB, hlist⟩ := hw.block
  exact .forwarded ⟨B, pre, todo, hB, by rw [hlist]; simp⟩ hx hknown hi hor hno

theorem result_apart (hf : Sane m dom known f) (hl : f.Lists b k i) (hop : i.op ≠ .alloca) :
    ∀ s, known.lookup s = some false → f.result k ≠ f.result s := by
  intro s hs heq
  by_cases hsk : k = s
  · subst hsk
    exact hop ((hf.knows k hs).single hl).1
  · exact result_ne f hsk heq

theorem offers_result (hl : f.Lists b k i) : f.Offers (f.result k) := by
  rw [Function.result_eq hl.found]
  exact ⟨rfl, i, hl.found, rfl⟩

theorem takes_result (hl : f.Lists b k i) (ht : (f.result k).type.hasValue = true) : f.Takes (f.result k) := by
  rw [Function.result_eq hl.found] at ht ⊢
  refine ⟨?_, ?_, nofun⟩
  · intro hun
    rw [hun] at ht
    cases ht
  · rintro _ _ ⟨⟩
    exact ht

theorem Holds.stored (hf : Sane m dom known f) (hl : f.Lists b k i) (hi : Stores f i v s)
    (hslot : promotable? f known (some (f.result s)) = some s) : Holds dom known f b (kept ++ [k]) s v := by
  obtain ⟨hop, rest, ho⟩ := hi
  have hmem : some v ∈ i.operands := by rw [ho]; exact List.mem_cons_self
  refine ⟨hslot, hf.offers hl hmem, fun _ ↦ ?_, fun t ht heq ↦ ?_, fun _ ↦
    ⟨k, kept, [], i, by simp, hl.found, .inl ⟨hop, rest, ho⟩, nofun⟩⟩
  · obtain ⟨v', heq, hv⟩ := hf.takes hl hmem
    rwa [Option.some.inj heq]
  · have huse := (hf.knows t ht).uses hl (heq ▸ hmem)
    simp [isPlainUse, hop, ho, heq] at huse

theorem Holds.loaded (hf : Sane m dom known f) (hl : f.Lists b k i) (hi : Loads f i s)
    (hslot : promotable? f known (some (f.result s)) = some s) : Holds dom known f b (kept ++ [k]) s (f.result k) :=
  ⟨hslot, offers_result hl, takes_result hl, result_apart hf hl (by rw [hi.1]; exact nofun), fun _ ↦
    ⟨k, kept, [], i, by simp, hl.found, .inr ⟨hi, rfl⟩, nofun⟩⟩

theorem Stores.unique (h : Stores f i v s) (h' : Stores f i w t) : t = s := by
  obtain ⟨-, rest, ho⟩ := h
  obtain ⟨-, rest', ho'⟩ := h'
  rw [ho] at ho'
  simp only [List.cons.injEq, Option.some.injEq] at ho'
  by_contra hne
  exact result_ne f (fun heq ↦ hne heq.symm) ho'.2.1

/-- The walk has come to `todo` in block `b`, and each slot holds what is noted of it. -/
def Noting (dom : DomTree) (known : Escapes) (f : Function) (b : Nat) (todo : List Nat) (c : Forwarding) : Prop :=
  ∃ kept, Walking dom known f c.f b kept todo ∧
    ∀ s v, c.contents.lookup s = some v → Holds dom known c.f b kept s v

variable {c : Forwarding}

theorem Noting.passed (h : Noting dom known f b (k :: todo) c) (hi : c.f.instr? k = some i)
    (hno : ∀ s w, Stores c.f i w s → promotable? c.f known (some (c.f.result s)) ≠ some s) :
    Noting dom known f b todo c := by
  obtain ⟨kept, hw, hholds⟩ := h
  exact ⟨_, hw.keep, fun s v hs ↦ (hholds s v hs).keep hi fun w hst ↦ hno s w hst (hholds s v hs).slot⟩

theorem Noting.noted (h : Noting dom known f b (k :: todo) c) (hi : c.f.instr? k = some i)
    (hs : ∀ kept, Holds dom known c.f b (kept ++ [k]) s v) (hno : ∀ t w, t ≠ s → ¬ Stores c.f i w t) :
    Noting dom known f b todo { c with contents := (s, v) :: c.contents } := by
  obtain ⟨kept, hw, hholds⟩ := h
  refine ⟨_, hw.keep, fun t u ht ↦ ?_⟩
  rw [List.lookup_cons] at ht
  split at ht
  · rename_i heq
    rw [eq_of_beq heq]
    exact Option.some.inj ht ▸ hs kept
  · rename_i hne
    exact (hholds t u ht).keep hi fun w ↦ hno t w (ne_of_beq_false hne)

theorem Noting.step (hf : Sane m dom known f) (h : Noting dom known f b (k :: todo) c) :
    Noting dom known f b todo (forwardStep known b c k) := by
  have ⟨kept, hw, hholds⟩ := h
  have hg := (hw.steps.sane hf).1
  obtain ⟨i, hl⟩ := hw.lists hg
  unfold forwardStep
  rw [hl.found]
  dsimp only
  split
  · rename_i o p rest hop ho
    split
    · rename_i s v hs
      obtain ⟨rfl, -⟩ := promotable?_operand hg hl (by rw [ho]; simp) hs
      have hst : Stores c.f i v s := ⟨hop, rest, ho⟩
      exact h.noted hl.found (fun _ ↦ .stored hg hl hst hs) fun t w hne hst' ↦ hne (hst.unique hst')
    · rename_i hno
      refine h.passed hl.found fun s w hst hslot ↦ ?_
      obtain ⟨-, rest', ho'⟩ := hst
      rw [ho] at ho'
      simp only [List.cons.injEq] at ho'
      exact hno s w (ho'.2.1 ▸ hslot) ho'.1
  · rename_i p rest hop ho
    have hnot : ∀ s w, ¬ Stores c.f i w s := by
      intro s w hst
      have := hst.1
      rw [hop] at this
      cases this
    split
    · exact h.passed hl.found fun s w hst ↦ absurd hst (hnot s w)
    · rename_i s hs
      obtain ⟨rfl, hknown⟩ := promotable?_operand hg hl (by rw [ho]; simp) hs
      have hi : Loads c.f i s := ⟨hop, rest, ho⟩
      have hnoted := h.noted hl.found (fun _ ↦ .loaded hg hl hi hs) fun t w _ ↦ hnot t w
      split
      · rename_i v hv
        split
        · rename_i ht
          have hh := hholds s v hv
          refine ⟨kept, hw.remove hg (hh.step hw hl hi ht hknown) (Function.edited_replaced hg.toFormed.tidy hl v), ?_⟩
          exact fun t u hu ↦ (hholds t u hu).replaced hw hg hl v
        · exact hnoted
      · exact hnoted
  · rename_i hstore _
    refine h.passed hl.found fun s w hst ↦ ?_
    obtain ⟨hop, rest, ho⟩ := hst
    exact (hstore _ _ _ hop ho).elim

theorem forward_steps (hf : Sane m dom known f) : Steps dom known f (forward known f).f := by
  refine (foldl_blocks (fun b (c : Changing) ↦ Upto dom known f c.f b) (fun b B c hB hc ↦ ?_) { f }
    ⟨.refl, fun _ _ ↦ rfl⟩).steps
  exact (foldl_rest (fun todo (c : Forwarding) ↦ Noting dom known f b todo c) (fun k todo c h ↦ h.step hf) B.instrs
    { c with contents := [] } ⟨[], hc.enter hB, nofun⟩).elim fun _ h ↦ h.1.leave

end forwarding

section dropping

variable {m : Module} {dom : DomTree} {known : Escapes} {f g : Function} {b j k s : Nat} {i x : Instr} {v : Value}

theorem mem_users (hl : f.Lists b k i) (ho : some v ∈ i.operands) : (k, i) ∈ users f v :=
  List.mem_flatMap.mpr ⟨(k, i), f.mem_instructions.mpr ⟨b, hl⟩,
    List.mem_map.mpr ⟨some v, List.mem_filter.mpr ⟨ho, beq_self_eq_true _⟩, rfl⟩⟩

theorem users_inv (h : (k, i) ∈ users f v) : (∃ b, f.Lists b k i) ∧ some v ∈ i.operands := by
  obtain ⟨⟨j, x⟩, hmem, hk⟩ := List.mem_flatMap.mp h
  obtain ⟨o, ho, heq⟩ := List.mem_map.mp hk
  cases heq
  obtain ⟨ho, heq⟩ := List.mem_filter.mp ho
  exact ⟨f.mem_instructions.mp hmem, eq_of_beq heq ▸ ho⟩

theorem remove_eq (hf : f.Formed) (hi : f.instr? k = some i) :
    (∃ b, f.Lists b k i ∧ f.remove k = f.removeFrom b k) ∨ (∀ b x, ¬ f.Lists b k x) ∧ f.remove k = f := by
  unfold Function.remove
  rw [hi, Option.bind_some]
  cases hhome : i.home with
  | none =>
    refine .inr ⟨fun b x hl ↦ ?_, rfl⟩
    have := hf.home_eq hl
    rw [Option.some.inj (hl.found.symm.trans hi), hhome] at this
    cases this
  | some h =>
    obtain ⟨b, B, rfl, hB, hk⟩ := hf.home hi hhome
    exact .inl ⟨b, ⟨⟨B, hB, hk⟩, hi⟩, if_pos rfl⟩

/-- `g` was made of `f` by taking out instructions. -/
structure Thinned (dom : DomTree) (known : Escapes) (f g : Function) : Prop where
  steps : Steps dom known f g
  sub : ∀ {b k : Nat} {i : Instr}, g.Lists b k i → f.Lists b k i

theorem Thinned.remove (h : Thinned dom known f g) (hf : Sane m dom known f) (hl : g.Lists b k i)
    (hstep : Step dom known g (g.removeFrom b k)) :
    Thinned dom known f (g.removeFrom b k) ∧ ∀ c x, ¬ (g.removeFrom b k).Lists c k x := by
  have hg := (h.steps.sane hf).1
  have he := Function.edited_removeFrom hg.toFormed.tidy hl
  refine ⟨⟨h.steps.tail hstep, fun hx ↦ ?_⟩, fun c x hx ↦ ?_⟩
  · obtain ⟨-, y, hy, heq⟩ := he.lists_inv hg.toFormed.tidy.toShaped hx
    exact heq ▸ h.sub hy
  · obtain ⟨hne, -⟩ := he.lists_inv hg.toFormed.tidy.toShaped hx
    simp at hne

theorem Thinned.stores (hf : Sane m dom known f) (hs : known.lookup s = some false)
    (hall : ∀ p ∈ users f (f.result s), p.2.op = .store) (l : List (Nat × Instr)) (h : Thinned dom known f g)
    (hl : ∀ p ∈ l, p ∈ users f (f.result s))
    (hgone : ∀ p ∈ users f (f.result s), p ∈ l ∨ ∀ b x, ¬ g.Lists b p.1 x) :
    Thinned dom known f (l.foldl (fun g (u, _) ↦ g.remove u) g) ∧ ∀ p ∈ users f (f.result s), ∀ b x,
      ¬ (l.foldl (fun g (u, _) ↦ g.remove u) g).Lists b p.1 x := by
  induction l generalizing g with
  | nil => exact ⟨h, fun p hp ↦ (hgone p hp).resolve_left (List.not_mem_nil)⟩
  | cons q l ih =>
    obtain ⟨u, y⟩ := q
    have hg := (h.steps.sane hf).1
    have hres := h.steps.result hf s
    have hy := hl _ List.mem_cons_self
    obtain ⟨⟨a, hya⟩, ho⟩ := users_inv hy
    obtain ⟨x, hx⟩ : ∃ x, g.instr? u = some x := by
      have hlt := (Array.getElem?_eq_some_iff.mp hya.found).1
      exact ⟨_, Array.getElem?_eq_getElem ((h.steps.sane hf).2.size ▸ hlt)⟩
    rw [List.foldl_cons]
    have hrest : ∀ p ∈ l, p ∈ users f (f.result s) := fun p hp ↦ hl p (List.mem_cons_of_mem _ hp)
    rcases remove_eq hg.toFormed hx with ⟨c, hlu, heq⟩ | ⟨hnot, heq⟩
    · obtain rfl : x = y := Option.some.inj ((h.sub hlu).found.symm.trans hya.found)
      have hop : x.op = .store := hall _ hy
      have hstores : ∃ v, Stores g x v s := by
        obtain ⟨v, p, hvp, -⟩ := (hg.ruled hlu).store_operands hop
        have huse := (hg.knows s hs).uses hlu (by rw [hres]; exact ho)
        simp only [isPlainUse, hop, hvp, Bool.and_eq_true, beq_iff_eq] at huse
        exact ⟨v, hop, [], by rw [hvp, huse.1]⟩
      obtain ⟨v, hst⟩ := hstores
      have hstep : Step dom known g (g.removeFrom c u) := by
        refine .dropStore hlu hst hs fun c' j z hz hzo ↦ ?_
        exact hall (j, z) (mem_users (h.sub hz) (hres ▸ hzo))
      have he := Function.edited_removeFrom hg.toFormed.tidy hlu
      obtain ⟨hthin, hout⟩ := h.remove hf hlu hstep
      dsimp only
      rw [heq]
      refine ih hthin hrest fun p hp ↦ ?_
      rcases hgone p hp with hmem | hno
      · rcases List.mem_cons.mp hmem with rfl | hmem
        · exact .inr hout
        · exact .inl hmem
      · refine .inr fun b z hz ↦ ?_
        obtain ⟨-, z', hz', -⟩ := he.lists_inv hg.toFormed.tidy.toShaped hz
        exact hno b z' hz'
    · dsimp only
      rw [heq]
      refine ih h hrest fun p hp ↦ ?_
      rcases hgone p hp with hmem | hno
      · rcases List.mem_cons.mp hmem with rfl | hmem
        · exact .inr hnot
        · exact .inl hmem
      · exact .inr hno

theorem lookup_filter (q : Nat → Bool) (known : Escapes) (s : Nat) :
    (known.filter fun p ↦ q p.1).lookup s = if q s then known.lookup s else none := by
  induction known with
  | nil => simp
  | cons p known ih =>
    obtain ⟨n, e⟩ := p
    by_cases hsn : s = n
    · subst hsn
      by_cases hq : q s = true
      · simp [hq]
      · simp [hq, ih]
    · have hbeq : (s == n) = false := by simpa using hsn
      rw [List.filter_cons, List.lookup_cons, hbeq]
      split
      · rw [List.lookup_cons, hbeq, ih]
      · exact ih

/-- Slots are being dropped from `f`: no more is taken to be plain than at first. -/
structure Dropping (dom : DomTree) (known : Escapes) (f : Function) (c : Changing × Escapes) : Prop
    extends Thinned dom known f c.1.f where
  less : ∀ s, c.2.lookup s = some false → known.lookup s = some false

theorem Dropping.dropSlot (hf : Sane m dom known f) {c : Changing × Escapes} (h : Dropping dom known f c) (b k : Nat) :
    Dropping dom known f (dropSlot f b c k) := by
  obtain ⟨h, hknown⟩ := h
  obtain ⟨c, known'⟩ := c
  unfold Passes.dropSlot
  dsimp only at h hknown ⊢
  split
  · exact ⟨h, hknown⟩
  rename_i s hs
  obtain ⟨t, heq, -, hs⟩ := promotable?_eq_some.mp hs
  obtain rfl : k = s := by
    simp only [Function.result, Option.some.injEq, Value.instr.injEq, InstrId.mk.injEq] at heq
    exact heq.1.2
  split
  swap
  · exact ⟨h, hknown⟩
  rename_i hall
  have hstores : ∀ p ∈ users f (f.result k), p.2.op = .store := fun p hp ↦ by simpa using List.all_eq_true.mp hall p hp
  obtain ⟨hthin, hgone⟩ := Thinned.stores hf (hknown k hs) hstores _ h (fun _ hp ↦ hp) fun p hp ↦ .inl hp
  refine ⟨?_, fun s hs' ↦ hknown s ?_⟩
  swap
  · have hs' : (known'.filter fun p ↦ p.1 != k).lookup s = some false := hs'
    rw [lookup_filter (· != k)] at hs'
    exact (Option.ite_none_right_eq_some.mp hs').2
  dsimp only
  generalize (users f (f.result k)).foldl (fun g (u, _) ↦ g.remove u) c.f = g at hthin hgone ⊢
  have hg := (hthin.steps.sane hf).1
  by_cases hlist : ∃ x, g.Lists b k x
  · obtain ⟨x, hl⟩ := hlist
    have hplain := hg.knows k (hknown k hs)
    refine (hthin.remove hf hl (.drop hl (by rw [(hplain.single hl).1]; rfl) fun a j z hz hzo ↦ ?_)).1
    rw [hthin.steps.result hf k] at hzo
    exact hgone _ (mem_users (hthin.sub hz) hzo) a z hz
  · rw [Function.removeFrom_of_not_mem]
    · exact hthin
    · intro B hB hk
      exact hlist (hg.lists hB hk)

theorem dropSlots_steps (hf : Sane m dom known f) (changed : Bool) :
    Dropping dom known f (dropSlots known { f, changed }) := by
  refine foldl_blocks (fun _ ↦ Dropping dom known f) (fun b B c _ hc ↦ ?_) _ ⟨⟨.refl, id⟩, fun _ ↦ id⟩
  exact foldl_rest (fun _ ↦ Dropping dom known f) (fun k _ c hc ↦ hc.dropSlot hf b k) B.instrs c hc

end dropping

section numbering

variable {m : Module} {dom : DomTree} {known : Escapes} {f g : Function} {b j k p : Nat} {i x : Instr} {v : Value}
  {kept todo : List Nat} {op : Op} {t : Ty} {P : Instr → List (Option Instr) → Prop}

/-- Among `kept` of block `b` is instruction `p`, of which and of what follows it `P` holds if control gets there. -/
structure Earlier (dom : DomTree) (f : Function) (b : Nat) (kept : List Nat) (p : Nat) (op : Op) (t : Ty)
    (P : Instr → List (Option Instr) → Prop) : Prop where
  mem : p ∈ kept
  kind : ∃ x, f.instr? p = some x ∧ x.op = op ∧ x.type = t
  held : dom.reachable (f.blockId b) = true → ∃ pre mid x, kept = pre ++ p :: mid ∧ f.instr? p = some x ∧
    P x (mid.map f.instr?)

theorem Earlier.self (hi : f.instr? k = some i) (hop : i.op = op) (ht : i.type = t) (hP : P i []) :
    Earlier dom f b (kept ++ [k]) k op t P :=
  ⟨by simp, ⟨i, hi, hop, ht⟩, fun _ ↦ ⟨kept, [], i, rfl, hi, hP⟩⟩

theorem Earlier.keep (h : Earlier dom f b kept p op t P) (hi : f.instr? k = some i)
    (hP : ∀ x l, P x l → P x (l ++ [some i])) : Earlier dom f b (kept ++ [k]) p op t P := by
  refine ⟨List.mem_append_left _ h.mem, h.kind, fun hlive ↦ ?_⟩
  obtain ⟨pre, mid, x, rfl, hx, hx'⟩ := h.held hlive
  refine ⟨pre, mid ++ [k], x, by simp, hx, ?_⟩
  rw [List.map_append, List.map_singleton, hi]
  exact hP _ _ hx'

theorem Earlier.replaced (h : Earlier dom g b kept p op t P) (hw : Walking dom known f g b kept (k :: todo))
    (hg : Sane m dom known g) (hl : g.Lists b k i) (w : Value) : Earlier dom (g.replaced b k w) b kept p op t P := by
  have he := Function.edited_replaced hg.toFormed.tidy hl w
  refine ⟨h.mem, ?_, fun hlive ↦ ?_⟩
  · obtain ⟨x, hx, hop, ht⟩ := h.kind
    obtain ⟨y, hy, ht', hop', -⟩ := he.same hx
    exact ⟨y, hy, hop'.trans hop, ht'.trans ht⟩
  · rw [he.blockId] at hlive
    obtain ⟨pre, mid, x, hkept, hx, hP⟩ := h.held hlive
    refine ⟨pre, mid, x, hkept, by rw [hw.before hg hlive (by simp [hkept]), hx], ?_⟩
    have hmid : mid.map (g.replaced b k w).instr? = mid.map g.instr? :=
      List.map_congr_left fun j hj ↦ hw.before hg hlive (by simp [hkept, hj]) w
    rwa [hmid]

theorem Earlier.step (h : Earlier dom g b kept p op t P) (hw : Walking dom known f g b kept (k :: todo))
    (hg : Sane m dom known g) (hl : g.Lists b k i) (hpure : i.op.isPure = true) (hi : i.op ≠ .alloca)
    (hop : op ≠ .alloca) (ht : t = i.type)
    (hP : ∀ mid x, Between g b p k mid → g.instr? p = some x → P x (mid.map g.instr?) →
      Reason known g b k i (g.result p)) :
    Step dom known g (g.replaced b k (g.result p)) := by
  obtain ⟨B, hB, hlist⟩ := hw.block
  obtain ⟨x, hx, rfl, rfl⟩ := h.kind
  have hlp : g.Lists b p x := ⟨⟨B, hB, by simp [hlist, h.mem]⟩, hx⟩
  have htype : (g.result p).type = i.type := by rw [Function.result_eq hx, ← ht]; rfl
  have htakes := htype ▸ takes_result hlp
  refine .replace hl hpure hi htype (offers_result hlp) htakes (result_apart hg hlp hop) fun hlive ↦ ?_
  obtain ⟨pre, mid, y, rfl, hy, hPy⟩ := h.held hlive
  exact hP mid y ⟨B, pre, todo, hB, by rw [hlist]; simp⟩ hy hPy

def Computes (key : ValueKey) (x : Instr) (_ : List (Option Instr)) : Prop := valueKey? x = some key

/-- The instructions that load from `o`, with nothing after them that writes to memory. -/
def Keeping (o : Option Value) (x : Instr) (mid : List (Option Instr)) : Prop :=
  x.operands.headD none = o ∧ ∀ y, some y ∈ mid → y.op ≠ .store ∧ y.op ≠ .call

theorem valueKey?_inv {key : ValueKey} (h : valueKey? i = some key) :
    i.op.isPure = true ∧ i.op ≠ .alloca ∧ i.op ≠ .load ∧ key.op = i.op ∧ key.type = i.type := by
  unfold valueKey? at h
  split at h
  · cases h
  · rename_i hne
    cases h
    simp only [Bool.not_eq_true', not_or, Bool.not_eq_false] at hne
    exact ⟨hne.1, hne.2.1, hne.2.2, rfl, rfl⟩

/-- What numbering knows after `kept` of block `b`. -/
structure Numbering (dom : DomTree) (known : Escapes) (f : Function) (b : Nat) (todo : List Nat) (s : Available)
    (kept : List Nat) : Prop extends Walking dom known f s.f b kept todo where
  computed : ∀ key p, s.computed.lookup key = some p → Earlier dom s.f b kept p key.op key.type (Computes key)
  loaded : ∀ o p, s.loaded.lookup o = some p → ∃ t, Earlier dom s.f b kept p .load t (Keeping o)

theorem Numbering.reuse {s : Available} (h : Numbering dom known f b (k :: todo) s kept) (hg : Sane m dom known s.f)
    (hl : s.f.Lists b k i) (hstep : Step dom known s.f (s.f.replaced b k (s.f.result p))) :
    Numbering dom known f b todo (s.reuse b k p) kept := by
  refine ⟨h.remove hg hstep (Function.edited_replaced hg.toFormed.tidy hl _), ?_, ?_⟩
  · exact fun key q hq ↦ (h.computed key q hq).replaced h.toWalking hg hl _
  · intro o q hq
    obtain ⟨t, he⟩ := h.loaded o q hq
    exact ⟨t, he.replaced h.toWalking hg hl _⟩

theorem Numbering.keep {s : Available} (h : Numbering dom known f b (k :: todo) s kept) (hl : s.f.Lists b k i)
    (hop : i.op ≠ .store ∧ i.op ≠ .call) : Numbering dom known f b todo s (kept ++ [k]) := by
  refine ⟨h.toWalking.keep, fun key p hp ↦ (h.computed key p hp).keep hl.found fun _ _ hx ↦ hx, fun o p hp ↦ ?_⟩
  obtain ⟨t, he⟩ := h.loaded o p hp
  refine ⟨t, he.keep hl.found fun x l hx ↦ ⟨hx.1, fun y hy ↦ ?_⟩⟩
  rcases List.mem_append.mp hy with hy | hy
  · exact hx.2 y hy
  · rw [Option.some.inj (List.mem_singleton.mp hy)]
    exact hop

theorem numberStep_numbering (hf : Sane m dom known f) {s : Available}
    (h : Numbering dom known f b (k :: todo) s kept) :
    ∃ kept, Numbering dom known f b todo (numberStep b s k) kept := by
  have hg := (h.steps.sane hf).1
  obtain ⟨i, hl⟩ := h.toWalking.lists hg
  have hwrite : ∃ kept, Numbering dom known f b todo { s with loaded := [] } kept :=
    ⟨_, h.toWalking.keep, fun key p hp ↦ (h.computed key p hp).keep hl.found fun _ _ hx ↦ hx, nofun⟩
  have hload : i.op = .load → ∃ kept,
      Numbering dom known f b todo { s with loaded := (i.operands.headD none, k) :: s.loaded } kept := by
    intro hop
    have hk := h.keep hl (by rw [hop]; exact ⟨nofun, nofun⟩)
    refine ⟨_, hk.toWalking, hk.computed, fun o p hp ↦ ?_⟩
    rw [List.lookup_cons] at hp
    split at hp
    · rename_i heq
      rw [eq_of_beq heq, ← Option.some.inj hp]
      exact ⟨i.type, .self hl.found hop rfl ⟨rfl, fun _ hy ↦ absurd hy List.not_mem_nil⟩⟩
    · exact hk.loaded o p hp
  unfold numberStep
  rw [hl.found]
  dsimp only
  split
  · exact hwrite
  · exact hwrite
  · rename_i hop
    split
    · rename_i p hp
      split
      · rename_i ht
        obtain ⟨t, he⟩ := h.loaded _ p hp
        obtain ⟨x, hx, hxop, rfl⟩ := he.kind
        refine ⟨kept,
          h.reuse hg hl (he.step h.toWalking hg hl (by rw [hop]; rfl) (by rw [hop]; exact nofun) nofun ?_ ?_)⟩
        · rw [← ht, Function.result_eq hx]
          rfl
        · intro mid y hb hy hkeep
          obtain rfl : x = y := Option.some.inj (hx.symm.trans hy)
          refine .reloaded hb hx hxop hop hkeep.1 (by rw [← ht, Function.result_eq hx]; rfl) fun j hj z hz ↦ ?_
          exact hkeep.2 z (List.mem_map.mpr ⟨j, hj, hz⟩)
      · exact hload hop
    · exact hload hop
  · rename_i hstore hcall _
    split
    · exact ⟨_, h.keep hl ⟨hstore, hcall⟩⟩
    · rename_i key hkey
      obtain ⟨hpure, halloca, -, hop, ht⟩ := valueKey?_inv hkey
      split
      · rename_i p hp
        have he := h.computed key p hp
        exact ⟨kept, h.reuse hg hl (he.step h.toWalking hg hl hpure halloca (hop ▸ halloca) ht
          fun mid x hb hx hc ↦ .reused hb hx hc hkey)⟩
      · have hk := h.keep hl ⟨hstore, hcall⟩
        refine ⟨_, hk.toWalking, fun key' p hp ↦ ?_, hk.loaded⟩
        rw [List.lookup_cons] at hp
        split at hp
        · rename_i heq
          rw [eq_of_beq heq, ← Option.some.inj hp]
          exact .self hl.found hop.symm ht.symm hkey
        · exact hk.computed key' p hp

theorem number_steps (hf : Sane m dom known f) : Steps dom known f (number f).f := by
  refine (foldl_blocks (fun b (c : Changing) ↦ Upto dom known f c.f b) (fun b B c hB hc ↦ ?_) { f }
    ⟨.refl, fun _ _ ↦ rfl⟩).steps
  refine (foldl_rest (fun todo (s : Available) ↦ ∃ kept, Numbering dom known f b todo s kept) ?_ B.instrs
    { c with computed := [], loaded := [] } ⟨[], hc.enter hB, by simp, by simp⟩).elim fun _ h ↦ h.toWalking.leave
  rintro k todo s ⟨kept, h⟩
  exact numberStep_numbering hf h

end numbering

section sequence

variable {m : Module} {dom : DomTree} {known : Escapes} {f g : Function} {k : Nat}

theorem plain_of_findEscapes (h : (findEscapes f).lookup k = some false) : Plain f k := by
  obtain ⟨l₁, l₂, hfound, -⟩ := List.lookup_eq_some_iff.mp h
  have hfound : (k, false) ∈ findEscapes f := by simp [hfound]
  obtain ⟨⟨j, i⟩, hmem, hji⟩ := List.mem_filterMap.mp hfound
  dsimp only at hji
  split at hji
  swap
  · cases hji
  rename_i hop
  simp only [Option.some.injEq, Prod.mk.injEq, escapes, Bool.or_eq_false_iff, Bool.not_eq_false',
    List.isEmpty_iff] at hji
  obtain ⟨rfl, ho, hany⟩ := hji
  obtain ⟨-, -, hi⟩ := f.mem_instructions.mp hmem
  refine ⟨fun hx ↦ ?_, fun {b k x} hx hxo ↦ ?_⟩
  · rw [Option.some.inj (hx.found.symm.trans hi)]
    exact ⟨hop, ho⟩
  · have := List.any_eq_false.mp hany _ (mem_users hx hxo)
    simpa using this

theorem knows_escape (h : Knows known f) :
    Knows (findEscapes f ++ known.filter fun (k, _) ↦ ((findEscapes f).lookup k).isNone) f := by
  intro s hs
  have hs : (findEscapes f ++ known.filter fun p ↦ ((findEscapes f).lookup p.1).isNone).lookup s = some false := hs
  rw [List.lookup_append] at hs
  cases hfound : (findEscapes f).lookup s with
  | some e =>
    rw [hfound] at hs
    exact plain_of_findEscapes (hfound.trans hs)
  | none =>
    rw [hfound, Option.none_or, lookup_filter fun n ↦ ((findEscapes f).lookup n).isNone] at hs
    exact h s (Option.ite_none_right_eq_some.mp hs).2

theorem Pass.run_steps (p : Pass) (hf : Sane m dom known f) :
    Steps dom known f (p.run f known).1.f ∧ Knows (p.run f known).2 (p.run f known).1.f := by
  have hknows : ∀ {g}, Steps dom known f g → Knows known g := fun h ↦ (Steps.sane h hf).1.knows
  cases p with
  | escape => exact ⟨.refl, knows_escape hf.knows⟩
  | promote =>
    have hfw := forward_steps hf
    have hdrop := dropSlots_steps (hfw.sane hf).1 (forward known f).changed
    have hall : Steps dom known f (Passes.promote known f).1.f := hfw.trans hdrop.steps
    exact ⟨hall, fun s hs ↦ hknows hall s (hdrop.less s hs)⟩
  | combine =>
    have h := combineRounds_steps (f.instructions.length + 1) { f } hf
    exact ⟨h, hknows h⟩
  | reassociate => exact ⟨reassociate_steps dom known f, hknows (reassociate_steps dom known f)⟩
  | number => exact ⟨number_steps hf, hknows (number_steps hf)⟩
  | unroll | vectorize => exact ⟨.refl, hf.knows⟩

theorem foldl_run_induction {P : Function → Prop}
    (hstep : ∀ {known f g}, Sane m dom known f → Steps dom known f g → P f → P g) (passes : List Pass) :
    ∀ s : Function × Escapes × List (Pass × Bool), Sane m dom s.2.1 s.1 → P s.1 → SameFlow f s.1 →
      let r := passes.foldl (fun (f, known, out) p ↦
        let (c, known) := p.run f known
        (c.f, known, out ++ [(p, c.changed)])) s
      P r.1 ∧ m.Valid dom r.1 ∧ SameFlow f r.1 := by
  induction passes with
  | nil => exact fun s hs hP hflow ↦ ⟨hP, hs.toValid, hflow⟩
  | cons p passes ih =>
    rintro ⟨g, known, out⟩ hs hP hflow
    obtain ⟨hrun, hknows⟩ := p.run_steps hs
    obtain ⟨hsane, hflow'⟩ := hrun.sane hs
    exact ih _ ⟨hsane.toValid, hsane.sound, hknows⟩ (hstep hs hrun hP) (hflow.trans hflow')

theorem runPasses_induction {P : Function → Prop} (passes : List Pass) (hf : Sane m dom [] f) (h0 : P f)
    (hstep : ∀ {known f g}, Sane m dom known f → Step dom known f g → P f → P g) :
    P (runPasses passes f).1 ∧ m.Valid dom (runPasses passes f).1 ∧ SameFlow f (runPasses passes f).1 := by
  have hsteps : ∀ {known f g}, Sane m dom known f → Steps dom known f g → P f → P g := by
    intro known f g hf hs hP
    induction hs with
    | refl => exact hP
    | tail hs hlast ih => exact hstep (Steps.sane hs hf).1 hlast ih
  unfold runPasses
  split
  · exact ⟨h0, hf.toValid, .refl f⟩
  · exact foldl_run_induction hsteps passes (f, [], []) hf h0 (.refl f)

theorem Sane.of_verify (hb : f.Built) (hm : m.function? f.id = some f) (hbody : f.isDeclaration = false)
    (hv : m.verify f = []) : Sane m (DomTree.of m f) [] f := by
  have hvalid := Module.Valid.of_verify hb.formed hm hbody hv
  exact ⟨hvalid, DomTree.of_sound (hvalid.confines hm hbody), nofun⟩

theorem valid_modify (hm : m.function? f.id = some f) (hflow : SameFlow f g) (hg : m.Valid (DomTree.of m f) g) :
    (m.modifyFunction f.id fun _ ↦ g).Valid (DomTree.of (m.modifyFunction f.id fun _ ↦ g) g) g := by
  rw [hflow.domTree hm]
  refine ⟨hg.toFormed, hg.ends, hg.targets, fun hl ↦ ?_, hg.takes, hg.sees⟩
  rw [checkInstr_modify hm hflow.toSameHeading, ← Edited.checkInstr_heading hflow.toSameHeading]
  exact hg.fits hl

/-- After any sequence of passes a function of which all blocks can be reached still verifies, and what an instruction
reads is still there and still defined before it. -/
theorem verify_runPasses (hb : f.Built) (hm : m.function? f.id = some f) (hv : m.verify f = [])
    (hr : ∀ b < f.blocks.size, m.Reaches (f.blockId 0) (f.blockId b)) (passes : List Pass) :
    let g := (runPasses passes f).1
    let m' := m.modifyFunction f.id fun _ ↦ g
    m'.verify g = [] ∧ ∀ {b k : Nat} {i : Instr} {id : InstrId} {t : Ty}, g.Lists b k i →
    some (.instr id t) ∈ i.operands →
      id.fn = g.id ∧ (∃ a x, g.Lists a id.index x) ∧ g.Sees (DomTree.of m' g) id.index b k := by
  intro g m'
  by_cases hbody : f.isDeclaration = true
  · have hg : g = f := by simp only [g, runPasses, hbody, if_true]
    have hblocks : g.blocks = #[] := by simpa [hg, Function.isDeclaration] using hbody
    refine ⟨by rw [Module.verify, hg, if_pos hbody], fun hl ↦ ?_⟩
    obtain ⟨B, hB, -⟩ := hl.listed
    simp [hblocks] at hB
  have hbody : f.isDeclaration = false := by simpa using hbody
  have hsane := Sane.of_verify hb hm hbody hv
  obtain ⟨-, hvalid, hflow⟩ := runPasses_induction passes hsane trivial fun _ _ _ ↦ trivial
  have hvalid' := valid_modify hm hflow hvalid
  have hlive : ∀ b < g.blocks.size, (DomTree.of m' g).reachable (g.blockId b) = true := by
    intro b hlt
    have hid : g.blockId b = f.blockId b := by rw [Function.blockId, hflow.id, Function.blockId]
    rw [hflow.domTree hm, hid, hsane.sound.reaches]
    exact hr b (hflow.blocks ▸ hlt)
  refine ⟨hvalid'.verify (hflow.found hm) (hflow.isDeclaration.trans hbody) hlive, fun {b k i id t} hl ho ↦ ?_⟩
  obtain ⟨B, hB, -⟩ := hl.listed
  have hsees := hvalid'.sees hl (hlive b (Array.getElem?_eq_some_iff.mp hB).1) ho
  refine ⟨(hvalid'.offers hl ho).1, ?_, hsees⟩
  cases hsees with
  | inside hB hsub => exact ⟨b, hvalid'.lists hB (hsub.subset List.mem_cons_self)⟩
  | above hl' => exact ⟨_, _, hl'⟩

/-- A function that puts its argument in a slot, and adds up what it loads from there twice. -/
def twice : Function :=
  let f : Function := { id := ⟨0⟩, name := "twice", signature := .func .i32 [.i32], params := [⟨"", .i32⟩] }
  let slot : Value := .instr ⟨⟨0⟩, 0⟩ (.pointer .i32)
  let f := ((f.addBlock "entry").1.addBlock "exit").1
  let f := (f.append 0 (.alloca .i32 "slot")).1
  let f := (f.append 0 (.store (some (.param ⟨0⟩ 0 .i32)) (some slot))).1
  let f := (f.append 0 (.load slot "a")).1
  let f := (f.append 0 (.load slot "b")).1
  let f := (f.append 0 (.binary .add (.instr ⟨⟨0⟩, 2⟩ .i32) (.instr ⟨⟨0⟩, 3⟩ .i32) "sum")).1
  let f := (f.append 0 (.br (some ⟨⟨0⟩, 1⟩))).1
  (f.append 1 (.ret (some (.instr ⟨⟨0⟩, 4⟩ .i32)))).1

theorem twice_built : twice.Built := by
  have hheading := (Function.Built.declared ⟨0⟩ "twice" .i32 [.i32]).block "entry" |>.block "exit"
  refine .instr (.instr (.instr (.instr (.instr (.instr (.instr hheading (by decide) (.alloca ..) ?_) (by decide)
    (.store ..) ?_) (by decide) (.load ..) ?_) (by decide) (.load ..) ?_) (by decide) (.binary rfl ..) ?_) (by decide)
    (.br ..) ?_) (by decide) (.ret ..) ?_ <;> intro v hv
  · cases hv
  · rcases List.mem_pair.mp hv with hv | hv <;> cases hv
    · exact fun _ ↦ rfl
    · exact ⟨rfl, _, rfl, rfl⟩
  · cases List.mem_singleton.mp hv
    exact ⟨rfl, _, rfl, rfl⟩
  · cases List.mem_singleton.mp hv
    exact ⟨rfl, _, rfl, rfl⟩
  · rcases List.mem_pair.mp hv with hv | hv <;> cases hv <;> exact ⟨rfl, _, rfl, rfl⟩
  · cases hv
  · cases List.mem_singleton.mp hv
    exact ⟨rfl, _, rfl, rfl⟩

theorem verify_runPasses_twice : let m : Module := { name := "m", functions := #[twice] }
    (m.modifyFunction ⟨0⟩ fun _ ↦ (runPasses Pass.all twice).1).verify (runPasses Pass.all twice).1 = [] ∧
      (runPasses Pass.all twice).1.instructions.length + 4 = twice.instructions.length := by
  intro m
  have hentry : m.Reaches (twice.blockId 0) (twice.blockId 0) := .refl
  refine ⟨(verify_runPasses twice_built rfl (List.isEmpty_iff.mp (by decide)) ?_ Pass.all).1, by decide +kernel⟩
  intro b hb
  obtain rfl | rfl : b = 0 ∨ b = 1 := by
    have : twice.blocks.size = 2 := by decide
    omega
  · exact hentry
  · exact hentry.step (by decide)

end sequence

end CilSsa.Passes

