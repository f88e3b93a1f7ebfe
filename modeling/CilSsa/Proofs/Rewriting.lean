import CilSsa.Proofs.Verification

namespace CilSsa.Ssa

open CilSsa.Passes (SameHeading)

/-- `g` is `f` with only the instructions that `keep` says, and these changed by `change`. -/
structure Edited (f g : Function) (keep : Nat → Bool) (change : Nat → Instr → Instr) : Prop where
  heading : SameHeading f g
  size : g.instrs.size = f.instrs.size
  blocks : ∀ c : Nat, g.blocks[c]? = (f.blocks[c]?).map fun B ↦ { B with instrs := B.instrs.filter keep }
  kept : ∀ {b j : Nat} {i : Instr}, f.Lists b j i → keep j = true → g.instr? j = some (change j i)
  same : ∀ {j : Nat} {i : Instr}, f.instr? j = some i → ∃ i', g.instr? j = some i' ∧ i'.type = i.type ∧ i'.op = i.op ∧
    i'.targets = i.targets ∧ i'.home = if keep j then i.home else none

/-- Two functions with the same flow of control. -/
structure SameFlow (f g : Function) : Prop extends SameHeading f g where
  size : g.instrs.size = f.instrs.size
  leaves : ∀ b : Nat, ((g.blocks[b]?).bind g.terminator?).map Instr.successors =
    ((f.blocks[b]?).bind f.terminator?).map Instr.successors

namespace SameFlow

variable {m : Module} {f g h : Function}

theorem refl (f : Function) : SameFlow f f := ⟨.refl f, rfl, fun _ ↦ rfl⟩

theorem trans (hg : SameFlow f g) (hh : SameFlow g h) : SameFlow f h :=
  ⟨hg.toSameHeading.trans hh.toSameHeading, hh.size.trans hg.size, fun b ↦ (hh.leaves b).trans (hg.leaves b)⟩

theorem found (hg : SameFlow f g) (hf : m.function? f.id = some f) :
    (m.modifyFunction f.id fun _ ↦ g).function? g.id = some g := by
  rw [function?_modify hf, hg.id, if_pos rfl]

theorem successors (hg : SameFlow f g) (hf : m.function? f.id = some f) (b : BlockId) :
    (m.modifyFunction f.id fun _ ↦ g).successors b = m.successors b := by
  by_cases hb : b.fn = f.id
  · obtain ⟨fn, b⟩ := b
    dsimp only at hb
    subst hb
    have hown := Module.successors_own (hg.found hf) b
    rw [Function.blockId, hg.id] at hown
    rw [hown, hg.leaves]
    exact (Module.successors_own hf b).symm
  · rw [Module.successors, function?_modify hf, if_neg hb, Module.successors]

theorem blockIds (hg : SameFlow f g) : g.blockIds = f.blockIds := by
  rw [Function.blockIds, Function.blockIds, hg.blocks]
  exact List.map_congr_left fun b _ ↦ by rw [Function.blockId, hg.id, Function.blockId]

theorem walkBound (hg : SameFlow f g) (hf : m.function? f.id = some f) :
    (m.modifyFunction f.id fun _ ↦ g).walkBound = m.walkBound := by
  have hlist : ∀ (w : Function → Nat) (l : List Function) (n : Nat), l[n]? = some f → w g = w f →
      (l.set n g).foldr (fun g k ↦ w g + k) 2 = l.foldr (fun g k ↦ w g + k) 2 := by
    intro w l
    induction l with
    | nil => intro n hn; cases hn
    | cons x l ih =>
      intro n hn hw
      cases n with
      | zero =>
        cases hn
        simp [hw]
      | succ n =>
        rw [List.set_cons_succ, List.foldr_cons, List.foldr_cons, ih n (by simpa using hn) hw]
  have hfunctions : (m.modifyFunction f.id fun _ ↦ g).functions.toList = m.functions.toList.set f.id.index g := by
    apply List.ext_getElem?
    intro n
    rw [Module.modifyFunction, Array.getElem?_toList, Array.getElem?_modify, List.getElem?_set, Array.getElem?_toList]
    split
    · rename_i hn
      subst hn
      obtain ⟨hlt, -⟩ := Array.getElem?_eq_some_iff.mp hf
      rw [Array.length_toList, if_pos hlt, Array.getElem?_eq_getElem hlt, Option.map_some]
    · rfl
  unfold Module.walkBound
  simp only [hg.successors hf, hfunctions]
  exact hlist (fun f ↦ f.blockIds.foldr (fun b k ↦ 1 + (m.successors b).length + k) 0) _ _
    (by rw [Array.getElem?_toList]; exact hf) (by rw [hg.blockIds])

theorem walk {m' : Module} (hs : ∀ b, m'.successors b = m.successors b) (fuel : Nat) (todo : List (Option BlockId))
    (acc : List BlockId × List BlockId) : m'.walk fuel todo acc = m.walk fuel todo acc := by
  induction fuel generalizing todo acc with
  | zero => cases todo <;> rfl
  | succ fuel ih =>
    cases todo with
    | nil => rfl
    | cons x todo =>
      cases x with
      | none => exact ih todo acc
      | some b =>
        obtain ⟨seen, done⟩ := acc
        rw [Module.walk, Module.walk, hs b, ih, ih]
        split
        · rfl
        · exact ih ..

theorem domTree (hg : SameFlow f g) (hf : m.function? f.id = some f) :
    DomTree.of (m.modifyFunction f.id fun _ ↦ g) g = DomTree.of m f := by
  have hs := hg.successors hf
  have hid : ∀ b, g.blockId b = f.blockId b := fun b ↦ by rw [Function.blockId, hg.id, Function.blockId]
  have horder : (m.modifyFunction f.id fun _ ↦ g).reversePostorder g = m.reversePostorder f := by
    rw [Module.reversePostorder, Module.reversePostorder, hg.isDeclaration, hg.walkBound hf, walk hs, hid]
  have hpreds : (m.modifyFunction f.id fun _ ↦ g).predecessors g = m.predecessors f := by
    funext b
    rw [Module.predecessors, Module.predecessors, hg.blockIds]
    simp only [hs]
  unfold DomTree.of
  rw [horder, hpreds]

end SameFlow

namespace Edited

variable {m : Module} {dom : DomTree} {f g : Function} {keep : Nat → Bool} {change : Nat → Instr → Instr}
  {b j k : Nat} {i : Instr} {v : Value}

theorem blockId (h : Edited f g keep change) (b : Nat) : g.blockId b = f.blockId b := by
  rw [Function.blockId, h.heading.id, Function.blockId]

theorem block (h : Edited f g keep change) {B : Block} (hB : f.blocks[b]? = some B) :
    g.blocks[b]? = some { B with instrs := B.instrs.filter keep } := by
  rw [h.blocks, hB, Option.map_some]

theorem block_inv (h : Edited f g keep change) {C : Block} (hC : g.blocks[b]? = some C) :
    ∃ B, f.blocks[b]? = some B ∧ C.instrs = B.instrs.filter keep := by
  rw [h.blocks] at hC
  obtain ⟨B, hB, rfl⟩ := Option.map_eq_some_iff.mp hC
  exact ⟨B, hB, rfl⟩

theorem lists (h : Edited f g keep change) (hl : f.Lists b j i) (hj : keep j = true) : g.Lists b j (change j i) := by
  obtain ⟨B, hB, hk⟩ := hl.listed
  exact ⟨⟨_, h.block hB, List.mem_filter.mpr ⟨hk, hj⟩⟩, h.kept hl hj⟩

theorem lists_inv (h : Edited f g keep change) (hf : f.Shaped) (hl : g.Lists b j i) :
    keep j = true ∧ ∃ x, f.Lists b j x ∧ i = change j x := by
  obtain ⟨C, hC, hk⟩ := hl.listed
  obtain ⟨B, hB, hlist⟩ := h.block_inv hC
  rw [hlist] at hk
  obtain ⟨hk, hj⟩ := List.mem_filter.mp hk
  obtain ⟨x, hx⟩ := hf.lists hB hk
  exact ⟨hj, x, hx, Option.some.inj (hl.found.symm.trans (h.kept hx hj))⟩

theorem offers (h : Edited f g keep change) (hv : f.Offers v) : g.Offers v := by
  cases v with
  | instr id t =>
    obtain ⟨hfn, x, hx, ht⟩ := hv
    obtain ⟨y, hy, hty, -⟩ := h.same hx
    exact ⟨hfn.trans h.heading.id.symm, y, hy, hty.trans ht⟩
  | param fn n t =>
    intro hfn
    rw [Function.paramTypes, h.heading.signature]
    exact hv (hfn.trans h.heading.id)
  | func => trivial
  | const => exact hv

theorem takes (h : Edited f g keep change) (hv : f.Takes v) : g.Takes v :=
  ⟨hv.typed, hv.value, fun fn n t heq ↦ (hv.own fn n t heq).trans h.heading.id.symm⟩

theorem sees (h : Edited f g keep change) (hs : f.Sees dom j b k) (hj : keep j = true) (hk : keep k = true) :
    g.Sees dom j b k := by
  cases hs with
  | inside hB hsub =>
    refine .inside (h.block hB) ?_
    have := hsub.filter keep
    simpa [hj, hk] using this
  | above hl hne hdom =>
    refine .above (h.lists hl hj) hne ?_
    rwa [h.blockId, h.blockId]

/-- The instructions that are kept do what the change asks of them. -/
structure Keeps (m : Module) (dom : DomTree) (f : Function) (keep : Nat → Bool) (change : Nat → Instr → Instr) :
    Prop where
  flow : ∀ {b j : Nat} {i : Instr}, f.Lists b j i → keep j = false → i.op.isTerminator = false
  home : ∀ {b j : Nat} {i : Instr}, f.Lists b j i → (change j i).home = i.home
  fits : ∀ {b j : Nat} {i : Instr}, f.Lists b j i → keep j = true → m.checkInstr f (change j i) = []
  typed : ∀ {b j : Nat} {i : Instr}, f.Lists b j i → keep j = true → (change j i).Typed
  reads : ∀ {b j : Nat} {i : Instr} {o : Option Value}, f.Lists b j i → keep j = true → o ∈ (change j i).operands →
    ∃ v, o = some v ∧ f.Takes v ∧ f.Offers v
  sees : ∀ {b j : Nat} {i : Instr} {id : InstrId} {t : Ty}, f.Lists b j i → keep j = true →
    dom.reachable (f.blockId b) = true → some (.instr id t) ∈ (change j i).operands →
      f.Sees dom id.index b j ∧ keep id.index = true

theorem formed (h : Edited f g keep change) (hv : m.Valid dom f) (hk : Keeps m dom f keep change) : g.Formed := by
  have hf := hv.toFormed
  refine ⟨?_, ?_, ?_, ?_, ?_⟩
  · intro b k C hC hmem
    obtain ⟨B, hB, hlist⟩ := h.block_inv hC
    rw [hlist] at hmem
    obtain ⟨hmem, hkeep⟩ := List.mem_filter.mp hmem
    obtain ⟨i, hl⟩ := hf.lists hB hmem
    exact ⟨change k i, h.kept hl hkeep, by rw [hk.home hl, hf.home_eq hl, h.blockId]⟩
  · intro b C hC
    obtain ⟨B, hB, hlist⟩ := h.block_inv hC
    rw [hlist]
    exact (hf.once hB).filter _
  · intro k i hm hi hhome
    have hlt : k < f.instrs.size := h.size ▸ (Array.getElem?_eq_some_iff.mp hi).1
    obtain ⟨x, hx⟩ : ∃ x, f.instr? k = some x := ⟨_, Array.getElem?_eq_getElem hlt⟩
    obtain ⟨y, hy, -, -, -, hyhome⟩ := h.same hx
    obtain rfl : i = y := Option.some.inj (hi.symm.trans hy)
    rw [hyhome] at hhome
    split at hhome
    · rename_i hkeep
      obtain ⟨b, B, rfl, hB, hmem⟩ := hf.home hx hhome
      exact ⟨b, _, (h.blockId b).symm, h.block hB, List.mem_filter.mpr ⟨hmem, hkeep⟩⟩
    · cases hhome
  · intro b k i v hl hv
    obtain ⟨hkeep, x, hx, rfl⟩ := h.lists_inv hf.tidy.toShaped hl
    obtain ⟨v', heq, -, hoff⟩ := hk.reads hx hkeep hv
    exact h.offers (Option.some.inj heq ▸ hoff)
  · intro b k i hl
    obtain ⟨hkeep, x, hx, rfl⟩ := h.lists_inv hf.tidy.toShaped hl
    exact hk.typed hx hkeep

theorem ends (h : Edited f g keep change) (hv : m.Valid dom f) (hk : Keeps m dom f keep change) {B : Block}
    (hB : f.blocks[b]? = some B) {ks : List Nat} {t : Nat} (he : f.Ends B ks t) :
    keep t = true ∧ g.Ends { B with instrs := B.instrs.filter keep } (ks.filter keep) t := by
  have hmem : t ∈ B.instrs := by simp [he.instrs]
  obtain ⟨i, hl⟩ := hv.lists hB hmem
  have hkeep : keep t = true := by
    by_contra hne
    have := hk.flow hl (by simpa using hne)
    rw [he.last i hl.found] at this
    cases this
  have hop : ∀ {k : Nat} {i : Instr}, g.instr? k = some i → ∃ x, f.instr? k = some x ∧ i.op = x.op := by
    intro k i hi
    have hlt : k < f.instrs.size := h.size ▸ (Array.getElem?_eq_some_iff.mp hi).1
    obtain ⟨x, hx⟩ : ∃ x, f.instr? k = some x := ⟨_, Array.getElem?_eq_getElem hlt⟩
    obtain ⟨y, hy, -, hyop, -⟩ := h.same hx
    obtain rfl : i = y := Option.some.inj (hi.symm.trans hy)
    exact ⟨x, hx, hyop⟩
  refine ⟨hkeep, ?_, ?_, ?_⟩
  · simp [he.instrs, hkeep]
  · intro i hi
    obtain ⟨x, hx, heq⟩ := hop hi
    rw [heq]
    exact he.last x hx
  · intro k hk i hi
    obtain ⟨x, hx, heq⟩ := hop hi
    rw [heq]
    exact he.others k (List.mem_filter.mp hk).1 x hx

theorem sameFlow (h : Edited f g keep change) (hv : m.Valid dom f) (hk : Keeps m dom f keep change) : SameFlow f g := by
  refine ⟨h.heading, h.size, fun b ↦ ?_⟩
  cases hB : f.blocks[b]? with
  | none =>
    rw [h.blocks, hB, Option.map_none]
    rfl
  | some B =>
    obtain ⟨ks, t, he⟩ := hv.ends hB
    obtain ⟨hkeep, he'⟩ := h.ends hv hk hB he
    have hmem : t ∈ B.instrs := by simp [he.instrs]
    obtain ⟨i, hl⟩ := hv.lists hB hmem
    obtain ⟨y, hy, -, hop, htargets, -⟩ := h.same hl.found
    rw [h.block hB, Option.bind_some, Option.bind_some, Module.terminator?_eq he' hy, Module.terminator?_eq he hl.found]
    simp only [Option.map_some, Instr.successors, hop, htargets]

theorem checkInstr_heading (h : SameHeading f g) (i : Instr) : m.checkInstr g i = m.checkInstr f i := by
  have hret : g.ret = f.ret := by rw [Function.ret, h.signature, Function.ret]
  unfold Module.checkInstr Module.checkReturn
  rw [hret]

theorem valid (h : Edited f g keep change) (hv : m.Valid dom f) (hk : Keeps m dom f keep change) : m.Valid dom g := by
  have hf := hv.toFormed
  refine ⟨h.formed hv hk, ?_, ?_, ?_, ?_, ?_⟩
  · intro b C hC
    rw [h.blocks] at hC
    obtain ⟨B, hB, rfl⟩ := Option.map_eq_some_iff.mp hC
    obtain ⟨ks, t, he⟩ := hv.ends hB
    exact ⟨_, t, (h.ends hv hk hB he).2⟩
  · intro b k i hl
    obtain ⟨hkeep, x, hx, rfl⟩ := h.lists_inv hf.tidy.toShaped hl
    obtain ⟨y, hy, -, -, ht, -⟩ := h.same hx.found
    obtain rfl : change k x = y := Option.some.inj (hl.found.symm.trans hy)
    rw [ht, h.heading.id]
    exact hv.targets hx
  · intro b k i hl
    obtain ⟨hkeep, x, hx, rfl⟩ := h.lists_inv hf.tidy.toShaped hl
    rw [checkInstr_heading h.heading]
    exact hk.fits hx hkeep
  · intro b k i o hl ho
    obtain ⟨hkeep, x, hx, rfl⟩ := h.lists_inv hf.tidy.toShaped hl
    obtain ⟨v, heq, ht, -⟩ := hk.reads hx hkeep ho
    exact ⟨v, heq, h.takes ht⟩
  · intro b k i id t hl hr ho
    obtain ⟨hkeep, x, hx, rfl⟩ := h.lists_inv hf.tidy.toShaped hl
    rw [h.blockId] at hr
    obtain ⟨hs, hid⟩ := hk.sees hx hkeep hr ho
    exact h.sees hs hid hkeep

end Edited

theorem Module.Valid.sees_trans {m : Module} {dom : DomTree} {f : Function} {a b i j k : Nat} {x : Instr}
    (hv : m.Valid dom f) (hd : DomTree.Sound m f dom) (hr : dom.reachable (f.blockId b) = true)
    (hl : f.Lists a k x) (h : f.Sees dom i a k) (h' : f.Sees dom k b j) : f.Sees dom i b j := by
  have hinj : ∀ {c d : Nat}, f.blockId c = f.blockId d → c = d := by
    intro c d h
    simpa [Function.blockId] using h
  cases h' with
  | @inside B hB hsub =>
    obtain ⟨y, hl'⟩ := hv.lists hB (hsub.subset List.mem_cons_self)
    obtain rfl := hv.unique hl hl'
    cases h with
    | @inside A hA hsub' =>
      obtain rfl : A = B := Option.some.inj (hA.symm.trans hB)
      exact .inside hB (pair_sublist_trans (hv.once hB) hsub' hsub)
    | above hl'' hne hdom => exact .above hl'' hne hdom
  | above hl' hne hdom =>
    obtain rfl := hv.unique hl hl'
    cases h with
    | inside hA hsub =>
      obtain ⟨y, hl''⟩ := hv.lists hA (hsub.subset List.mem_cons_self)
      exact .above hl'' hne hdom
    | above hl'' hne' hdom' =>
      refine .above hl'' ?_ (hd.trans hdom' hdom)
      rintro rfl
      exact hne (hinj (hd.antisymm hr hdom hdom'))

end CilSsa.Ssa
