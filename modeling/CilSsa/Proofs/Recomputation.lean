import CilSsa.Proofs.PassRuns
import CilSsa.Proofs.EngineGrowth

/-! Numbering is a sequence of merges: an instruction is taken out where an earlier one of its block computes the
same, and what read the one then reads the other. -/

namespace CilSsa.Ssa

namespace Function

variable {m : Module} {f : Function} {b c j k p : Nat} {B : Block} {i x : Instr}

/-- What verification finds of a function, also where control never gets: what an instruction reads of its own block is
defined before it there, terminators come last, and branches stay in the function. Nothing that is loaded is a struct.
-/
structure Orderly (f : Function) : Prop extends f.Tidy where
  order : ∀ {b j k : Nat} {B : Block} {i : Instr} {t : Ty}, f.blocks[b]? = some B → f.Lists b k i →
    some (.instr ⟨f.id, j⟩ t) ∈ i.operands → j ∈ B.instrs → [j, k].Sublist B.instrs
  last : ∀ {b k : Nat} {B : Block} {i : Instr}, f.blocks[b]? = some B → f.Lists b k i → i.op.isTerminator = true →
    ∃ ks, B.instrs = ks ++ [k]
  targets : ∀ {b k : Nat} {i : Instr}, f.Lists b k i → ∀ t ∈ i.targets, t.map (·.fn) = some f.id
  loads : ∀ {b k : Nat} {i : Instr}, f.Lists b k i → i.op = .load → i.operands.length = 1 ∧ i.type.isStruct = false

theorem Lists.placed (hl : f.Lists b k i) :
    ∃ (B : Block) (pos : Nat), f.blocks[b]? = some B ∧ B.instrs[pos]? = some k := by
  obtain ⟨B, hB, hk⟩ := hl.listed
  obtain ⟨pos, hpos⟩ := List.mem_iff_getElem?.mp hk
  exact ⟨B, pos, hB, hpos⟩

theorem checkOperand_typed {dom : DomTree} {home : BlockId} {pos : Nat} {o : Option Value}
    (h : m.checkOperand f dom home pos o = []) : ∃ v : Value, o = some v ∧ v.type ≠ .untyped := by
  cases o with
  | none => cases h
  | some v =>
    refine ⟨v, rfl, ?_⟩
    unfold Module.checkOperand at h
    cases v with
    | instr id t =>
      rintro (rfl : t = .untyped)
      dsimp only at h
      split at h
      · cases h
      · split at h
        · cases h
        · cases h
    | param | func | const =>
      simp only [List.append_eq_nil_iff, Module.when_eq_nil, beq_eq_false_iff_ne] at h
      first | exact h.2 | exact h

theorem Orderly.of_verify (h : f.Shaped) (hf : m.function? f.id = some f) (hv : m.verify f = [])
    (hload : ∀ {b k : Nat} {i : Instr}, f.Lists b k i → i.op = .load → i.type.isStruct = false) : f.Orderly := by
  by_cases hbody : f.isDeclaration = true
  · have hblocks : ∀ {b : Nat} {B : Block}, f.blocks[b]? ≠ some B := by
      intro b B hB
      rw [Function.isDeclaration, Array.isEmpty_iff] at hbody
      simp [hbody] at hB
    have hlists : ∀ {b k : Nat} {i : Instr}, ¬ f.Lists b k i := fun hl ↦ hblocks hl.listed.choose_spec.1
    exact ⟨⟨h, fun hl ↦ absurd hl hlists⟩, fun hB ↦ absurd hB hblocks, fun hB ↦ absurd hB hblocks,
      fun hl ↦ absurd hl hlists, fun hl ↦ absurd hl hlists⟩
  have hall := (Module.verify_eq_nil_iff h (by simpa using hbody)).mp hv
  have hplaced : ∀ {b pos k : Nat} {B : Block} {i : Instr}, f.blocks[b]? = some B → B.instrs[pos]? = some k →
      f.instr? k = some i → Module.Placed m f (DomTree.of m f) (f.blockId b) (pos + 1 == B.instrs.length) pos i :=
    fun {b pos k B i} hB hpos hi ↦ Module.checkPlaced_eq_nil.mp ((hall b B hB).2 pos k i hpos hi)
  have hhome : ∀ {b k : Nat} {i : Instr}, f.Lists b k i → i.home = some (f.blockId b) := by
    intro b k i hl
    obtain ⟨B, pos, hB, hpos⟩ := hl.placed
    exact (hplaced hB hpos hl.found).home
  refine ⟨⟨h, fun hl hl' ↦ ?_⟩, ?_, ?_, fun hl ↦ ?_, fun hl hop ↦ ⟨?_, hload hl hop⟩⟩
  · simpa [blockId] using (hhome hl).symm.trans (hhome hl')
  · intro b j k B i t hB hl ho hj
    obtain ⟨B', pos, hB', hpos⟩ := hl.placed
    obtain rfl : B = B' := Option.some.inj (hB.symm.trans hB')
    obtain ⟨x, hx⟩ := h.lists hB hj
    have hcheck := (hplaced hB hpos hl.found).operands _ ho
    have hinstr : m.instr? ⟨f.id, j⟩ = some x := (Module.instr?_own hf j).trans hx.found
    simp only [Module.checkOperand, hinstr, Option.bind_some, hhome hx] at hcheck
    rw [if_neg (by simp [blockId])] at hcheck
    split at hcheck
    · cases hcheck
    rw [if_pos True.intro, Module.block?_own hf, hB, Option.bind_some, List.append_eq_nil_iff, Module.when_eq_nil,
      Bool.not_eq_false'] at hcheck
    have hidx : B.instrs.idxOf? j = some (B.instrs.idxOf j) := by
      rw [idxOf?_eq_some_iff (h.once hB), List.getElem?_eq_getElem (List.idxOf_lt_length_of_mem hj), List.getElem_idxOf]
    have hlt := hcheck.1
    rw [hidx] at hlt
    obtain ⟨hpos', rfl⟩ := List.getElem?_eq_some_iff.mp hpos
    refine (pair_sublist_iff (h.once hB)).mpr ⟨List.getElem_mem hpos', ?_⟩
    rw [(h.once hB).idxOf_getElem pos hpos']
    simpa using hlt
  · intro b k B i hB hl hterm
    obtain ⟨B', pos, hB', hpos⟩ := hl.placed
    obtain rfl : B = B' := Option.some.inj (hB.symm.trans hB')
    have hends := (hplaced hB hpos hl.found).ends
    rw [hterm, eq_comm, beq_iff_eq] at hends
    have hlast : B.instrs.getLast? = some k := by rw [List.getLast?_eq_getElem?, ← hends, Nat.add_sub_cancel, hpos]
    exact List.getLast?_eq_some_iff.mp hlast
  · obtain ⟨B, pos, hB, hpos⟩ := hl.placed
    exact (hplaced hB hpos hl.found).targets
  · obtain ⟨B, pos, hB, hpos⟩ := hl.placed
    have hp := hplaced hB hpos hl.found
    have hfits := hp.fits
    rw [Module.checkInstr, hop] at hfits
    obtain ⟨vs, hvs, hlen, -⟩ := operands_of_check hfits fun o ho ↦ checkOperand_typed (hp.operands o ho)
    rw [hvs, List.length_map, hlen]

end Function

end CilSsa.Ssa

namespace CilSsa.Passes

open CilSsa.Ssa

/-- Instruction `i`, behind `mid`, computes what `x` before `mid` did: both compute the same from the same operands, or
load the same and nothing between them writes to memory. -/
inductive Repeats (f : Function) (mid : List Nat) (x i : Instr) : Prop
  | computed {key : ValueKey} : valueKey? x = some key → valueKey? i = some key → Repeats f mid x i
  | loaded : x.op = .load → i.op = .load → x.operands = i.operands → x.type = i.type →
      (∀ j ∈ mid, ∀ y, f.instr? j = some y → y.op ≠ .store ∧ y.op ≠ .call) → Repeats f mid x i

/-- Instruction `k` of block `b` is taken out, and what reads it then reads `p`, which stands before it. -/
structure Merges (f : Function) (b p k : Nat) (mid : List Nat) (x i : Instr) : Prop where
  between : Between f b p k mid
  earlier : f.instr? p = some x
  later : f.instr? k = some i
  same : Repeats f mid x i

abbrev Merged : Function → Function → Prop :=
  Relation.ReflTransGen fun f g ↦ ∃ b p k mid x i, Merges f b p k mid x i ∧ g = f.replaced b k (f.result p)

section

variable {f f₀ g : Function} {b c j k p : Nat} {B : Block} {i x : Instr} {mid kept todo : List Nat}

theorem Repeats.type (h : Repeats f mid x i) : x.type = i.type := by
  cases h with
  | computed hx hi => rw [← (valueKey?_inv hx).2.2.2.2, (valueKey?_inv hi).2.2.2.2]
  | loaded _ _ _ ht => exact ht

theorem Repeats.pure (h : Repeats f mid x i) : i.op.isPure = true := by
  cases h with
  | computed _ hi => exact (valueKey?_inv hi).1
  | loaded _ hi => rw [hi]; rfl

namespace Merges

theorem lists (h : Merges f b p k mid x i) : f.Lists b p x ∧ f.Lists b k i := by
  obtain ⟨B, pre, post, hB, hlist⟩ := h.between
  exact ⟨⟨⟨B, hB, by simp [hlist]⟩, h.earlier⟩, ⟨⟨B, hB, by simp [hlist]⟩, h.later⟩⟩

theorem ne (h : Merges f b p k mid x i) (hf : f.Tidy) : p ≠ k := by
  obtain ⟨B, pre, post, hB, hlist⟩ := h.between
  rintro rfl
  have hnodup := hf.once hB
  rw [hlist] at hnodup
  simpa using (List.nodup_cons.mp (List.nodup_append.mp hnodup).2.1).1

end Merges

theorem result_replaced (hf : f.Tidy) (hl : f.Lists b k i) (v : Value) (j : Nat) :
    (f.replaced b k v).result j = f.result j :=
  result_heading (Function.edited_replaced hf hl v) j

theorem Merges.orderly (h : Merges f b p k mid x i) (hf : f.Orderly) : (f.replaced b k (f.result p)).Orderly := by
  obtain ⟨hp, hk⟩ := h.lists
  have he := Function.edited_replaced hf.toTidy hk (f.result p)
  have hid : (f.replaced b k (f.result p)).id = f.id := he.heading.id
  have hresult := result_replaced hf.toTidy hk (f.result p)
  have hlists : ∀ {c j : Nat} {y : Instr}, (f.replaced b k (f.result p)).Lists c j y →
      j ≠ k ∧ ∃ z, f.Lists c j z ∧ y = z.rewire (f.result k) (f.result p) := by
    intro c j y hy
    obtain ⟨hkeep, z, hz, heq⟩ := he.lists_inv hf.toShaped hy
    exact ⟨by simpa using hkeep, z, hz, heq⟩
  refine ⟨⟨⟨?_, ?_, ?_⟩, ?_⟩, ?_, ?_, ?_, ?_⟩
  · intro c j C hC hj
    obtain ⟨B, hB, hlist⟩ := he.block_inv hC
    rw [hlist] at hj
    obtain ⟨hj, hkeep⟩ := List.mem_filter.mp hj
    obtain ⟨y, hy⟩ := hf.lists hB hj
    exact ⟨_, he.kept hy hkeep⟩
  · intro c C hC
    obtain ⟨B, hB, hlist⟩ := he.block_inv hC
    rw [hlist]
    exact (hf.once hB).filter _
  · intro c j l y t hy ho
    obtain ⟨-, z, hz, rfl⟩ := hlists hy
    rw [hresult]
    rw [hid] at ho ⊢
    rcases Instr.mem_rewire ho with ⟨ho, -⟩ | ⟨-, heq⟩
    · exact hf.refers hz ho
    · rw [Option.some.injEq, Function.result_eq h.earlier] at heq
      simp only [Value.instr.injEq, InstrId.mk.injEq, true_and] at heq
      obtain ⟨rfl, rfl⟩ := heq
      exact (Function.result_eq h.earlier).symm
  · intro c d j y hy hy'
    obtain ⟨-, z, hz, -⟩ := hlists hy
    obtain ⟨-, z', hz', -⟩ := hlists hy'
    obtain rfl : z = z' := Option.some.inj (hz.found.symm.trans hz'.found)
    exact hf.apart hz hz'
  · intro c l j C y t hC hy ho hlC
    obtain ⟨B, hB, hlist⟩ := he.block_inv hC
    obtain ⟨hjk, z, hz, rfl⟩ := hlists hy
    rw [hlist] at hlC ⊢
    obtain ⟨hlB, hlk⟩ := List.mem_filter.mp hlC
    rw [hid] at ho
    have hsub : [l, j].Sublist B.instrs := by
      rcases Instr.mem_rewire ho with ⟨ho, -⟩ | ⟨hread, heq⟩
      · exact hf.order hB hz ho hlB
      · rw [Option.some.injEq, Function.result_eq h.earlier] at heq
        simp only [Value.instr.injEq, InstrId.mk.injEq, true_and] at heq
        obtain ⟨rfl, rfl⟩ := heq
        obtain rfl : b = c := hf.apart hp ⟨⟨B, hB, hlB⟩, h.earlier⟩
        obtain ⟨B', pre, post, hB', hlist'⟩ := h.between
        obtain rfl : B = B' := Option.some.inj (hB.symm.trans hB')
        rw [Function.result_eq h.later] at hread
        have hkj := hf.order hB hz hread (by simp [hlist'])
        refine pair_sublist_trans (hf.once hB) (b := k) ?_ hkj
        rw [hlist']
        exact (List.cons_sublist_cons.mpr (List.singleton_sublist.mpr (by simp))).trans (List.sublist_append_right ..)
    have := hsub.filter (· != k)
    simpa [hjk, (by simpa using hlk : l ≠ k)] using this
  · intro c j C y hC hy hterm
    obtain ⟨B, hB, hlist⟩ := he.block_inv hC
    obtain ⟨hjk, z, hz, rfl⟩ := hlists hy
    obtain ⟨ks, hks⟩ := hf.last hB hz hterm
    exact ⟨ks.filter (· != k), by simp [hlist, hks, hjk]⟩
  · intro c j y hy
    obtain ⟨-, z, hz, rfl⟩ := hlists hy
    rw [hid]
    exact (hf.targets hz :)
  · intro c j y hy hop
    obtain ⟨-, z, hz, rfl⟩ := hlists hy
    obtain ⟨hlen, ht⟩ := hf.loads hz hop
    exact ⟨by simpa [Instr.rewire] using hlen, ht⟩

/-- What stands before an instruction in its block does not read it, and so stays as it is when it is replaced. -/
theorem instr?_replaced_before (hf : f.Orderly) (hB : f.blocks[b]? = some B) (hlist : B.instrs = kept ++ k :: todo)
    (hj : j ∈ kept) (v : Value) : (f.replaced b k v).instr? j = f.instr? j := by
  obtain ⟨i, hl⟩ := hf.lists hB (k := k) (by simp [hlist])
  obtain ⟨y, hy⟩ := hf.lists hB (k := j) (by simp [hlist, hj])
  have hnodup := hf.once hB
  have hjk : j ≠ k := by
    rintro rfl
    rw [hlist] at hnodup
    exact (List.nodup_append.mp hnodup).2.2 j hj j List.mem_cons_self rfl
  rw [(Function.edited_replaced hf.toTidy hl v).kept hy (by simpa using hjk), hy.found, Instr.rewire_of_not_mem]
  intro hread
  rw [Function.result_eq hl.found] at hread
  have hkj := (pair_sublist_iff hnodup).mp (hf.order hB hy hread (by simp [hlist]))
  have hjk' : [j, k].Sublist B.instrs := by
    rw [hlist]
    exact (List.singleton_sublist.mpr hj).append (List.singleton_sublist.mpr List.mem_cons_self)
  have := (pair_sublist_iff hnodup).mp hjk'
  omega

theorem Merged.orderly (h : Merged f g) (hf : f.Orderly) : g.Orderly := by
  induction h with
  | refl => exact hf
  | tail _ hstep ih =>
    obtain ⟨b, p, k, mid, x, i, hm, rfl⟩ := hstep
    exact hm.orderly ih

/-- Numbering is at `todo` of block `b`, of which it keeps `kept`. -/
structure Passing (f g : Function) (b : Nat) (kept todo : List Nat) : Prop where
  merged : Merged f g
  here : (g.blocks[b]?).map (·.instrs) = some (kept ++ todo)
  later : ∀ c : Nat, b < c → g.blocks[c]? = f.blocks[c]?

/-- Among `kept` is `p`, an instruction with `P` of it and of those that follow. -/
def Among (g : Function) (kept : List Nat) (p : Nat) (P : Instr → List (Option Instr) → Prop) : Prop :=
  ∃ pre mid x, kept = pre ++ p :: mid ∧ g.instr? p = some x ∧ P x (mid.map g.instr?)

theorem Among.self {P : Instr → List (Option Instr) → Prop} (hi : g.instr? k = some i) (hP : P i []) :
    Among g (kept ++ [k]) k P :=
  ⟨kept, [], i, rfl, hi, hP⟩

theorem Among.keep {P : Instr → List (Option Instr) → Prop} (h : Among g kept p P) (hi : g.instr? k = some i)
    (hP : ∀ x l, P x l → P x (l ++ [some i])) : Among g (kept ++ [k]) p P := by
  obtain ⟨pre, mid, x, rfl, hx, hx'⟩ := h
  refine ⟨pre, mid ++ [k], x, by simp, hx, ?_⟩
  rw [List.map_append, List.map_singleton, hi]
  exact hP _ _ hx'

theorem Among.replaced {P : Instr → List (Option Instr) → Prop} (h : Among g kept p P) (hg : g.Orderly)
    (hB : g.blocks[b]? = some B) (hlist : B.instrs = kept ++ k :: todo) (v : Value) :
    Among (g.replaced b k v) kept p P := by
  obtain ⟨pre, mid, x, hkept, hx, hP⟩ := h
  refine ⟨pre, mid, x, hkept, ?_, ?_⟩
  · rw [instr?_replaced_before hg hB hlist (by simp [hkept]), hx]
  · rwa [List.map_congr_left fun j hj ↦ instr?_replaced_before hg hB hlist (by simp [hkept, hj]) v]

/-- What numbering knows there of what it has kept. -/
structure Knowing (f : Function) (b : Nat) (s : Available) (kept todo : List Nat) : Prop
    extends Passing f s.f b kept todo where
  computed : ∀ key p, s.computed.lookup key = some p → Among s.f kept p (Computes key)
  loaded : ∀ o p, s.loaded.lookup o = some p → Among s.f kept p fun x mid ↦ x.op = .load ∧ Keeping o x mid

theorem Knowing.reuse {s : Available} (h : Knowing f b s kept (k :: todo)) (hf : f.Orderly) (hi : s.f.instr? k = some i)
    (hp : Among s.f kept p fun x mid ↦ ∀ l, mid = l.map s.f.instr? → Repeats s.f l x i) :
    Knowing f b (s.reuse b k p) kept todo := by
  have hg := h.merged.orderly hf
  obtain ⟨B, hB, hlist⟩ := Option.map_eq_some_iff.mp h.here
  obtain ⟨pre, mid, x, hkept, hx, hsame⟩ := hp
  have hmerge : Merges s.f b p k mid x i :=
    ⟨⟨B, pre, todo, hB, by rw [hlist, hkept, List.append_assoc]; rfl⟩, hx, hi, hsame mid rfl⟩
  have he := Function.edited_replaced hg.toTidy hmerge.lists.2 (s.f.result p)
  have hnodup := hg.once hB
  rw [hlist] at hnodup
  refine ⟨⟨h.merged.tail ⟨b, p, k, mid, x, i, hmerge, rfl⟩, ?_, fun c hc ↦ ?_⟩, fun key q hq ↦ ?_, fun o q hq ↦ ?_⟩
  · change ((s.f.replaced b k (s.f.result p)).blocks[b]?).map (·.instrs) = _
    have hout : (kept ++ k :: todo).erase k = kept ++ todo := by
      rw [List.erase_append_right, List.erase_cons_head]
      exact fun hmem ↦ (List.nodup_append.mp hnodup).2.2 k hmem k List.mem_cons_self rfl
    rw [he.block hB, Option.map_some, hlist, ← hnodup.erase_eq_filter, hout]
  · change (s.f.replaced b k (s.f.result p)).blocks[c]? = _
    rw [he.blocks c, h.later c hc]
    cases hC : f.blocks[c]? with
    | none => rfl
    | some C =>
      have hnot : k ∉ C.instrs := by
        intro hmem
        have := hg.apart hmerge.lists.2 ⟨⟨C, (h.later c hc).trans hC, hmem⟩, hi⟩
        omega
      rw [Option.map_some, List.filter_eq_self.mpr]
      intro j hj
      rw [bne_iff_ne]
      rintro rfl
      exact hnot hj
  · exact (h.computed key q hq).replaced hg hB hlist _
  · exact (h.loaded o q hq).replaced hg hB hlist _

theorem Knowing.keep {s : Available} (h : Knowing f b s kept (k :: todo)) (hi : s.f.instr? k = some i) :
    Knowing f b { s with loaded := [] } (kept ++ [k]) todo ∧
      (i.op ≠ .store ∧ i.op ≠ .call → Knowing f b s (kept ++ [k]) todo) := by
  have hpass : Passing f s.f b (kept ++ [k]) todo := ⟨h.merged, by rw [h.here, List.append_assoc]; rfl, h.later⟩
  have hcomputed : ∀ key p, s.computed.lookup key = some p → Among s.f (kept ++ [k]) p (Computes key) :=
    fun key p hp ↦ (h.computed key p hp).keep hi fun _ _ hx ↦ hx
  refine ⟨⟨hpass, hcomputed, nofun⟩, fun hop ↦ ⟨hpass, hcomputed, fun o p hp ↦ ?_⟩⟩
  refine (h.loaded o p hp).keep hi fun x l hx ↦ ⟨hx.1, hx.2.1, fun y hy ↦ ?_⟩
  rcases List.mem_append.mp hy with hy | hy
  · exact hx.2.2 y hy
  · rw [Option.some.inj (List.mem_singleton.mp hy)]
    exact hop

theorem numberStep_knowing (hf : f.Orderly) {s : Available} (h : Knowing f b s kept (k :: todo)) :
    ∃ kept, Knowing f b (numberStep b s k) kept todo := by
  have hg := h.merged.orderly hf
  obtain ⟨B, hB, hlist⟩ := Option.map_eq_some_iff.mp h.here
  obtain ⟨i, hl⟩ := hg.lists hB (k := k) (by simp [hlist])
  obtain ⟨hforget, hkeep⟩ := h.keep hl.found
  have hload : i.op = .load →
      Knowing f b { s with loaded := (i.operands.headD none, k) :: s.loaded } (kept ++ [k]) todo := by
    intro hop
    have hk := hkeep (by rw [hop]; exact ⟨nofun, nofun⟩)
    refine ⟨hk.toPassing, hk.computed, fun o p hp ↦ ?_⟩
    rw [List.lookup_cons] at hp
    split at hp
    · rename_i heq
      rw [eq_of_beq heq, ← Option.some.inj hp]
      exact .self hl.found ⟨hop, rfl, fun _ hy ↦ absurd hy List.not_mem_nil⟩
    · exact hk.loaded o p hp
  unfold numberStep
  rw [hl.found]
  dsimp only
  split
  · exact ⟨_, hforget⟩
  · exact ⟨_, hforget⟩
  · rename_i hop
    split
    swap
    · exact ⟨_, hload hop⟩
    rename_i p hp
    split
    swap
    · exact ⟨_, hload hop⟩
    rename_i ht
    obtain ⟨pre, mid, x, hkept, hx, hxop, ho, hquiet⟩ := h.loaded _ p hp
    refine ⟨kept, h.reuse hf hl.found ⟨pre, mid, x, hkept, hx, fun l hmid ↦ ?_⟩⟩
    have hsingle : ∀ {y : Instr} {c j : Nat}, s.f.Lists c j y → y.op = .load →
        y.operands = [y.operands.headD none] := by
      intro y c j hy hyop
      obtain ⟨o, ho⟩ := List.length_eq_one_iff.mp (hg.loads hy hyop).1
      rw [ho]
      rfl
    refine .loaded hxop hop ?_ ?_ fun j hj y hy ↦ hquiet y ?_
    · rw [hsingle (c := b) ⟨⟨B, hB, by simp [hlist, hkept]⟩, hx⟩ hxop, ho, ← hsingle hl hop]
    · rw [← ht, Function.result_eq hx]
      rfl
    · rw [hmid]
      exact List.mem_map.mpr ⟨j, hj, hy⟩
  · rename_i hstore hcall _
    split
    · exact ⟨_, hkeep ⟨hstore, hcall⟩⟩
    rename_i key hkey
    split
    · rename_i p hp
      obtain ⟨pre, mid, x, hkept, hx, hc⟩ := h.computed _ p hp
      exact ⟨kept, h.reuse hf hl.found ⟨pre, mid, x, hkept, hx, fun l _ ↦ .computed hc hkey⟩⟩
    · have hk := hkeep ⟨hstore, hcall⟩
      refine ⟨_, hk.toPassing, fun key' p hp ↦ ?_, hk.loaded⟩
      rw [List.lookup_cons] at hp
      split at hp
      · rename_i heq
        rw [eq_of_beq heq, ← Option.some.inj hp]
        exact .self hl.found hkey
      · exact hk.computed key' p hp

theorem number_merged (hf : f.Orderly) : Merged f (number f).f := by
  refine (foldl_blocks (fun b (c : Changing) ↦ Merged f c.f ∧ ∀ c' : Nat, b ≤ c' → c.f.blocks[c']? = f.blocks[c']?)
    (fun b B c hB hc ↦ ?_) { f } ⟨.refl, fun _ _ ↦ rfl⟩).1
  have hstart : Knowing f b { c with computed := [], loaded := [] } [] B.instrs :=
    ⟨⟨hc.1, by rw [hc.2 b le_rfl, hB]; rfl, fun c' hc' ↦ hc.2 c' (by omega)⟩, by simp, by simp⟩
  obtain ⟨kept, h⟩ := foldl_rest (fun todo (s : Available) ↦ ∃ kept, Knowing f b s kept todo)
    (fun k todo s ⟨kept, h⟩ ↦ numberStep_knowing hf h) B.instrs { c with computed := [], loaded := [] } ⟨[], hstart⟩
  exact ⟨h.merged, fun c' hc' ↦ h.later c' (by omega)⟩

end

end CilSsa.Passes

/-!
What gives the same when it is computed again. An instruction without effects computes the same from the same operands
as long as the engine only learns more, and what was loaded is there as long as memory only grows; neither changes the
engine the second time.
-/

namespace CilSsa.Machine

open CilSsa.Ssa CilSsa.Number CilSsa.Text
open CilSsa.Passes (valueKey?)

/-! ### Memory that grows -/

namespace Memory

/-- The heap is as it was, and the stack begins with what it held. -/
structure Grows (mem mem' : Memory) : Prop where
  heap : mem'.heap = mem.heap
  base : mem'.stack.base = mem.stack.base
  bytes : mem.stack.bytes <+: mem'.stack.bytes

theorem Grows.allows (m : Module) : Allows m fun e d ↦ e.memory.Grows d.memory where
  refl _ := ⟨rfl, rfl, List.prefix_rfl⟩
  trans h h' := ⟨h'.heap.trans h.heap, h'.base.trans h.base, h.bytes.trans h'.bytes⟩
  layouts _ _ := ⟨rfl, rfl, List.prefix_rfl⟩
  grow e stop hgrows _ := ⟨rfl, rfl, by rw [Region.bytes_grow _ hgrows]; exact List.prefix_append _ _⟩
  address _ _ := ⟨rfl, rfl, List.prefix_rfl⟩

theorem Grows.separate {mem mem' : Memory} (h : mem.Grows mem') (hs : mem.Separate) : mem'.Separate := by
  unfold Separate at hs ⊢
  rwa [h.heap, h.base]

theorem SameRegions.separate {mem mem' : Memory} (h : mem.SameRegions mem') (hs : mem.Separate) : mem'.Separate := by
  unfold Separate at hs ⊢
  rwa [h.heap, h.top, h.stack]

end Memory

theorem Memory.Grows.read? {mem mem' : Memory} (h : mem.Grows mem') (hs : mem.Separate) {a : UInt64}
    {n : Int} {bs : Bytes} (hn : 0 < n) (hr : mem.read? a n = some bs) : mem'.read? a n = some bs := by
  have htop : mem.stack.top ≤ mem'.stack.top := by
    rw [← Region.length_bytes, ← Region.length_bytes]
    exact h.bytes.length_le
  unfold Memory.read? at hr ⊢
  cases hplace : mem.stack.place? a n with
  | some o =>
    obtain ⟨hge, -, ho, hend⟩ := Region.place?_eq_some_iff.mp hplace
    have hplace' : mem'.stack.place? a n = some o :=
      Region.place?_eq_some_iff.mpr ⟨h.base ▸ hge, hn.le, h.base ▸ ho, by omega⟩
    rw [hplace] at hr
    rw [hplace']
    obtain ⟨more, hmore⟩ := h.bytes
    have hin : o + n.toNat ≤ mem.stack.top := by omega
    rw [← hr]
    refine congrArg some ?_
    rw [Region.read_eq _ (hin.trans htop), Region.read_eq _ hin, ← hmore, slice_append]
    rwa [Region.length_bytes]
  | none =>
    rw [hplace] at hr
    obtain ⟨o, ho, rfl⟩ := Option.map_eq_some_iff.mp hr
    obtain ⟨hge, -, hoff, hend⟩ := Region.place?_eq_some_iff.mp ho
    have hbelow : a < mem'.stack.base := by
      rw [h.base, UInt64.lt_iff_toNat_lt]
      rw [UInt64.toNat_sub_of_le _ _ hge] at hoff
      rw [UInt64.le_iff_toNat_le] at hge
      unfold Separate at hs
      omega
    have hplace' : mem'.stack.place? a n = none := by
      cases hp : mem'.stack.place? a n with
      | none => rfl
      | some o' =>
        have := (Region.place?_eq_some_iff.mp hp).1
        exact absurd hbelow (UInt64.not_lt.mpr this)
    rw [hplace', h.heap, ho]
    rfl

/-! ### Operands -/

/-- An operand has a pattern without any function getting an address. -/
inductive Frame.Has (e : Engine) (fr : Frame) : Option Value → UInt64 → Prop
  | instr {id : InstrId} {t : Ty} {v : UInt64} : fr.values[id]? = some v → Has e fr (some (.instr id t)) v
  | param {f : FuncId} {n : Nat} {t : Ty} {v : UInt64} : fr.args[n]? = some v → Has e fr (some (.param f n t)) v
  | func {f : FuncId} {t : Ty} {n : Nat} : e.addressed.idxOf? f = some n →
      Has e fr (some (.func f t)) (functionAddress n)
  | const {c : Const} {o : Origin} : Has e fr (some (.const c o)) (c.bits?.getD 0)

section

variable {m : Module} {trace : List String} {e d : Engine} {fr fr' : Frame} {o : Option Value} {v : UInt64}

theorem Frame.Has.run (h : fr.Has e o v) : (operand m trace fr o).run.run e = (.ok v, e) := by
  unfold operand
  cases h with
  | instr h => simp only [h]; rfl
  | param h => simp only [h]; rfl
  | func h =>
    unfold addressOf
    dsimp only
    rw [run_bind_ok run_get, h]
    rfl
  | const => rfl

theorem Frame.Has.of_run (h : (operand m trace fr o).run.run e = (.ok v, d)) : fr.Has d o v := by
  unfold operand at h
  cases o with
  | none => cases h
  | some x =>
    cases x with
    | instr id t =>
      dsimp only at h
      split at h
      · rename_i w hw
        cases h
        exact .instr hw
      · cases h
    | param f n t =>
      dsimp only at h
      split at h
      · rename_i w hw
        cases h
        exact .param hw
      · cases h
    | func f t =>
      unfold addressOf at h
      dsimp only at h
      rw [run_bind_ok run_get] at h
      split at h
      · rename_i n hn
        cases h
        exact .func hn
      · rename_i hnone
        cases h
        refine .func ?_
        unfold List.idxOf? at hnone ⊢
        simp [List.findIdx?_append, hnone]
    | const c o =>
      cases h
      exact .const

theorem Frame.Has.extends (h : fr.Has e o v) (hd : e.Extends d) : fr.Has d o v := by
  cases h with
  | instr h => exact .instr h
  | param h => exact .param h
  | func h =>
    refine .func ?_
    obtain ⟨more, hmore⟩ := hd.addressed
    unfold List.idxOf? at h ⊢
    rw [← hmore, List.findIdx?_append, h]
    rfl
  | const => exact .const

theorem Frame.Has.frame (h : fr.Has e o v) (hargs : fr'.args = fr.args)
    (hvalues : ∀ id t, o = some (.instr id t) → fr'.values[id]? = fr.values[id]?) : fr'.Has e o v := by
  cases h with
  | instr h => exact .instr ((hvalues _ _ rfl).trans h)
  | param h => exact .param (by rw [hargs]; exact h)
  | func h => exact .func h
  | const => exact .const

abbrev Frame.HasAll (e : Engine) (fr : Frame) : List (Option Value) → List UInt64 → Prop := List.Forall₂ (fr.Has e)

theorem Frame.HasAll.extends {os : List (Option Value)} {vs : List UInt64} (h : fr.HasAll e os vs) (hd : e.Extends d) :
    fr.HasAll d os vs :=
  h.imp fun _ _ ho ↦ ho.extends hd

theorem Frame.HasAll.frame {os : List (Option Value)} {vs : List UInt64} (h : fr.HasAll e os vs)
    (hargs : fr'.args = fr.args) (hvalues : ∀ id t, some (.instr id t) ∈ os → fr'.values[id]? = fr.values[id]?) :
    fr'.HasAll e os vs := by
  induction h with
  | nil => exact .nil
  | cons ho _ ih =>
    refine .cons (ho.frame hargs fun id t heq ↦ hvalues id t (heq ▸ List.mem_cons_self)) (ih fun id t hmem ↦ ?_)
    exact hvalues id t (List.mem_cons_of_mem _ hmem)

theorem Frame.HasAll.run {os : List (Option Value)} {vs : List UInt64} (h : fr.HasAll e os vs) :
    (os.mapM (operand m trace fr)).run.run e = (.ok vs, e) := by
  induction h with
  | nil => rfl
  | cons ho _ ih =>
    rw [List.mapM_cons, run_bind_ok ho.run, run_bind_ok ih]
    rfl

/-- What was read of the operands can be read again, in the engine that reading them left. -/
theorem Frame.HasAll.of_run {os : List (Option Value)} {vs : List UInt64}
    (h : (os.mapM (operand m trace fr)).run.run e = (.ok vs, d)) : fr.HasAll d os vs := by
  induction os generalizing e vs with
  | nil =>
    cases h
    exact .nil
  | cons o os ih =>
    rw [List.mapM_cons] at h
    rcases ho : (operand m trace fr o).run.run e with ⟨s | v, c⟩
    · rw [run_bind_error ho] at h
      cases h
    rw [run_bind_ok ho] at h
    rcases hos : (os.mapM (operand m trace fr)).run.run c with ⟨s | ws, c'⟩
    · rw [run_bind_error hos] at h
      cases h
    rw [run_bind_ok hos] at h
    cases h
    refine .cons ((Frame.Has.of_run ho).extends ?_) (ih hos)
    have hmoves : Moves Engine.Extends (os.mapM (operand m trace fr)) :=
      (Engine.Extends.allows m).mapM (operand_moves (Engine.Extends.allows m) fr) os
    have := hmoves c
    rwa [hos] at this

/-! ### Instructions -/

/-- `d` comes after `e` with nothing in between that `i` would notice. -/
structure After (i : Instr) (e d : Engine) : Prop where
  extend : e.Extends d
  memory : i.op = .load → e.memory.Grows d.memory

theorem After.refl (i : Instr) (e : Engine) : After i e e :=
  ⟨(Engine.Extends.allows { name := "" }).refl e, fun _ ↦ (Memory.Grows.allows { name := "" }).refl e⟩

theorem After.trans {i : Instr} {e d c : Engine} (h : After i e d) (h' : After i d c) : After i e c :=
  ⟨(Engine.Extends.allows { name := "" }).trans h.extend h'.extend,
    fun hi ↦ (Memory.Grows.allows { name := "" }).trans (h.memory hi) (h'.memory hi)⟩

def Settled (m : Module) (i : Instr) (ops : List UInt64) (v : UInt64) (e : Engine) : Prop :=
  ∀ d trace, After i e d → (compute m trace i ops).run.run d = (.ok v, d)

theorem Settled.after {i : Instr} {ops : List UInt64} (h : Settled m i ops v e) (hd : After i e d) :
    Settled m i ops v d :=
  fun _ _ hc ↦ h _ _ (hd.trans hc)

theorem readPattern_again {a : UInt64} {n : Nat} (hs : e.memory.Separate)
    (h : (readPattern trace a n).run.run e = (.ok v, d)) :
    d = e ∧ ∀ c ts, e.memory.Grows c.memory → (readPattern ts a n).run.run c = (.ok v, c) := by
  have hread : ∀ (c : Engine) (ts : List String) (bs : Bytes), c.memory.read? a n = some bs →
      (readBytes ts a n).run.run c = (.ok bs, c) := by
    intro c ts bs hbs
    unfold readBytes
    rw [run_bind_ok run_get, hbs]
    rfl
  cases hbs : e.memory.read? a n with
  | none =>
    have hfail : ∃ s, (readBytes trace a n).run.run e = (.error s, e) := by
      unfold readBytes
      rw [run_bind_ok run_get, hbs]
      exact ⟨_, rfl⟩
    obtain ⟨s, hfail⟩ := hfail
    unfold readPattern at h
    rw [run_bind_error hfail] at h
    cases h
  | some bs =>
    unfold readPattern at h ⊢
    rw [run_bind_ok (hread e trace bs hbs)] at h
    cases hw : readWord? bs with
    | none =>
      rw [hw] at h
      cases h
    | some w =>
      rw [hw] at h
      cases h
      refine ⟨rfl, fun c ts hc ↦ ?_⟩
      have hpos : 0 < (n : Int) := by
        rcases Nat.eq_zero_or_pos n with rfl | hpos
        · exfalso
          have hempty : bs = [] := by
            unfold Memory.read? at hbs
            split at hbs
            · cases hbs
              exact Region.read_zero ..
            · obtain ⟨o, -, rfl⟩ := Option.map_eq_some_iff.mp hbs
              exact Region.read_zero ..
          rw [hempty] at hw
          cases hw
        · omega
      rw [run_bind_ok (hread c ts bs (hc.read? hs hpos hbs)), hw]
      rfl

theorem load_again {a : UInt64} {t : Ty} (ht : t.isStruct = false) (hs : e.memory.Separate)
    (h : (load m trace a t).run.run e = (.ok v, d)) :
    d = e ∧ ∀ c ts, e.memory.Grows c.memory → (load m ts a t).run.run c = (.ok v, c) := by
  unfold load at h ⊢
  cases t with
  | int bits =>
    dsimp only at h ⊢
    rcases hp : (readPattern trace a (byteWidth bits)).run.run e with ⟨s | w, c⟩
    · rw [run_bind_error hp] at h
      cases h
    · rw [run_bind_ok hp] at h
      cases h
      obtain ⟨rfl, hagain⟩ := readPattern_again hs hp
      refine ⟨rfl, fun c ts hc ↦ ?_⟩
      rw [run_bind_ok (hagain c ts hc)]
      rfl
  | float | double | pointer => exact readPattern_again hs h
  | struct => cases ht
  | untyped | void | func => cases h

theorem memberAddress_again {t : Ty} {index : Int} {a : UInt64} (h : (do
      let e ← get
      let (r, layouts) := e.layouts.fieldOffset m t index
      set { e with layouts }
      match r with
      | .ok o => return a + o.toUInt64
      | .error err => raise trace .badValue err.message : Run UInt64).run.run e = (.ok v, d)) (c : Engine)
      (ts : List String)
    (hc : d.Extends c) : (do
      let e ← get
      let (r, layouts) := e.layouts.fieldOffset m t index
      set { e with layouts }
      match r with
      | .ok o => return a + o.toUInt64
      | .error err => raise ts .badValue err.message : Run UInt64).run.run c = (.ok v, c) := by
  rw [run_bind_ok run_get] at h ⊢
  rcases hoffset : e.layouts.fieldOffset m t index with ⟨err | o, s⟩
  · rw [hoffset] at h
    cases h
  · rw [hoffset] at h
    cases h
    rw [Layouts.fieldOffset_again hoffset hc.layouts]
    rfl

theorem settled_of_compute {i : Instr} {ops : List UInt64}
    (hi : (valueKey? i).isSome = true ∨ i.op = .load ∧ i.type.isStruct = false) (hs : e.memory.Separate)
    (h : (compute m trace i ops).run.run e = (.ok v, d)) : Settled m i ops v d := by
  intro c ts hc
  have hkey : ∀ op, i.op = op → (op = .alloca ∨ op = .store) → False := by
    rintro op rfl hop
    rcases hi with hi | ⟨hi, -⟩
    · obtain ⟨key, hkey⟩ := Option.isSome_iff_exists.mp hi
      obtain ⟨hpure, halloca, -⟩ := Passes.valueKey?_inv hkey
      rcases hop with hop | hop
      · exact halloca hop
      · rw [hop] at hpure
        cases hpure
    · rw [hi] at hop
      rcases hop with hop | hop <;> cases hop
  unfold compute at h ⊢
  split at h
  · rename_i hop
    exact (hkey _ hop (.inl rfl)).elim
  · rename_i hop
    rcases hi with hi | ⟨-, ht⟩
    · obtain ⟨key, hkey⟩ := Option.isSome_iff_exists.mp hi
      exact absurd hop (Passes.valueKey?_inv hkey).2.2.1
    · obtain ⟨rfl, hagain⟩ := load_again ht hs h
      exact hagain c ts (hc.memory hop)
  · rename_i hop
    exact (hkey _ hop (.inr rfl)).elim
  · split at h
    · exact memberAddress_again h c ts hc.extend
    · cases h
  · cases h
    rfl
  · cases h
    rfl
  · cases h
    rfl
  · cases h
  · split at h
    · rename_i hbinary
      rw [if_pos hbinary]
      split at h
      · split at h
        · cases h
          rfl
        · cases h
      · cases h
    · rename_i hbinary
      rw [if_neg hbinary]
      split at h
      · rename_i hcast
        rw [if_pos hcast]
        split at h
        · split at h
          · cases h
            rfl
          · cases h
        · cases h
      · cases h

end

end CilSsa.Machine

