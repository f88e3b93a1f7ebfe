import CilSsa.Proofs.Recomputation

/-! The two runs go side by side: their engines are the same at each point, and so are their frames but for the
result of the instruction that was taken out. -/

namespace CilSsa.Machine

open CilSsa.Ssa CilSsa.Number CilSsa.Text

/-! ### Code that differs in its functions only -/

section

variable {m m' : Module} {trace : List String} (h : m'.structs = m.structs)

include h

theorem sizeOf_structs (t : Ty) : sizeOf m' trace t = sizeOf m trace t := by
  unfold sizeOf Layouts.sizeOf
  simp only [Layouts.of_structs h]

theorem stackAlloc_structs (t : Ty) (count : Int) : stackAlloc m' trace t count = stackAlloc m trace t count := by
  unfold stackAlloc Layouts.alignOf
  simp only [Layouts.of_structs h, sizeOf_structs h]

theorem load_structs (a : UInt64) (t : Ty) : load m' trace a t = load m trace a t := by
  unfold load
  simp only [sizeOf_structs h, stackAlloc_structs h]

theorem store_structs (a : UInt64) (t : Ty) (v : UInt64) : store m' trace a t v = store m trace a t v := by
  unfold store
  simp only [sizeOf_structs h]

theorem compute_structs (i : Instr) (ops : List UInt64) : compute m' trace i ops = compute m trace i ops := by
  unfold compute Layouts.fieldOffset
  simp only [stackAlloc_structs h, load_structs h, store_structs h, Layouts.of_structs h]

theorem returnedBytes_structs (t : Ty) (v : UInt64) : returnedBytes m' trace t v = returnedBytes m trace t v := by
  unfold returnedBytes
  simp only [sizeOf_structs h]

theorem receive_structs (t : Ty) (r : Returned) : receive m' trace t r = receive m trace t r := by
  unfold receive
  simp only [stackAlloc_structs h]

end

theorem firstType_alike {i i' : Instr} (h : i.Alike i') : i'.firstType = i.firstType := by
  have hread : ∀ i : Instr, i.firstType = (i.types.head?.join).getD .untyped := by
    intro i
    unfold Instr.firstType Instr.types
    rcases i.operands with _ | ⟨_ | v, os⟩ <;> rfl
  rw [hread, hread, h.types]

theorem compute_congr {m : Module} {trace : List String} {i i' : Instr} (hop : i'.op = i.op) (htype : i'.type = i.type)
    (hfirst : i'.firstType = i.firstType) (hpred : i'.pred = i.pred) (hindex : i'.index = i.index)
    (halloc : i.op = .alloca → i'.allocated = i.allocated) (ops : List UInt64) :
    compute m trace i' ops = compute m trace i ops := by
  unfold compute
  rw [hop, htype, hfirst, hpred, hindex]
  split
  · rename_i heq
    rw [halloc heq]
  all_goals rfl

section advance

variable {fr : Frame} {i : Instr} {v : UInt64} {j : Nat} {rest : List Nat}

theorem Frame.advance_eq (h : fr.rest = j :: rest) : fr.advance i v =
    if i.hasValue then { fr with values := fr.values.insert ⟨fr.block.fn, j⟩ v, rest } else { fr with rest } := by
  unfold Frame.advance
  rw [h]

theorem Frame.advance_same (h : fr.rest = j :: rest) : (fr.advance i v).fn = fr.fn ∧ (fr.advance i v).name = fr.name ∧
    (fr.advance i v).args = fr.args ∧ (fr.advance i v).block = fr.block ∧ (fr.advance i v).mark = fr.mark ∧
      (fr.advance i v).rest = rest := by
  rw [advance_eq h]
  split <;> exact ⟨rfl, rfl, rfl, rfl, rfl, rfl⟩

theorem Frame.advance_values (h : fr.rest = j :: rest) (id : InstrId) : (fr.advance i v).values[id]? =
    if i.hasValue ∧ id = ⟨fr.block.fn, j⟩ then some v else fr.values[id]? := by
  rw [advance_eq h]
  by_cases hv : i.hasValue = true
  · simp only [hv, if_true, true_and, Std.HashMap.getElem?_insert, beq_iff_eq]
    exact if_congr eq_comm rfl rfl
  · rw [if_neg hv, if_neg fun hc ↦ hv hc.1]

end advance

end CilSsa.Machine

namespace CilSsa.Passes

open CilSsa.Ssa CilSsa.Machine CilSsa.Number

/-! ### Operands of one key -/

section keys

variable {x i : Instr} {e : Engine} {fr : Frame} {o o' : Option Value} {v : UInt64}

theorem bits?_eq_some {w : Value} (h : w.bits? = some v) : ∃ c o, w = .const c o ∧ c.bits? = some v := by
  cases w with
  | const c o => exact ⟨c, o, rfl, h⟩
  | instr | param | func => cases h

theorem operandKey_eq (h : operandKey o = operandKey o') : o = o' ∨ ∃ c p c' p' v, o = some (.const c p) ∧
    o' = some (.const c' p') ∧ c.type = c'.type ∧ c.bits? = some v ∧ c'.bits? = some v := by
  have hcases : ∀ o : Option Value, operandKey o = .value o ∨
      ∃ c p v, o = some (.const c p) ∧ c.bits? = some v ∧ operandKey o = .pattern c.type v := by
    intro o
    unfold operandKey
    split
    · rename_i t w hw
      obtain ⟨u, rfl, hu⟩ := Option.bind_eq_some_iff.mp hw
      obtain ⟨w', hw', heq⟩ := Option.map_eq_some_iff.mp hu
      obtain ⟨c, p, rfl, hc⟩ := bits?_eq_some hw'
      cases heq
      exact .inr ⟨c, p, w, rfl, hc, rfl⟩
    · exact .inl rfl
  rcases hcases o with ho | ⟨c, p, v, rfl, hc, ho⟩ <;> rcases hcases o' with ho' | ⟨c', p', v', rfl, hc', ho'⟩ <;>
    rw [ho, ho'] at h
  · exact .inl (OperandKey.value.inj h)
  · cases h
  · cases h
  · obtain ⟨ht, rfl⟩ := OperandKey.pattern.inj h
    exact .inr ⟨c, p, c', p', v, rfl, rfl, ht, hc, hc'⟩

theorem has_of_key (h : operandKey o = operandKey o') (hv : fr.Has e o v) : fr.Has e o' v := by
  rcases operandKey_eq h with rfl | ⟨c, p, c', p', w, rfl, rfl, -, hc, hc'⟩
  · exact hv
  · cases hv
    have hw : c.bits?.getD 0 = c'.bits?.getD 0 := by rw [hc, hc']
    rw [hw]
    exact .const

theorem valueKey?_eq (h : valueKey? x = valueKey? i) (hi : (valueKey? i).isSome = true) : i.op = x.op ∧
    i.type = x.type ∧ i.pred = x.pred ∧ i.index = x.index ∧ x.operands.map operandKey = i.operands.map operandKey := by
  unfold valueKey? at h hi
  split at hi
  · cases hi
  rename_i hne
  rw [if_neg hne] at h
  split at h
  · cases h
  · simp only [Option.some.injEq, ValueKey.mk.injEq] at h
    exact ⟨h.1.symm, h.2.1.symm, h.2.2.1.symm, h.2.2.2.1.symm, h.2.2.2.2⟩

theorem firstType_eq (h : x.operands.map operandKey = i.operands.map operandKey) : i.firstType = x.firstType := by
  unfold Instr.firstType
  generalize x.operands = os at h ⊢
  generalize i.operands = os' at h ⊢
  cases os with
  | nil => rw [List.map_eq_nil_iff.mp h.symm]
  | cons o os =>
    cases os' with
    | nil => cases h
    | cons o' os' =>
      rw [List.map_cons, List.map_cons, List.cons.injEq] at h
      rcases operandKey_eq h.1 with rfl | ⟨c, p, c', p', w, rfl, rfl, ht, -⟩
      · cases o <;> rfl
      · exact ht.symm

variable {F : Function} {mid : List Nat}

theorem Repeats.reads (h : Repeats F mid x i) {id : InstrId} {t : Ty} (hr : some (.instr id t) ∈ i.operands) :
    some (.instr id t) ∈ x.operands := by
  cases h with
  | computed hx hi =>
    have hkeys := (valueKey?_eq (hx.trans hi.symm) (by rw [hi]; rfl)).2.2.2.2
    have hmem : operandKey (some (.instr id t)) ∈ x.operands.map operandKey := by
      rw [hkeys]
      exact List.mem_map_of_mem hr
    obtain ⟨o, ho, heq⟩ := List.mem_map.mp hmem
    rcases operandKey_eq heq with rfl | ⟨_, _, _, _, _, -, habs, -⟩
    · exact ho
    · cases habs
  | loaded _ _ ho => rwa [ho]

theorem Repeats.hasAll (h : Repeats F mid x i) {ops : List UInt64} (ho : fr.HasAll e x.operands ops) :
    fr.HasAll e i.operands ops := by
  cases h with
  | computed hx hi =>
    have hkeys := (valueKey?_eq (hx.trans hi.symm) (by rw [hi]; rfl)).2.2.2.2
    generalize x.operands = os at ho hkeys
    generalize i.operands = os' at hkeys
    induction ho generalizing os' with
    | nil => rw [List.map_eq_nil_iff.mp hkeys.symm]; exact .nil
    | cons hv _ ih =>
      cases os' with
      | nil => cases hkeys
      | cons o' os' =>
        rw [List.map_cons, List.map_cons, List.cons.injEq] at hkeys
        exact .cons (has_of_key hkeys.1 hv) (ih os' hkeys.2)
  | loaded _ _ heq => rwa [← heq]

theorem Repeats.compute (h : Repeats F mid x i) (m : Module) (trace : List String) (ops : List UInt64) :
    Machine.compute m trace i ops = Machine.compute m trace x ops := by
  cases h with
  | computed hx hi =>
    obtain ⟨hop, htype, hpred, hindex, hkeys⟩ := valueKey?_eq (hx.trans hi.symm) (by rw [hi]; rfl)
    exact compute_congr hop htype (firstType_eq hkeys) hpred hindex (fun ha ↦ absurd ha (valueKey?_inv hx).2.1) ops
  | loaded hx hi ho ht =>
    unfold Machine.compute
    rw [hx, hi, ht]
    cases ops <;> rfl

end keys

/-! ### Places of a block -/

section places

variable {F : Function} {b c j k p : Nat} {B : Block} {pre rest mid : List Nat} {x i y : Instr}

theorem not_reads (hF : F.Orderly) (hB : F.blocks[c]? = some B) (hlist : B.instrs = pre ++ j :: rest)
    (hy : F.instr? j = some y) (hk : k ∈ j :: rest) (t : Ty) : some (.instr ⟨F.id, k⟩ t) ∉ y.operands := by
  intro hread
  have hkB : k ∈ B.instrs := by rw [hlist]; exact List.mem_append_right _ hk
  have hnodup := hF.once hB
  have hkj := hF.order hB ⟨⟨B, hB, by simp [hlist]⟩, hy⟩ hread hkB
  obtain ⟨-, hlt⟩ := (pair_sublist_iff hnodup).mp hkj
  rcases List.mem_cons.mp hk with rfl | hk
  · omega
  · have hjk : [j, k].Sublist B.instrs := by
      rw [hlist]
      exact (List.cons_sublist_cons.mpr (List.singleton_sublist.mpr hk)).trans (List.sublist_append_right ..)
    have := ((pair_sublist_iff hnodup).mp hjk).2
    omega

theorem Merges.zone (hm : Merges F b p k mid x i) (hF : F.Orderly) (hB : F.blocks[c]? = some B)
    (hlist : B.instrs = pre ++ rest) (hp : p ∉ rest) (hk : k ∈ rest) :
    c = b ∧ ∃ mid₁ mid₂ post, mid = mid₁ ++ mid₂ ∧ rest = mid₂ ++ k :: post := by
  obtain rfl : c = b := hF.apart ⟨⟨B, hB, by simp [hlist, hk]⟩, hm.later⟩ hm.lists.2
  obtain ⟨B', pre', post, hB', hlist'⟩ := hm.between
  obtain rfl : B = B' := Option.some.inj (hB.symm.trans hB')
  have hnodup := hF.once hB
  rw [hlist] at hnodup
  have heq : pre ++ rest = pre' ++ p :: (mid ++ k :: post) := hlist.symm.trans hlist'
  refine ⟨rfl, ?_⟩
  rcases List.append_eq_append_iff.mp heq with ⟨as, -, hrest⟩ | ⟨as, hpre, hrest⟩
  · exact absurd (by simp [hrest]) hp
  cases as with
  | nil => exact absurd (by simp [← show p :: (mid ++ k :: post) = rest from hrest]) hp
  | cons a as =>
    rw [List.cons_append, List.cons.injEq] at hrest
    rcases List.append_eq_append_iff.mp hrest.2 with ⟨bs, has, hpost⟩ | ⟨bs, hmid, hbs⟩
    · cases bs with
      | nil => exact ⟨mid, [], post, by simp, by simpa using hpost.symm⟩
      | cons c bs =>
        rw [List.cons_append, List.cons.injEq] at hpost
        have hkpre : k ∈ pre := by simp [hpre, has, hpost.1]
        exact absurd rfl ((List.nodup_append.mp hnodup).2.2 k hkpre k hk)
    · exact ⟨as, bs, post, hmid, hbs⟩

theorem Merges.at_earlier (hm : Merges F b p k mid x i) (hF : F.Orderly) (hB : F.blocks[c]? = some B)
    (hlist : B.instrs = pre ++ p :: rest) : c = b ∧ ∃ post, rest = mid ++ k :: post := by
  obtain rfl : c = b := hF.apart ⟨⟨B, hB, by simp [hlist]⟩, hm.earlier⟩ hm.lists.1
  obtain ⟨B', pre', post, hB', hlist'⟩ := hm.between
  obtain rfl : B = B' := Option.some.inj (hB.symm.trans hB')
  have hnodup := hF.once hB
  rw [hlist] at hnodup
  have hapart := List.nodup_append.mp hnodup
  have hp : p ∉ pre := fun h ↦ hapart.2.2 p h p List.mem_cons_self rfl
  have hrest : p ∉ rest := (List.nodup_cons.mp hapart.2.1).1
  have heq : pre' ++ p :: (mid ++ k :: post) = pre ++ p :: rest := hlist'.symm.trans hlist
  exact ⟨rfl, post, ((List.append_cons_inj_of_notMem hp hrest).mp heq.symm).2.2⟩

theorem Merges.not_call (hm : Merges F b p k mid x i) (hy : F.instr? j = some y) (hcall : y.op = .call) :
    j ≠ p ∧ j ≠ k := by
  constructor
  · rintro rfl
    have hop := hm.earlier.symm.trans hy
    cases hm.same with
    | computed hx =>
      have hpure := (valueKey?_inv hx).1
      rw [Option.some.inj hop, hcall] at hpure
      cases hpure
    | loaded hx =>
      rw [Option.some.inj hop, hcall] at hx
      cases hx
  · rintro rfl
    have hpure := hm.same.pure
    rw [Option.some.inj (hm.later.symm.trans hy), hcall] at hpure
    cases hpure

end places

/-! ### Frames side by side -/

section frames

variable {m : Module} {F : Function} {b c j k p : Nat} {B : Block} {pre rest mid : List Nat}
  {x i y : Instr} {e d : Engine} {fr fr' : Frame} {v : UInt64}

/-- `i`, which is to give the result `k`, gives what is the result `p` already. -/
def Due (m : Module) (F : Function) (p k : Nat) (i : Instr) (e : Engine) (fr : Frame) : Prop :=
  ∃ ops v, fr.HasAll e i.operands ops ∧ Settled m i ops v e ∧
    fr.values[(⟨F.id, p⟩ : InstrId)]? = if i.hasValue then some v else fr.values[(⟨F.id, k⟩ : InstrId)]?

/-- Frames at the same place of `F`, where the second function lacks instruction `k`. -/
structure Inside (m : Module) (F : Function) (p k : Nat) (i : Instr) (e : Engine) (fr fr' : Frame) : Prop where
  fn : fr.block.fn = F.id
  place : ∃ B pre, F.blocks[fr.block.index]? = some B ∧ B.instrs = pre ++ fr.rest
  rest : fr'.rest = fr.rest.filter (· != k)
  due : p ∉ fr.rest → k ∈ fr.rest → Due m F p k i e fr
  done : (k ∈ fr.rest → p ∈ fr.rest) → fr.values[(⟨F.id, k⟩ : InstrId)]? = fr.values[(⟨F.id, p⟩ : InstrId)]?

/-- Frames at the same place of another function, where nothing of `F` has been computed. -/
structure Outside (F : Function) (fr fr' : Frame) : Prop where
  fn : fr.block.fn ≠ F.id
  rest : fr'.rest = fr.rest
  none : ∀ j, fr.values[(⟨F.id, j⟩ : InstrId)]? = none ∧ fr'.values[(⟨F.id, j⟩ : InstrId)]? = none

/-- Frames that differ at most in the result of the instruction that was taken out. -/
structure Mirror (m : Module) (F : Function) (p k : Nat) (i : Instr) (e : Engine) (fr fr' : Frame) : Prop where
  fn : fr'.fn = fr.fn
  name : fr'.name = fr.name
  args : fr'.args = fr.args
  block : fr'.block = fr.block
  mark : fr'.mark = fr.mark
  values : ∀ id : InstrId, id ≠ ⟨F.id, k⟩ → fr'.values[id]? = fr.values[id]?
  sides : Inside m F p k i e fr fr' ∨ Outside F fr fr'

def Waiting (m : Module) (fr : Frame) : Prop :=
  ∃ j rest y, fr.rest = j :: rest ∧ m.instr? ⟨fr.block.fn, j⟩ = some y ∧ y.op = .call

/-- Stacks of such frames, all but the innermost of which wait for a call. -/
inductive Mirrors (m : Module) (F : Function) (p k : Nat) (i : Instr) (e : Engine) : List Frame → List Frame → Prop
  | cons {fr fr' : Frame} {callers callers' : List Frame} : Mirror m F p k i e fr fr' →
      List.Forall₂ (Mirror m F p k i e) callers callers' → (∀ c ∈ callers, Waiting m c) →
      Mirrors m F p k i e (fr :: callers) (fr' :: callers')

theorem Due.after (h : Due m F p k i e fr) (hd : After i e d) : Due m F p k i d fr := by
  obtain ⟨ops, v, hops, hv, hvalue⟩ := h
  exact ⟨ops, v, hops.extends hd.extend, hv.after hd, hvalue⟩

theorem Due.frame (h : Due m F p k i e fr) (hargs : fr'.args = fr.args)
    (hvalues : ∀ id t, some (.instr id t) ∈ i.operands → fr'.values[id]? = fr.values[id]?)
    (hp : fr'.values[(⟨F.id, p⟩ : InstrId)]? = fr.values[(⟨F.id, p⟩ : InstrId)]?)
    (hk : fr'.values[(⟨F.id, k⟩ : InstrId)]? = fr.values[(⟨F.id, k⟩ : InstrId)]?) : Due m F p k i e fr' := by
  obtain ⟨ops, v, hops, hv, hvalue⟩ := h
  exact ⟨ops, v, hops.frame hargs hvalues, hv, by rw [hp, hk]; exact hvalue⟩

theorem Mirror.after (h : Mirror m F p k i e fr fr') (hd : After i e d) : Mirror m F p k i d fr fr' := by
  obtain ⟨h1, h2, h3, h4, h5, h6, hin | hout⟩ := h
  · exact ⟨h1, h2, h3, h4, h5, h6, .inl ⟨hin.fn, hin.place, hin.rest, fun hp hk ↦ (hin.due hp hk).after hd, hin.done⟩⟩
  · exact ⟨h1, h2, h3, h4, h5, h6, .inr hout⟩

theorem Mirror.names {callers callers' : List Frame} (h : List.Forall₂ (Mirror m F p k i e) callers callers') :
    callers'.map (·.name) = callers.map (·.name) := by
  induction h with
  | nil => rfl
  | cons hc _ ih => rw [List.map_cons, List.map_cons, hc.name, ih]

variable (hm : Merges F b p k mid x i) (hF : F.Orderly) (hf : m.function? F.id = some F)

include hm hF

theorem Inside.call_not_load (h : Inside m F p k i e fr fr') (hf : m.function? F.id = some F) (hw : Waiting m fr)
    (hp : p ∉ fr.rest) (hk : k ∈ fr.rest) : i.op ≠ .load := by
  intro hload
  obtain ⟨B, pre, hB, hlist⟩ := h.place
  obtain ⟨-, mid₁, mid₂, post, hmid, hrest⟩ := hm.zone hF hB hlist hp hk
  obtain ⟨j, rest, y, hj, hy, hcall⟩ := hw
  rw [h.fn, Module.instr?_own hf] at hy
  rw [hrest] at hj
  cases mid₂ with
  | nil =>
    obtain ⟨rfl, -⟩ := List.cons.inj hj
    have hpure := hm.same.pure
    rw [Option.some.inj (hm.later.symm.trans hy), hcall] at hpure
    cases hpure
  | cons j' mid₂ =>
    obtain ⟨rfl, -⟩ := List.cons.inj hj
    cases hm.same with
    | computed hx hi => exact (valueKey?_inv hi).2.2.1 hload
    | loaded _ _ _ _ hquiet => exact (hquiet j' (by simp [hmid]) y hy).2 hcall

theorem Mirror.extends (h : Mirror m F p k i e fr fr') (hf : m.function? F.id = some F) (hw : Waiting m fr)
    (hd : e.Extends d) : Mirror m F p k i d fr fr' := by
  obtain ⟨h1, h2, h3, h4, h5, h6, hin | hout⟩ := h
  · refine ⟨h1, h2, h3, h4, h5, h6, .inl ⟨hin.fn, hin.place, hin.rest, fun hp hk ↦ ?_, hin.done⟩⟩
    exact (hin.due hp hk).after ⟨hd, fun hload ↦ absurd hload (hin.call_not_load hm hF hf hw hp hk)⟩
  · exact ⟨h1, h2, h3, h4, h5, h6, .inr hout⟩

theorem Inside.advance (h : Inside m F p k i e fr fr') (hrest : fr.rest = j :: rest) (hjk : j ≠ k) {y y' : Instr}
    (hd : e.Extends d)
    (hquiet : i.op = .load → p ∉ fr.rest → k ∈ fr.rest → e.memory.Grows d.memory)
    (hp : j = p → Due m F p k i d (fr.advance y v)) :
    Inside m F p k i d (fr.advance y v) (fr'.advance y' v) := by
  obtain ⟨B, pre, hB, hlist⟩ := h.place
  have hrest' : fr'.rest = j :: rest.filter (· != k) := by
    rw [h.rest, hrest, List.filter_cons_of_pos (by simpa using hjk)]
  obtain ⟨-, -, hargs₁, hblock, -, hadv⟩ := Frame.advance_same (i := y) (v := v) hrest
  obtain ⟨-, -, -, -, -, hadv'⟩ := Frame.advance_same (i := y') (v := v) hrest'
  have hkeep : ∀ id : InstrId, id ≠ ⟨F.id, j⟩ → (fr.advance y v).values[id]? = fr.values[id]? := by
    intro id hne
    rw [Frame.advance_values hrest, if_neg fun hc ↦ hne (hc.2.trans (by rw [h.fn]))]
  have hne : ∀ {l : Nat}, l ≠ j → (⟨F.id, l⟩ : InstrId) ≠ ⟨F.id, j⟩ := fun hl heq ↦ hl (InstrId.mk.inj heq).2
  rw [hrest] at hlist
  refine ⟨by rw [hblock, h.fn], ⟨B, pre ++ [j], by rw [hblock]; exact hB, by rw [hadv, hlist]; simp⟩, by rw [hadv,
    hadv'], fun hpr hkr ↦ ?_, fun hdone ↦ ?_⟩
  · rw [hadv] at hpr hkr
    by_cases hjp : j = p
    · exact hp hjp
    have hpr' : p ∉ fr.rest := by
      rw [hrest]
      exact fun hmem ↦ (List.mem_cons.mp hmem).elim (Ne.symm hjp) hpr
    have hkr' : k ∈ fr.rest := by rw [hrest]; exact List.mem_cons_of_mem _ hkr
    refine ((h.due hpr' hkr').after ⟨hd, fun hload ↦ hquiet hload hpr' hkr'⟩).frame hargs₁
      (fun id t hread ↦ hkeep id ?_) (hkeep _ (hne (Ne.symm hjp))) (hkeep _ (hne (Ne.symm hjk)))
    rintro rfl
    obtain ⟨rfl, mid₁, mid₂, post, hmid, htail⟩ := hm.zone hF hB hlist (hrest ▸ hpr') (hrest ▸ hkr')
    obtain ⟨B', pre', post', hB', hlist'⟩ := hm.between
    refine not_reads hF hB' hlist' hm.earlier ?_ t (hm.same.reads hread)
    cases mid₂ with
    | nil => exact absurd (List.cons.inj htail).1 hjk
    | cons l mid₂ =>
      obtain ⟨rfl, -⟩ := List.cons.inj htail
      simp [hmid]
  · rw [hadv] at hdone
    have hjp : j ≠ p := by
      rintro rfl
      obtain ⟨-, post, rfl⟩ := hm.at_earlier hF hB hlist
      have hnodup := hF.once hB
      rw [hlist] at hnodup
      exact (List.nodup_cons.mp (List.nodup_append.mp hnodup).2.1).1 (hdone (by simp))
    rw [hkeep _ (hne (Ne.symm hjk)), hkeep _ (hne (Ne.symm hjp))]
    refine h.done fun hmem ↦ ?_
    rw [hrest] at hmem ⊢
    exact List.mem_cons_of_mem _ (hdone ((List.mem_cons.mp hmem).resolve_left (Ne.symm hjk)))

theorem Mirror.advance (h : Mirror m F p k i e fr fr') (hrest : fr.rest = j :: rest) (hjk : fr.block.fn = F.id → j ≠ k)
    {y y' : Instr} (hvalue : y'.hasValue = y.hasValue) (hd : e.Extends d)
    (hquiet : fr.block.fn = F.id → i.op = .load → p ∉ fr.rest → k ∈ fr.rest → e.memory.Grows d.memory)
    (hp : fr.block.fn = F.id → j = p → Due m F p k i d (fr.advance y v)) :
    Mirror m F p k i d (fr.advance y v) (fr'.advance y' v) := by
  have hrest' : ∃ rest', fr'.rest = j :: rest' := by
    rcases h.sides with hin | hout
    · exact ⟨_, by rw [hin.rest, hrest, List.filter_cons_of_pos (by simpa using hjk hin.fn)]⟩
    · exact ⟨rest, by rw [hout.rest, hrest]⟩
  obtain ⟨rest', hrest'⟩ := hrest'
  obtain ⟨h1, h2, h3, h4, h5, h6⟩ := Frame.advance_same (i := y) (v := v) hrest
  obtain ⟨h1', h2', h3', h4', h5', h6'⟩ := Frame.advance_same (i := y') (v := v) hrest'
  refine ⟨by rw [h1, h1', h.fn], by rw [h2, h2', h.name], by rw [h3, h3', h.args], by rw [h4, h4', h.block],
    by rw [h5, h5', h.mark], fun id hid ↦ ?_, ?_⟩
  · rw [Frame.advance_values hrest, Frame.advance_values hrest', hvalue, h.block, h.values id hid]
  · rcases h.sides with hin | hout
    · exact .inl (hin.advance hm hF hrest (hjk hin.fn) hd (hquiet hin.fn) (hp hin.fn))
    · refine .inr ⟨by rw [h4]; exact hout.fn, ?_, fun l ↦ ?_⟩
      · rw [h6, h6']
        have := hout.rest
        rw [hrest, hrest'] at this
        exact (List.cons.inj this).2
      · have hne : (⟨F.id, l⟩ : InstrId) ≠ ⟨fr.block.fn, j⟩ := fun heq ↦ hout.fn (InstrId.mk.inj heq).1.symm
        rw [Frame.advance_values hrest, Frame.advance_values hrest', h.block, if_neg fun hc ↦ hne hc.2,
          if_neg fun hc ↦ hne hc.2]
        exact hout.none l

theorem due_of_compute {trace : List String} {c : Engine} {ops : List UInt64} (hs : c.memory.Separate)
    (hfn : fr.block.fn = F.id) (hrest : fr.rest = p :: rest)
    (hdone : fr.values[(⟨F.id, k⟩ : InstrId)]? = fr.values[(⟨F.id, p⟩ : InstrId)]?) (hops : fr.HasAll c x.operands ops)
    (hc : (compute m trace x ops).run.run c = (.ok v, d)) : Due m F p k i d (fr.advance x v) := by
  have hd : c.Extends d := by
    have hmoves : Moves Engine.Extends (compute m trace x ops) :=
      compute_moves (Engine.Extends.allows m) x ops fun _ ↦ Engine.Extends.writes
    have := hmoves c
    rwa [hc] at this
  have hkind : (valueKey? x).isSome = true ∨ x.op = .load ∧ x.type.isStruct = false := by
    cases hm.same with
    | computed hx => exact .inl (by rw [hx]; rfl)
    | loaded hx => exact .inr ⟨hx, (hF.loads hm.lists.1 hx).2⟩
  have hvalue : x.hasValue = i.hasValue := by rw [Instr.hasValue, Instr.hasValue, hm.same.type]
  obtain ⟨-, -, hargs, -, -, -⟩ := Frame.advance_same (i := x) (v := v) hrest
  have hsettled := settled_of_compute hkind hs hc
  have hop : i.op = x.op := by
    cases hm.same with
    | computed hx hi => exact (valueKey?_eq (hx.trans hi.symm) (by rw [hi]; rfl)).1
    | loaded hx hi => rw [hx, hi]
  refine ⟨ops, v, hm.same.hasAll ((hops.extends hd).frame hargs fun id t hread ↦ ?_), fun c' ts hc' ↦ ?_, ?_⟩
  · rw [Frame.advance_values hrest, if_neg]
    rintro ⟨-, rfl⟩
    obtain ⟨B', pre', post', hB', hlist'⟩ := hm.between
    rw [hfn] at hread
    exact not_reads hF hB' hlist' hm.earlier List.mem_cons_self t hread
  · rw [hm.same.compute]
    exact hsettled c' ts ⟨hc'.extend, fun hload ↦ hc'.memory (hop.trans hload)⟩
  · have hpk : (⟨F.id, k⟩ : InstrId) ≠ ⟨F.id, p⟩ := fun heq ↦ (hm.ne hF.toTidy) (InstrId.mk.inj heq).2.symm
    have hk : (fr.advance x v).values[(⟨F.id, k⟩ : InstrId)]? = fr.values[(⟨F.id, p⟩ : InstrId)]? := by
      rw [Frame.advance_values hrest, if_neg fun hc ↦ hpk (hc.2.trans (by rw [hfn])), hdone]
    rw [hk, Frame.advance_values hrest, hfn, hvalue]
    simp only [and_true]

include hf

theorem Mirror.resumed (h : Mirror m F p k i e fr fr') (hrest : fr.rest = j :: rest)
    (hy : m.instr? ⟨fr.block.fn, j⟩ = some y) (hcall : y.op = .call) {y' : Instr} (hvalue : y'.hasValue = y.hasValue)
    (hd : e.Extends d) : Mirror m F p k i d (fr.advance y v) (fr'.advance y' v) := by
  have hown : fr.block.fn = F.id → F.instr? j = some y := by
    intro hfn
    rw [hfn, Module.instr?_own hf] at hy
    exact hy
  refine h.advance hm hF hrest (fun hfn ↦ (hm.not_call (hown hfn) hcall).2) hvalue hd (fun hfn hload hp hk ↦ ?_)
    fun hfn hjp ↦ absurd hjp (hm.not_call (hown hfn) hcall).1
  rcases h.sides with hin | hout
  · exact absurd hload (hin.call_not_load hm hF hf ⟨j, rest, y, hrest, hy, hcall⟩ hp hk)
  · exact absurd hfn hout.fn

theorem Mirror.callers {callers callers' : List Frame} (h : List.Forall₂ (Mirror m F p k i e) callers callers')
    (hw : ∀ c ∈ callers, Waiting m c) (hd : e.Extends d) : List.Forall₂ (Mirror m F p k i d) callers callers' := by
  induction h with
  | nil => exact .nil
  | cons hc _ ih =>
    exact .cons (hc.extends hm hF hf (hw _ List.mem_cons_self) hd) (ih fun c hc ↦ hw c (List.mem_cons_of_mem _ hc))

end frames

/-! ### The module with the merge -/

/-- An operand of an instruction and what stands for it in frames side by side. -/
inductive Shown (fr fr' : Frame) : Option Value → Option Value → Prop
  | same {o : Option Value} : (∀ id t, o = some (.instr id t) → fr'.values[id]? = fr.values[id]?) → Shown fr fr' o o
  | moved {id id' : InstrId} {t t' : Ty} : fr'.values[id']? = fr.values[id]? →
      Shown fr fr' (some (.instr id t)) (some (.instr id' t'))

section merged

variable {m m' : Module} {F : Function} {b c j k p : Nat} {B : Block} {rest mid : List Nat}
  {x i y : Instr} {e d : Engine} {fr fr' : Frame} {v : UInt64} {o o' : Option Value} {trace : List String}

theorem operand_both (hargs : fr'.args = fr.args) (h : Shown fr fr' o o') : Both (fun v v' d d' ↦ v' = v ∧ d' = d)
    (fun d d' ↦ d' = d) ((operand m trace fr o).run.run e) ((operand m' trace fr' o').run.run e) := by
  unfold operand
  cases h with
  | moved h =>
    dsimp only
    rw [h]
    split
    · exact .ok ⟨rfl, rfl⟩
    · exact .raise rfl
  | same h =>
    cases o with
    | none => exact .raise rfl
    | some w =>
      cases w with
      | instr id t =>
        dsimp only
        rw [h id t rfl]
        split
        · exact .ok ⟨rfl, rfl⟩
        · exact .raise rfl
      | param f n t =>
        dsimp only
        rw [hargs]
        exact .same _
      | func f t => exact .same _
      | const c o => exact .same _

theorem operands_both (hargs : fr'.args = fr.args) {os os' : List (Option Value)}
    (h : List.Forall₂ (Shown fr fr') os os') : Both (fun vs vs' d d' ↦ vs' = vs ∧ d' = d) (fun d d' ↦ d' = d)
    ((os.mapM (operand m trace fr)).run.run e)
      ((os'.mapM (operand m' trace fr')).run.run e) := by
  induction h generalizing e with
  | nil => exact .ok ⟨rfl, rfl⟩
  | cons ho _ ih =>
    rw [List.mapM_cons, List.mapM_cons]
    refine (operand_both hargs ho).bind ?_
    rintro v _ d _ ⟨rfl, rfl⟩
    refine ih.bind ?_
    rintro vs _ d' _ ⟨rfl, rfl⟩
    exact .ok ⟨rfl, rfl⟩

variable (hm : Merges F b p k mid x i) (hF : F.Orderly) (hf : m.function? F.id = some F)
  (hm' : m' = m.modifyFunction F.id fun _ ↦ F.replaced b k (F.result p))

include hm'

theorem merged_structs : m'.structs = m.structs := by
  rw [hm']
  rfl

include hf

theorem merged_function? (id : FuncId) :
    m'.function? id = if id = F.id then some (F.replaced b k (F.result p)) else m.function? id := by
  rw [hm']
  exact function?_modify hf _ id

theorem merged_outside (id : FuncId) (hid : id ≠ F.id) : m'.function? id = m.function? id := by
  rw [merged_function? hf hm', if_neg hid]

theorem merged_heading (id : FuncId) : (m.function? id = none ∧ m'.function? id = none) ∨
    ∃ f f', m.function? id = some f ∧ m'.function? id = some f' ∧ SameHeading f f' := by
  by_cases hid : id = F.id
  · subst hid
    exact .inr ⟨F, F.replaced b k (F.result p), hf, by rw [merged_function? hf hm', if_pos rfl], .replaced ..⟩
  · rw [merged_outside hf hm' id hid]
    cases m.function? id with
    | none => exact .inl ⟨rfl, rfl⟩
    | some f => exact .inr ⟨f, f, rfl, rfl, .refl f⟩

include hm hF

theorem merged_block? (id : BlockId) : m'.block? id =
    if id.fn = F.id then (m.block? id).map fun B ↦ { B with instrs := B.instrs.filter (· != k) } else m.block? id := by
  rw [Module.block?, merged_function? hf hm']
  split
  · rename_i hid
    rw [Option.bind_some, Module.block?, hid, hf, Option.bind_some]
    exact (Function.edited_replaced hF.toTidy hm.lists.2 _).blocks id.index
  · rfl

theorem Mirror.instr (h : Mirror m F p k i e fr fr') (hrest : fr.rest = j :: rest) (hjk : fr.block.fn = F.id → j ≠ k)
    (hy : m.instr? ⟨fr.block.fn, j⟩ = some y) : ∃ y', m'.instr? ⟨fr'.block.fn, j⟩ = some y' ∧ y.Alike y' ∧
      List.Forall₂ (Shown fr fr') y.operands y'.operands := by
  rw [h.block]
  rcases h.sides with hin | hout
  · obtain ⟨B, pre, hB, hlist⟩ := hin.place
    rw [hrest] at hlist
    rw [hin.fn, Module.instr?_own hf] at hy
    have hl : F.Lists fr.block.index j y := ⟨⟨B, hB, by simp [hlist]⟩, hy⟩
    have htype : (F.result p).type = (F.result k).type := by
      rw [Function.result_eq hm.earlier, Function.result_eq hm.later]
      exact hm.same.type
    refine ⟨y.rewire (F.result k) (F.result p), ?_, Instr.alike_rewire htype y, ?_⟩
    · rw [hin.fn, Module.instr?, merged_function? hf hm', if_pos rfl, Option.bind_some]
      exact (Function.edited_replaced hF.toTidy hm.lists.2 _).kept hl (by simpa using hjk hin.fn)
    · refine List.forall₂_map_right_iff.mpr (List.forall₂_same.mpr fun o ho ↦ ?_)
      split
      · rename_i heq
        subst heq
        rw [Function.result_eq hm.later] at ho ⊢
        rw [Function.result_eq hm.earlier]
        have hpk : (⟨F.id, p⟩ : InstrId) ≠ ⟨F.id, k⟩ := fun heq ↦ hm.ne hF.toTidy (InstrId.mk.inj heq).2
        refine .moved ((h.values _ hpk).trans (hin.done fun hk ↦ ?_).symm)
        rw [hrest] at hk
        exact absurd ho (not_reads hF hB hlist hy hk _)
      · rename_i hne
        refine .same fun id t heq ↦ h.values id ?_
        rintro rfl
        subst heq
        exact hne (congrArg some (hF.refers hl ho))
  · refine ⟨y, ?_, .refl y, List.forall₂_same.mpr fun o ho ↦ .same fun id t _ ↦ ?_⟩
    · rw [Module.instr?, merged_outside hf hm' _ hout.fn]
      exact hy
    · by_cases hid : id = ⟨F.id, k⟩
      · rw [hid, (hout.none k).1, (hout.none k).2]
      · exact h.values id hid

theorem Mirror.goto_both (h : Mirror m F p k i e fr fr') (hdone : fr.block.fn = F.id →
      fr.values[(⟨F.id, k⟩ : InstrId)]? = fr.values[(⟨F.id, p⟩ : InstrId)]?) (t : Option (Option BlockId))
    (ht : fr.block.fn = F.id → ∀ id, t = some (some id) → id.fn = F.id) :
    Both (fun f f' d d' ↦ d' = d ∧ d = e ∧ Mirror m F p k i d f f') (fun d d' ↦ d' = d) ((goto m fr t).run.run e)
      ((goto m' fr' t).run.run e) := by
  unfold goto
  split
  swap
  · exact .meaningless rfl
  rename_i id
  rw [merged_block? hm hF hf hm']
  cases hB : m.block? id with
  | none =>
    have hnone : (if id.fn = F.id then (none : Option Block).map fun B ↦ { B with instrs := B.instrs.filter (· != k) }
        else none) = none := by split <;> rfl
    rw [hnone]
    exact .meaningless rfl
  | some B =>
    by_cases hid : id.fn = F.id
    · rw [if_pos hid]
      have hB' : F.blocks[id.index]? = some B := by
        rw [Module.block?, hid, hf, Option.bind_some] at hB
        exact hB
      refine .ok ⟨rfl, rfl, h.fn, h.name, h.args, rfl, h.mark, h.values,
        .inl ⟨hid, ⟨B, [], hB', rfl⟩, rfl, fun hp hk ↦ ?_, fun _ ↦ ?_⟩⟩
      · exfalso
        obtain ⟨hp', -⟩ := hm.lists
        obtain rfl : id.index = b := hF.apart ⟨⟨B, hB', hk⟩, hm.later⟩ hm.lists.2
        obtain ⟨C, hC, hpC⟩ := hp'.listed
        exact hp (Option.some.inj (hB'.symm.trans hC) ▸ hpC)
      · rcases h.sides with hin | hout
        · exact hdone hin.fn
        · exact (hout.none k).1.trans (hout.none p).1.symm
    · rw [if_neg hid]
      rcases h.sides with hin | hout
      · exact absurd (ht hin.fn id rfl) hid
      · exact .ok ⟨rfl, rfl, h.fn, h.name, h.args, rfl, h.mark, h.values, .inr ⟨hid, rfl, hout.none⟩⟩

theorem enter_both (depth : Nat) (f : FuncId) (args : List UInt64) :
    Both (fun g g' d d' ↦ d' = d ∧ d = e ∧ Mirror m F p k i d g g') (fun d d' ↦ d' = d)
      ((enter m trace depth f args).run.run e) ((enter m' trace depth f args).run.run e) := by
  have hfresh : ∀ id : InstrId, (∅ : Std.HashMap InstrId UInt64)[id]? = none := fun id ↦ Std.HashMap.getElem?_empty
  unfold enter
  by_cases hid : f = F.id
  · subst hid
    have hname : (F.replaced b k (F.result p)).name = F.name := (SameHeading.replaced ..).name
    have hblock := (Function.edited_replaced hF.toTidy hm.lists.2 (F.result p)).blocks 0
    rw [hf, merged_function? hf hm', if_pos rfl]
    dsimp only
    rw [run_bind_ok run_get, run_bind_ok run_get]
    split
    · exact .raise rfl
    rw [hblock, hname]
    cases hB : F.blocks[0]? with
    | none => exact .raise rfl
    | some B =>
      refine .ok ⟨rfl, rfl, rfl, rfl, rfl, rfl, rfl, fun _ _ ↦ rfl, .inl ⟨rfl, ⟨B, [], hB, rfl⟩, rfl, fun hp hk ↦ ?_,
        fun _ ↦ ?_⟩⟩
      · exfalso
        obtain ⟨hp', -⟩ := hm.lists
        obtain rfl : 0 = b := hF.apart ⟨⟨B, hB, hk⟩, hm.later⟩ hm.lists.2
        obtain ⟨C, hC, hpC⟩ := hp'.listed
        exact hp (Option.some.inj (hB.symm.trans hC) ▸ hpC)
      · exact (hfresh _).trans (hfresh _).symm
  · rw [merged_outside hf hm' f hid]
    cases hg : m.function? f with
    | none => exact .meaningless rfl
    | some g =>
      dsimp only
      rw [run_bind_ok run_get]
      split
      · exact .raise rfl
      cases g.blocks[0]? with
      | none => exact .raise rfl
      | some B =>
        exact .ok ⟨rfl, rfl, rfl, rfl, rfl, rfl, rfl, fun _ _ ↦ rfl, .inr ⟨hid, rfl, fun j ↦ ⟨hfresh _, hfresh _⟩⟩⟩

/-- What becomes of two runs side by side. -/
inductive Onward (m : Module) (F : Function) (p k : Nat) (i : Instr) (d : Engine) : Progress → Progress → Prop
  | running {fs fs' : List Frame} : Mirrors m F p k i d fs fs' → Onward m F p k i d (.running fs) (.running fs')
  | returned {r : Returned} : Onward m F p k i d (.returned r) (.returned r)

theorem resume_both {callers callers' : List Frame} (h : List.Forall₂ (Mirror m F p k i e) callers callers')
    (hw : ∀ c ∈ callers, Waiting m c) (r : Returned) : Both (fun pr pr' d d' ↦ d' = d ∧ Onward m F p k i d pr pr')
      (fun d d' ↦ d' = d) ((resume m callers r).run.run e) ((resume m' callers' r).run.run e) := by
  cases h with
  | nil => exact .ok ⟨rfl, .returned⟩
  | @cons caller caller' outer outer' hc houter =>
    obtain ⟨j, rest, y, hrest, hy, hcall⟩ := hw _ List.mem_cons_self
    have hown : caller.block.fn = F.id → j ≠ k := by
      intro hfn
      rw [hfn, Module.instr?_own hf] at hy
      exact (hm.not_call hy hcall).2
    obtain ⟨y', hy', halike, -⟩ := hc.instr hm hF hf hm' hrest hown hy
    have hhead' : caller'.rest.head? = some j := by
      rcases hc.sides with hin | hout
      · rw [hin.rest, hrest, List.filter_cons_of_pos (by simpa using hown hin.fn)]
        rfl
      · rw [hout.rest, hrest]
        rfl
    have hhead : caller.rest.head? = some j := by rw [hrest]; rfl
    have hnames := Mirror.names (.cons hc houter)
    unfold resume
    dsimp only
    rw [hhead, hhead', Option.bind_some, Option.bind_some, hy, hy', hnames]
    dsimp only
    rw [halike.type, receive_structs (merged_structs hm')]
    refine (Both.moves (receive_moves (Engine.Extends.allows m) Engine.Extends.writes y.type r) e).bind ?_
    rintro v _ d _ ⟨rfl, rfl, hd⟩
    have hvalue : y'.hasValue = y.hasValue := by rw [Instr.hasValue, halike.type, Instr.hasValue]
    have hw' : ∀ c ∈ outer, Waiting m c := fun c hc ↦ hw c (List.mem_cons_of_mem _ hc)
    exact .ok ⟨rfl, .running (.cons (hc.resumed hm hF hf hrest hy hcall hvalue hd)
      (Mirror.callers hm hF hf houter hw' hd) hw')⟩

theorem leave_both {callers callers' : List Frame} (h : Mirror m F p k i e fr fr')
    (hcallers : List.Forall₂ (Mirror m F p k i e) callers callers') (hw : ∀ c ∈ callers, Waiting m c) (v : UInt64) :
    Both (fun pr pr' d d' ↦ d' = d ∧ Onward m F p k i d pr pr') (fun d d' ↦ d' = d)
      ((leave m trace fr callers v).run.run e) ((leave m' trace fr' callers' v).run.run e) := by
  have hret : ((m'.function? fr'.fn).map (·.ret)).getD .untyped = ((m.function? fr.fn).map (·.ret)).getD .untyped := by
    rw [h.fn]
    rcases merged_heading hf hm' fr.fn with ⟨hg, hg'⟩ | ⟨g, g', hg, hg', hh⟩
    · rw [hg, hg']
    · rw [hg, hg', Option.map_some, Option.map_some, Function.ret, hh.signature, Function.ret]
  unfold leave
  rw [hret]
  dsimp only
  rw [returnedBytes_structs (merged_structs hm'), h.mark]
  refine (Both.moves (returnedBytes_moves (Engine.Extends.allows m) _ v) e).bind ?_
  rintro bytes _ _ d ⟨rfl, rfl, hd⟩
  refine (Both.moves (c := modify fun e ↦
    { e with memory := { e.memory with stack := e.memory.stack.release fr.mark } })
    (fun e ↦ Engine.Extends.release e fr.mark) d).bind ?_
  rintro ⟨⟩ _ _ d' ⟨-, rfl, hd'⟩
  exact resume_both hm hF hf hm' (Mirror.callers hm hF hf hcallers hw ((Engine.Extends.allows m).trans hd hd')) hw _

def Elsewhere (F : Function) (k : Nat) (fr : Frame) : Prop := fr.block.fn = F.id → fr.rest.head? ≠ some k

theorem jump_both {callers callers' : List Frame} (h : Mirror m F p k i e fr fr')
    (hcallers : List.Forall₂ (Mirror m F p k i e) callers callers') (hw : ∀ c ∈ callers, Waiting m c)
    (hrest : fr.rest = j :: rest) (hjk : fr.block.fn = F.id → j ≠ k) (hy : m.instr? ⟨fr.block.fn, j⟩ = some y)
    (hterm : y.op.isTerminator = true) (n : Nat) :
    Both (fun pr pr' d d' ↦ d' = d ∧ Onward m F p k i d pr pr') (fun d d' ↦ d' = d)
      ((do return .running ((← goto m fr y.targets[n]?) :: callers) : Run Progress).run.run e)
      ((do return .running ((← goto m' fr' y.targets[n]?) :: callers') : Run Progress).run.run e) := by
  refine (h.goto_both hm hF hf hm' (fun hfn ↦ ?_) _ fun hfn id ht ↦ ?_).bind ?_
  · rcases h.sides with hin | hout
    swap
    · exact absurd hfn hout.fn
    refine hin.done fun hk ↦ ?_
    obtain ⟨B, pre, hB, hlist⟩ := hin.place
    rw [hfn, Module.instr?_own hf] at hy
    obtain ⟨ks, hlast⟩ := hF.last hB ⟨⟨B, hB, by simp [hlist, hrest]⟩, hy⟩ hterm
    have hnodup := hF.once hB
    rw [hlist, hrest] at hlast
    obtain ⟨rfl, -⟩ : rest = [] ∧ pre = ks := by
      rcases List.eq_nil_or_concat rest with rfl | ⟨rest', l, rfl⟩
      · exact ⟨rfl, (List.append_inj' hlast rfl).1⟩
      · exfalso
        rw [hlist, hrest] at hnodup
        rw [List.concat_eq_append, ← List.cons_append, ← List.append_assoc] at hlast
        obtain rfl : l = j := by simpa using (List.append_inj' hlast rfl).2
        exact (List.nodup_cons.mp (List.nodup_append.mp hnodup).2.1).1 (by simp)
    rw [hrest] at hk
    exact absurd (List.mem_singleton.mp hk).symm (hjk hfn)
  · rcases h.sides with hin | hout
    swap
    · exact absurd hfn hout.fn
    obtain ⟨B, pre, hB, hlist⟩ := hin.place
    rw [hfn, Module.instr?_own hf] at hy
    have := hF.targets ⟨⟨B, hB, by simp [hlist, hrest]⟩, hy⟩ _ (List.mem_of_getElem? ht)
    simpa using this
  · rintro g g' d _ ⟨rfl, rfl, hg⟩
    exact .ok ⟨rfl, .running (.cons hg hcallers hw)⟩

theorem computed_both {callers callers' : List Frame} {ops : List UInt64} {y' : Instr} (h : Mirror m F p k i e fr fr')
    (hcallers : List.Forall₂ (Mirror m F p k i e) callers callers') (hw : ∀ c ∈ callers, Waiting m c)
    (hs : e.memory.Separate) (hrest : fr.rest = j :: rest) (hjk : fr.block.fn = F.id → j ≠ k)
    (hy : m.instr? ⟨fr.block.fn, j⟩ = some y) (halike : y.Alike y') (hops : fr.HasAll e y.operands ops)
    (hcall : y.op ≠ .call) :
    Both (fun pr pr' d d' ↦ d' = d ∧ Onward m F p k i d pr pr') (fun d d' ↦ d' = d)
      ((do
        let v ← compute m trace y ops
        return .running (fr.advance y v :: callers) : Run Progress).run.run e)
      ((do
        let v ← compute m' trace y' ops
        return .running (fr'.advance y' v :: callers') : Run Progress).run.run e) := by
  have hsame : compute m' trace y' ops = compute m trace y ops := by
    rw [compute_structs (merged_structs hm')]
    exact compute_congr halike.op halike.type (firstType_alike halike) halike.pred halike.index
      (fun _ ↦ halike.allocated) ops
  have hvalue : y'.hasValue = y.hasValue := by rw [Instr.hasValue, halike.type, Instr.hasValue]
  rw [hsame]
  cases hc : (compute m trace y ops).run.run e with
  | mk r d =>
  cases r with
  | error s =>
    rw [run_bind_error hc, run_bind_error hc]
    exact .error rfl rfl
  | ok v =>
    rw [run_bind_ok hc, run_bind_ok hc]
    have hd : e.Extends d := by
      have hmoves : Moves Engine.Extends (compute m trace y ops) :=
        compute_moves (Engine.Extends.allows m) y ops fun _ ↦ Engine.Extends.writes
      have := hmoves e
      rwa [hc] at this
    refine .ok
      ⟨rfl, .running (.cons (h.advance hm hF hrest hjk hvalue hd ?_ ?_) (Mirror.callers hm hF hf hcallers hw hd) hw)⟩
    · intro hfn hload hp hk
      have hgrow : Moves (fun e d ↦ e.memory.Grows d.memory) (compute m trace y ops) :=
        compute_moves (Memory.Grows.allows m) y ops fun hwrites ↦ ?_
      · have := hgrow e
        rwa [hc] at this
      exfalso
      rcases h.sides with hin | hout
      swap
      · exact hout.fn hfn
      obtain ⟨B, pre, hB, hlist⟩ := hin.place
      obtain ⟨-, mid₁, mid₂, post, hmid, htail⟩ := hm.zone hF hB hlist hp hk
      rw [hfn, Module.instr?_own hf] at hy
      rw [hrest] at htail
      cases mid₂ with
      | nil => exact hjk hfn (List.cons.inj htail).1
      | cons l mid₂ =>
        obtain ⟨rfl, -⟩ := List.cons.inj htail
        rcases hwrites with hstore | ⟨hloads, hstruct⟩
        · cases hm.same with
          | computed hx hi => exact (valueKey?_inv hi).2.2.1 hload
          | loaded _ _ _ _ hquiet => exact (hquiet j (by simp [hmid]) y hy).1 hstore
        · have := (hF.loads ⟨⟨B, hB, by simp [hlist, hrest]⟩, hy⟩ hloads).2
          rw [hstruct] at this
          cases this
    · rintro hfn rfl
      rcases h.sides with hin | hout
      swap
      · exact absurd hfn hout.fn
      obtain rfl : x = y := by
        rw [hfn, Module.instr?_own hf] at hy
        exact Option.some.inj (hm.earlier.symm.trans hy)
      exact due_of_compute hm hF hs hfn hrest (hin.done fun _ ↦ by rw [hrest]; exact List.mem_cons_self) hops hc

theorem call_both {callers callers' : List Frame} {ops : List UInt64} {y' : Instr} (h : Mirror m F p k i e fr fr')
    (hcallers : List.Forall₂ (Mirror m F p k i e) callers callers') (hw : ∀ c ∈ callers, Waiting m c)
    (hrest : fr.rest = j :: rest) (hy : m.instr? ⟨fr.block.fn, j⟩ = some y) (halike : y.Alike y') (hcall : y.op = .call)
    (depth : Nat) :
    Both (fun pr pr' d d' ↦ d' = d ∧ Onward m F p k i d pr pr') (fun d d' ↦ d' = d)
      ((match y.callee.bind m.function? with
        | none => Machine.meaningless
        | some f =>
          if f.name = memsetName then do
            fill trace ops
            return .running (fr.advance y 0 :: callers)
          else do
            let callee ← enter m trace depth f.id ops
            return .running (callee :: fr :: callers) : Run Progress).run.run e)
      ((match y.callee.bind m'.function? with
        | none => Machine.meaningless
        | some f =>
          if f.name = memsetName then do
            fill trace ops
            return .running (fr'.advance y' 0 :: callers')
          else do
            let callee ← enter m' trace depth f.id ops
            return .running (callee :: fr' :: callers') : Run Progress).run.run e) := by
  cases y.callee with
  | none => exact .meaningless rfl
  | some id =>
    rw [Option.bind_some, Option.bind_some]
    rcases merged_heading hf hm' id with ⟨hg, hg'⟩ | ⟨g, g', hg, hg', hh⟩
    · rw [hg, hg']
      exact .meaningless rfl
    rw [hg, hg']
    dsimp only
    rw [hh.name, hh.id]
    have hvalue : y'.hasValue = y.hasValue := by rw [Instr.hasValue, halike.type, Instr.hasValue]
    split
    · have hmoves : Moves Engine.Extends (fill trace ops) := fill_moves (Engine.Extends.allows m)
        Engine.Extends.writes ops
      refine (Both.moves hmoves e).bind ?_
      rintro ⟨⟩ _ d _ ⟨-, rfl, hd⟩
      exact .ok ⟨rfl, .running (.cons (h.resumed hm hF hf hrest hy hcall hvalue hd)
        (Mirror.callers hm hF hf hcallers hw hd) hw)⟩
    · refine (enter_both hm hF hf hm' depth g.id ops).bind ?_
      rintro f f' d _ ⟨rfl, rfl, hentered⟩
      refine .ok ⟨rfl, .running (.cons hentered (.cons h hcallers) fun c hc ↦ ?_)⟩
      rcases List.mem_cons.mp hc with rfl | hc
      · exact ⟨j, rest, y, hrest, hy, hcall⟩
      · exact hw c hc

/-- Away from the instruction that is taken out, both runs take the same step. -/
theorem step_both {frames frames' : List Frame} (h : Mirrors m F p k i e frames frames') (hs : e.memory.Separate)
    (hat : ∀ fr ∈ frames.head?, Elsewhere F k fr) : Both (fun pr pr' d d' ↦ d' = d ∧ Onward m F p k i d pr pr')
      (fun d d' ↦ d' = d) ((step m frames).run.run e) ((step m' frames').run.run e) := by
  cases h with
  | @cons fr fr' callers callers' htop hcallers hw =>
  have hnames : (fr' :: callers').map (·.name) = (fr :: callers).map (·.name) := Mirror.names (.cons htop hcallers)
  have hlength : (fr' :: callers').length = (fr :: callers).length := by simp [hcallers.length_eq]
  unfold step
  dsimp only
  rw [hnames, hlength]
  generalize (fr :: callers).map (·.name) = trace
  generalize (fr :: callers).length = depth
  cases hrest : fr.rest with
  | nil =>
    have hrest' : fr'.rest = [] := by
      rcases htop.sides with hin | hout
      · rw [hin.rest, hrest]
        rfl
      · rw [hout.rest, hrest]
    rw [hrest']
    exact .raise rfl
  | cons j rest =>
    have hjk : fr.block.fn = F.id → j ≠ k := by
      rintro hfn rfl
      exact hat fr rfl hfn (by rw [hrest]; rfl)
    obtain ⟨rest', hrest'⟩ : ∃ rest', fr'.rest = j :: rest' := by
      rcases htop.sides with hin | hout
      · exact ⟨_, by rw [hin.rest, hrest, List.filter_cons_of_pos (by simpa using hjk hin.fn)]⟩
      · exact ⟨rest, by rw [hout.rest, hrest]⟩
    rw [hrest']
    dsimp only
    cases hy : m.instr? ⟨fr.block.fn, j⟩ with
    | none =>
      have hnone : m'.instr? ⟨fr'.block.fn, j⟩ = none := by
        rw [htop.block]
        rcases htop.sides with hin | hout
        · obtain ⟨B, pre, hB, hlist⟩ := hin.place
          obtain ⟨z, hz⟩ := hF.found hB (k := j) (by simp [hlist, hrest])
          rw [hin.fn, Module.instr?_own hf, hz] at hy
          cases hy
        · rw [Module.instr?, merged_outside hf hm' _ hout.fn]
          exact hy
      rw [hnone]
      exact .meaningless rfl
    | some y =>
    obtain ⟨y', hy', halike, hshown⟩ := htop.instr hm hF hf hm' hrest hjk hy
    rw [hy']
    dsimp only
    have hread : ∀ vs d, (y.operands.mapM (operand m trace fr)).run.run e = (.ok vs, d) →
        fr.HasAll d y.operands vs ∧ e.Extends d ∧ e.memory.Grows d.memory := by
      intro vs d hrun
      have hread : ∀ {R : Engine → Engine → Prop}, Allows m R → Moves R (y.operands.mapM (operand m trace fr)) :=
        fun h ↦ h.mapM (operand_moves h fr) y.operands
      have hext := hread (Engine.Extends.allows m) e
      have hgrow := hread (Memory.Grows.allows m) e
      rw [hrun] at hext hgrow
      exact ⟨.of_run hrun, hext, hgrow⟩
    refine ((operands_both htop.args hshown).and hread).bind ?_
    rintro ops _ _ d ⟨⟨rfl, rfl⟩, hops, hext, hgrow⟩
    have htop' := htop.after ⟨hext, fun _ ↦ hgrow⟩
    have hcallers' := Mirror.callers hm hF hf hcallers hw hext
    rw [halike.op, halike.targets, halike.callee]
    split
    · rename_i hop
      exact jump_both hm hF hf hm' htop' hcallers' hw hrest hjk hy (by rw [hop]; rfl) 0
    · rename_i hop
      split
      · exact jump_both hm hF hf hm' htop' hcallers' hw hrest hjk hy (by rw [hop]; rfl) _
      · exact .meaningless rfl
    · exact leave_both hm hF hf hm' htop' hcallers' hw _
    · rename_i hop
      exact call_both hm hF hf hm' htop' hcallers' hw hrest hy halike hop _
    · rename_i hop
      exact computed_both hm hF hf hm' htop' hcallers' hw (hgrow.separate hs) hrest hjk hy halike hops hop

end merged

section

variable {m : Module} {F : Function} {b k p : Nat} {mid : List Nat} {x i : Instr} {e : Engine} {fr fr' : Frame}
  (hm : Merges F b p k mid x i) (hF : F.Orderly) (hf : m.function? F.id = some F)

include hm hF

/-- Behind the instruction that was taken out frames are side by side again. -/
theorem Mirror.behind (h : Mirror m F p k i e fr fr') (hin : Inside m F p k i e fr fr') {rest : List Nat}
    (hrest : fr.rest = k :: rest) : p ∉ fr.rest ∧ k ∉ rest ∧ ∀ {v : UInt64}, (fr.values[(⟨F.id, p⟩ : InstrId)]? =
      if i.hasValue then some v else fr.values[(⟨F.id, k⟩ : InstrId)]?) → Mirror m F p k i e (fr.advance i v) fr' := by
  obtain ⟨B, pre, hB, hlist⟩ := hin.place
  rw [hrest] at hlist
  have hnodup := hF.once hB
  obtain rfl : fr.block.index = b := hF.apart ⟨⟨B, hB, by simp [hlist]⟩, hm.later⟩ hm.lists.2
  obtain ⟨B', pre', post, hB', hlist'⟩ := hm.between
  obtain rfl : B = B' := Option.some.inj (hB.symm.trans hB')
  have hk : k ∉ rest := by
    rw [hlist] at hnodup
    exact (List.nodup_cons.mp (List.nodup_append.mp hnodup).2.1).1
  have hp : p ∉ fr.rest := by
    intro hp
    rw [hrest] at hp
    have hp := (List.mem_cons.mp hp).resolve_left (hm.ne hF.toTidy)
    have hpk : [p, k].Sublist B.instrs := by
      rw [hlist']
      exact (List.cons_sublist_cons.mpr (List.singleton_sublist.mpr (by simp))).trans (List.sublist_append_right ..)
    have hkp : [k, p].Sublist B.instrs := by
      rw [hlist]
      exact (List.cons_sublist_cons.mpr (List.singleton_sublist.mpr hp)).trans (List.sublist_append_right ..)
    have := ((pair_sublist_iff hnodup).mp hpk).2
    have := ((pair_sublist_iff hnodup).mp hkp).2
    omega
  refine ⟨hp, hk, fun {v} hv ↦ ?_⟩
  obtain ⟨h1, h2, h3, h4, h5, h6⟩ := Frame.advance_same (i := i) (v := v) hrest
  have hvalue : ∀ id : InstrId, (fr.advance i v).values[id]? =
      if i.hasValue ∧ id = ⟨F.id, k⟩ then some v else fr.values[id]? := by
    intro id
    rw [Frame.advance_values hrest, hin.fn]
  have hpk : (⟨F.id, p⟩ : InstrId) ≠ ⟨F.id, k⟩ := fun heq ↦ hm.ne hF.toTidy (InstrId.mk.inj heq).2
  refine ⟨h.fn.trans h1.symm, h.name.trans h2.symm, h.args.trans h3.symm, h.block.trans h4.symm, h.mark.trans h5.symm,
    fun id hid ↦ ?_, .inl ⟨by rw [h4, hin.fn], ⟨B, pre ++ [k], by rw [h4]; exact hB, by rw [h6, hlist]; simp⟩, ?_,
      fun _ hmem ↦ absurd (h6 ▸ hmem) hk, fun _ ↦ ?_⟩⟩
  · rw [hvalue, if_neg fun hc ↦ hid hc.2, h.values id hid]
  · rw [h6, hin.rest, hrest, List.filter_cons_of_neg (by simp)]
  · rw [hvalue ⟨F.id, p⟩, if_neg fun hc ↦ hpk hc.2, hvalue, hv]
    simp only [and_true]

include hf

theorem Mirrors.skip {frames frames' : List Frame} (h : Mirrors m F p k i e frames frames')
    (hat : ¬ ∀ fr ∈ frames.head?, Elsewhere F k fr) : ∃ frames₁, (step m frames).run.run e =
    (.ok (.running frames₁), e) ∧
      Mirrors m F p k i e frames₁ frames' ∧ ∀ fr ∈ frames₁.head?, Elsewhere F k fr := by
  cases h with
  | @cons fr fr' callers callers' htop hcallers hw =>
  have hat : fr.block.fn = F.id ∧ fr.rest.head? = some k := by
    by_contra hcontra
    refine hat fun g hg hfn hhead ↦ hcontra ?_
    cases hg
    exact ⟨hfn, hhead⟩
  obtain ⟨hfn, hhead⟩ := hat
  obtain ⟨rest, hrest⟩ : ∃ rest, fr.rest = k :: rest := by
    obtain ⟨rest, hrest⟩ := List.head?_eq_some_iff.mp hhead
    exact ⟨rest, hrest⟩
  rcases htop.sides with hin | hout
  swap
  · exact absurd hfn hout.fn
  obtain ⟨hp, hk, hbehind⟩ := htop.behind hm hF hin hrest
  obtain ⟨ops, v, hops, hsettled, hvalue⟩ := hin.due hp (by rw [hrest]; exact List.mem_cons_self)
  refine ⟨fr.advance i v :: callers, ?_, .cons (hbehind hvalue) hcallers hw, fun g hg hgfn hghead ↦ ?_⟩
  · have hi : m.instr? ⟨fr.block.fn, k⟩ = some i := by rw [hfn, Module.instr?_own hf, hm.later]
    have hpure := hm.same.pure
    unfold step
    dsimp only
    rw [hrest]
    dsimp only
    rw [hi]
    dsimp only
    rw [run_bind_ok hops.run]
    split <;> rename_i hop
    · rw [hop] at hpure; cases hpure
    · rw [hop] at hpure; cases hpure
    · rw [hop] at hpure; cases hpure
    · rw [hop] at hpure; cases hpure
    · rw [run_bind_ok (hsettled e _ (.refl i e))]
      rfl
  · cases hg
    obtain ⟨-, -, -, -, -, h6⟩ := Frame.advance_same (i := i) (v := v) hrest
    rw [h6] at hghead
    exact hk (List.mem_of_mem_head? hghead)

end

end CilSsa.Passes

