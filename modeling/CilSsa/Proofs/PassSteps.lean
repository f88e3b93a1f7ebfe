import CilSsa.Proofs.Rewriting

namespace CilSsa.Ssa

open CilSsa.Passes (SameHeading)

def Instr.rewire (old new : Value) (i : Instr) : Instr :=
  { i with operands := i.operands.map fun o ↦ if o = some old then some new else o }

theorem Instr.rewire_rewire (old new : Value) (i : Instr) : (i.rewire old new).rewire old new = i.rewire old new := by
  simp only [Instr.rewire, List.map_map, Instr.mk.injEq, true_and, and_true]
  refine List.map_congr_left fun o _ ↦ ?_
  by_cases ho : o = some old <;> simp [ho]

theorem Instr.rewire_of_not_mem {old : Value} {i : Instr} (h : some old ∉ i.operands) (new : Value) :
    i.rewire old new = i := by
  have hmap : (i.operands.map fun o ↦ if o = some old then some new else o) = i.operands := by
    refine (List.map_congr_left fun o ho ↦ if_neg ?_).trans (List.map_id _)
    rintro rfl
    exact h ho
  unfold Instr.rewire
  rw [hmap]

theorem Instr.mem_rewire {old new : Value} {i : Instr} {o : Option Value} (h : o ∈ (i.rewire old new).operands) :
    o ∈ i.operands ∧ o ≠ some old ∨ some old ∈ i.operands ∧ o = some new := by
  obtain ⟨o', ho', rfl⟩ := List.mem_map.mp h
  split
  · rename_i heq
    exact .inr ⟨heq ▸ ho', rfl⟩
  · rename_i hne
    exact .inl ⟨ho', hne⟩

theorem Instr.alike_rewire {old new : Value} (h : new.type = old.type) (i : Instr) : i.Alike (i.rewire old new) := by
  refine ⟨rfl, rfl, rfl, rfl, rfl, rfl, rfl, ?_⟩
  unfold Instr.types Instr.rewire
  rw [List.map_map]
  refine List.map_congr_left fun o _ ↦ ?_
  simp only [Function.comp]
  split
  · rename_i heq
    rw [heq, Option.map_some, Option.map_some, h]
  · rfl

theorem Instr.Typed.alike {i i' : Instr} (h : i.Typed) (ha : i.Alike i') : i'.Typed := by
  have htypes := ha.types
  unfold Instr.types at htypes
  refine ⟨fun a b hop ho ↦ ?_, fun a b hop ho ↦ ?_, fun a b hop ho ↦ ?_, fun hop hall ↦ ?_⟩
  · rw [ho] at htypes
    rcases hi : i.operands with _ | ⟨_ | x, _ | ⟨_ | y, _ | ⟨z, zs⟩⟩⟩ <;> rw [hi] at htypes <;> simp at htypes
    rw [ha.type, h.binary x y (ha.op ▸ hop) hi, htypes.1]
  · rw [ho] at htypes
    rcases hi : i.operands with _ | ⟨x, _ | ⟨y, _ | ⟨z, zs⟩⟩⟩ <;> rw [hi] at htypes <;> simp at htypes
    rw [ha.type, h.compare x y (ha.op ▸ hop) hi]
  · rw [ho] at htypes
    rcases hi : i.operands with _ | ⟨x, _ | ⟨y, _ | ⟨z, zs⟩⟩⟩ <;> rw [hi] at htypes <;> simp at htypes
    rw [ha.type, h.store x y (ha.op ▸ hop) hi]
  · rw [ha.type, ha.allocated, h.alloca (ha.op ▸ hop) (ha.allocated ▸ hall)]

namespace Function

variable {f g : Function} {b c j k : Nat} {i x : Instr} {v : Value}

theorem mem_instructions (f : Function) : (k, i) ∈ f.instructions ↔ ∃ b, f.Lists b k i := by
  unfold instructions instrsOf
  rw [List.mem_flatMap]
  constructor
  · rintro ⟨B, hB, hk⟩
    obtain ⟨b, hb⟩ := List.mem_iff_getElem?.mp hB
    rw [Array.getElem?_toList] at hb
    obtain ⟨k', hk', hi⟩ := List.mem_filterMap.mp hk
    obtain ⟨i', hi', heq⟩ := Option.map_eq_some_iff.mp hi
    cases heq
    exact ⟨b, ⟨B, hb, hk'⟩, hi'⟩
  · rintro ⟨b, ⟨B, hB, hk⟩, hi⟩
    refine ⟨B, List.mem_of_getElem? (by rw [Array.getElem?_toList]; exact hB), ?_⟩
    exact List.mem_filterMap.mpr ⟨k, hk, by rw [hi]; rfl⟩

theorem instr?_modify (f : Function) (k : Nat) (h : Instr → Instr) (j : Nat) :
    ({ f with instrs := f.instrs.modify k h } : Function).instr? j =
      if j = k then (f.instr? j).map h else f.instr? j := by
  simp only [instr?, Array.getElem?_modify, eq_comm]

theorem replaceAll_spec (old new : Value) (l : List (Nat × Instr)) (f : Function) :
    (∀ j, (l.foldl (fun g (i, _) ↦ g.replaceOperand i (some old) (some new)) f).instr? j =
      if j ∈ l.map (·.1) then (f.instr? j).map (·.rewire old new) else f.instr? j) ∧
    (l.foldl (fun g (i, _) ↦ g.replaceOperand i (some old) (some new)) f).blocks = f.blocks ∧
    (l.foldl (fun g (i, _) ↦ g.replaceOperand i (some old) (some new)) f).instrs.size = f.instrs.size := by
  induction l generalizing f with
  | nil => exact ⟨fun _ ↦ rfl, rfl, rfl⟩
  | cons p l ih =>
    obtain ⟨k, y⟩ := p
    rw [List.foldl_cons]
    obtain ⟨h1, h2, h3⟩ := ih (f.replaceOperand k (some old) (some new))
    have hone : ∀ j, (f.replaceOperand k (some old) (some new)).instr? j =
        if j = k then (f.instr? j).map (·.rewire old new) else f.instr? j := instr?_modify f k _
    refine ⟨fun j ↦ ?_, h2, h3.trans (by simp [replaceOperand])⟩
    rw [h1, hone]
    simp only [List.map_cons, List.mem_cons]
    by_cases hjk : j = k
    · by_cases hjl : j ∈ l.map (·.1)
      · rw [if_pos hjl, if_pos hjk, if_pos (.inl hjk), Option.map_map]
        exact congrArg (fun h ↦ (f.instr? j).map h) (funext fun x ↦ Instr.rewire_rewire old new x)
      · rw [if_neg hjl, if_pos hjk, if_pos (.inl hjk)]
    · by_cases hjl : j ∈ l.map (·.1)
      · rw [if_pos hjl, if_neg hjk, if_pos (.inr hjl)]
      · rw [if_neg hjl, if_neg hjk, if_neg (by simp [hjk, hjl])]

theorem removeFrom_of_not_mem (h : ∀ B, f.blocks[b]? = some B → k ∉ B.instrs) : f.removeFrom b k = f := by
  unfold removeFrom
  rw [if_neg]
  cases hB : f.blocks[b]? with
  | none => simp
  | some B => simpa using h B hB

theorem edited_removeFrom (hf : f.Tidy) (hl : f.Lists b k i) :
    Edited f (f.removeFrom b k) (· != k) fun _ x ↦ x := by
  obtain ⟨B, hB, hk⟩ := hl.listed
  have heq : f.removeFrom b k = { f with
      blocks := f.blocks.modify b fun b ↦ { b with instrs := b.instrs.erase k }
      instrs := f.instrs.modify k fun x ↦ { x with home := none } } := by
    unfold removeFrom
    rw [if_pos (by simp [hB, hk])]
  have hinstr : ∀ j, (f.removeFrom b k).instr? j =
      if j = k then (f.instr? j).map (fun x ↦ { x with home := none }) else f.instr? j := by
    intro j
    rw [heq]
    simp only [instr?, Array.getElem?_modify, eq_comm]
  refine ⟨SameHeading.removeFrom f b k, by rw [heq]; simp, ?_, ?_, ?_⟩
  · intro c
    rw [heq]
    dsimp only
    rw [Array.getElem?_modify]
    by_cases hbc : b = c
    · subst hbc
      rw [if_pos rfl, hB, Option.map_some, Option.map_some, (hf.once hB).erase_eq_filter]
    · rw [if_neg hbc]
      cases hC : f.blocks[c]? with
      | none => rfl
      | some C =>
        have hnot : k ∉ C.instrs := fun hkC ↦ hbc (hf.apart hl ⟨⟨C, hC, hkC⟩, hl.found⟩)
        rw [Option.map_some, List.filter_eq_self.mpr]
        intro j hj
        rw [bne_iff_ne]
        rintro rfl
        exact hnot hj
  · intro c j x hx hj
    rw [hinstr, if_neg (by simpa using hj), hx.found]
  · intro j x hx
    rw [hinstr, hx]
    by_cases hjk : j = k
    · rw [if_pos hjk]
      exact ⟨_, rfl, rfl, rfl, rfl, by simp [hjk]⟩
    · rw [if_neg hjk]
      exact ⟨_, rfl, rfl, rfl, rfl, by simp [hjk]⟩

/-- Function `f` without instruction `k` of block `b`, and with `v` for its result. -/
def replaced (f : Function) (b k : Nat) (v : Value) : Function := (f.replaceAllUses (f.result k) v).removeFrom b k

theorem edited_replaced (hf : f.Tidy) (hl : f.Lists b k i) (v : Value) :
    Edited f (f.replaced b k v) (· != k) fun _ x ↦ x.rewire (f.result k) v := by
  obtain ⟨h1, h2, h3⟩ := replaceAll_spec (f.result k) v f.instructions f
  have hinstr : ∀ {c j : Nat} {x : Instr}, f.Lists c j x →
      (f.replaceAllUses (f.result k) v).instr? j = some (x.rewire (f.result k) v) := by
    intro c j x hx
    rw [replaceAllUses, h1, if_pos (List.mem_map.mpr ⟨(j, x), f.mem_instructions.mpr ⟨c, hx⟩, rfl⟩), hx.found]
    rfl
  have hsame : ∀ {j : Nat} {x : Instr}, f.instr? j = some x → ∃ y, (f.replaceAllUses (f.result k) v).instr? j = some y ∧
      y.type = x.type ∧ y.op = x.op ∧ y.targets = x.targets ∧ y.home = x.home := by
    intro j x hx
    rw [replaceAllUses, h1, hx]
    split
    · exact ⟨_, rfl, rfl, rfl, rfl, rfl⟩
    · exact ⟨_, rfl, rfl, rfl, rfl, rfl⟩
  have hblocks : (f.replaceAllUses (f.result k) v).blocks = f.blocks := h2
  have hheading := SameHeading.replaceAllUses f (f.result k) v
  obtain ⟨B, hB, hk⟩ := hl.listed
  have hmod : f.replaced b k v = { f.replaceAllUses (f.result k) v with
      blocks := f.blocks.modify b fun b ↦ { b with instrs := b.instrs.erase k }
      instrs := (f.replaceAllUses (f.result k) v).instrs.modify k fun x ↦ { x with home := none } } := by
    unfold replaced removeFrom
    rw [hblocks, if_pos (by simp [hB, hk])]
  have hout : ∀ j, (f.replaced b k v).instr? j = if j = k then
      ((f.replaceAllUses (f.result k) v).instr? j).map (fun x ↦ { x with home := none })
      else (f.replaceAllUses (f.result k) v).instr? j := by
    intro j
    rw [hmod]
    simp only [instr?, Array.getElem?_modify, eq_comm]
  refine ⟨SameHeading.replaced f _ v b k, by rw [hmod, Array.size_modify]; exact h3, ?_, ?_, ?_⟩
  · intro c
    have hrem := (edited_removeFrom hf hl).blocks c
    rw [← hrem, hmod]
    unfold removeFrom
    rw [if_pos (by simp [hB, hk])]
  · intro c j x hx hj
    rw [hout, if_neg (by simpa using hj), hinstr hx]
  · intro j x hx
    obtain ⟨y, hy, ht, hop, htar, hhome⟩ := hsame hx
    rw [hout, hy]
    by_cases hjk : j = k
    · rw [if_pos hjk]
      exact ⟨_, rfl, ht, hop, htar, by simp [hjk]⟩
    · rw [if_neg hjk]
      exact ⟨_, rfl, ht, hop, htar, by simp [hjk, hhome]⟩

def withInstr (f : Function) (k : Nat) (i : Instr) : Function := { f with instrs := f.instrs.set! k i }

theorem instr?_withInstr (hi : f.instr? k = some i) (x : Instr) (j : Nat) :
    (f.withInstr k x).instr? j = if j = k then some x else f.instr? j := by
  have hlt := (Array.getElem?_eq_some_iff.mp hi).1
  unfold withInstr instr?
  rw [Array.set!_eq_setIfInBounds, Array.getElem?_setIfInBounds]
  by_cases hjk : k = j
  · rw [if_pos hjk, if_pos hjk.symm, if_pos (hjk ▸ hlt)]
  · rw [if_neg hjk, if_neg (Ne.symm hjk)]

theorem withInstr_self (hi : f.instr? k = some i) : f.withInstr k i = f := by
  have hinstrs : f.instrs.set! k i = f.instrs := by
    refine Array.ext_getElem? fun j ↦ (instr?_withInstr hi i j).trans ?_
    split
    · rename_i hjk
      rw [hjk]
      exact hi.symm
    · rfl
  rw [withInstr, hinstrs]

theorem edited_withInstr (hl : f.Lists b k i) (ht : x.type = i.type) (hop : x.op = i.op) (htar : x.targets = i.targets)
    (hhome : x.home = i.home) : Edited f (f.withInstr k x) (fun _ ↦ true) fun j y ↦ if j = k then x else y := by
  have hinstr := instr?_withInstr hl.found x
  refine ⟨⟨rfl, rfl, rfl, rfl, rfl⟩, by simp [withInstr], ?_, ?_, ?_⟩
  · intro c
    show f.blocks[c]? = _
    cases f.blocks[c]? with
    | none => rfl
    | some C => simp
  · intro c j y hy _
    rw [hinstr]
    split
    · rfl
    · exact hy.found
  · intro j y hy
    rw [hinstr]
    split
    · rename_i hjk
      subst hjk
      obtain rfl : i = y := Option.some.inj (hl.found.symm.trans hy)
      exact ⟨x, rfl, ht, hop, htar, by rw [if_pos rfl, hhome]⟩
    · exact ⟨y, hy, rfl, rfl, rfl, by rw [if_pos rfl]⟩

theorem Lists.ne_terminator_of_pure (h : i.op.isPure = true) : i.op.isTerminator = false := by
  revert h
  cases i.op <;> simp [Op.isPure, Op.isTerminator]

end Function

theorem operands_of_check {n : Nat} {i : Instr} {check : List Ty → List Violation}
    (h : Module.checkOperands n i check = []) (ho : ∀ o ∈ i.operands, ∃ v : Value, o = some v ∧ v.type ≠ .untyped) :
    ∃ vs : List Value, i.operands = vs.map some ∧ vs.length = n ∧ check (vs.map Value.type) = [] := by
  have hall : ∀ os : List (Option Value), (∀ o ∈ os, ∃ v : Value, o = some v ∧ v.type ≠ .untyped) →
      ∃ vs : List Value, os = vs.map some ∧ os.mapM id = some vs ∧ ∀ v ∈ vs, v.type ≠ .untyped := by
    intro os hos
    induction os with
    | nil => exact ⟨[], rfl, rfl, nofun⟩
    | cons o os ih =>
      obtain ⟨v, rfl, hv⟩ := hos o List.mem_cons_self
      obtain ⟨vs, hvs, hm, hty⟩ := ih fun o ho ↦ hos o (List.mem_cons_of_mem _ ho)
      refine ⟨v :: vs, by rw [hvs]; rfl, ?_, ?_⟩
      · rw [List.mapM_cons, hm]
        rfl
      · intro w hw
        rcases List.mem_cons.mp hw with rfl | hw
        · exact hv
        · exact hty w hw
  obtain ⟨vs, hvs, hm, hty⟩ := hall i.operands ho
  unfold Module.checkOperands operandTypes at h
  split at h
  · rename_i ts hts
    split at hts
    · cases hts
    · rename_i hlen
      rw [hm] at hts
      dsimp only at hts
      split at hts
      · cases hts
      · cases hts
        refine ⟨vs, hvs, ?_, h⟩
        simpa [hvs] using hlen
  · rename_i vs' hts
    split at hts
    · cases hts
      cases h
    · rw [hm] at hts
      dsimp only at hts
      split at hts
      · rename_i hany
        obtain ⟨v, hv, heq⟩ := List.any_eq_true.mp hany
        exact absurd (eq_of_beq heq) (hty v hv)
      · cases hts

theorem checkOperands_eq {i : Instr} (vs : List Value) (h : i.operands = vs.map some) (ht : ∀ v ∈ vs, v.type ≠ .untyped)
    (check : List Ty → List Violation) : Module.checkOperands vs.length i check = check (vs.map Value.type) := by
  have hm : ∀ vs : List Value, (vs.map some).mapM id = some vs := by
    intro vs
    induction vs with
    | nil => rfl
    | cons v vs ih =>
      rw [List.map_cons, List.mapM_cons, ih]
      rfl
  have hany : ¬ (vs.any fun v ↦ v.type == .untyped) = true := by
    intro hany
    obtain ⟨v, hv, heq⟩ := List.any_eq_true.mp hany
    exact ht v hv (eq_of_beq heq)
  unfold Module.checkOperands operandTypes
  rw [h, List.length_map, hm, if_neg (not_not_intro rfl)]
  dsimp only
  rw [if_neg hany]

theorem sameTypes_eq_nil {fits : Ty → Bool} {what : String} {a b : Ty} :
    sameTypes fits what a b = [] ↔ a = b ∧ fits a = true := by
  unfold sameTypes
  split
  · rename_i hne
    exact ⟨nofun, fun h ↦ absurd h.1 hne⟩
  · rename_i heq
    rw [Module.when_eq_nil, Bool.not_eq_false']
    exact ⟨fun h ↦ ⟨not_not.mp heq, h⟩, fun h ↦ h.2⟩

namespace Module

variable {m : Module} {dom : DomTree} {f : Function} {b k : Nat} {i : Instr}

/-- The operands of an instruction are there, and of types that it takes. -/
structure Ruled (m : Module) (f : Function) (i : Instr) : Prop where
  fits : m.checkInstr f i = []
  typed : ∀ o ∈ i.operands, ∃ v : Value, o = some v ∧ v.type ≠ .untyped

namespace Ruled

theorem exists_operands (h : m.Ruled f i) : ∃ vs : List Value, i.operands = vs.map some := by
  obtain ⟨vs, hvs⟩ : i.operands ∈ Set.range (List.map some) := by
    rw [Set.range_list_map]
    intro o ho
    obtain ⟨v, rfl, -⟩ := h.typed o ho
    exact ⟨v, rfl⟩
  exact ⟨vs, hvs.symm⟩

theorem store_operands (h : m.Ruled f i) (hop : i.op = .store) :
    ∃ v p : Value, i.operands = [some v, some p] ∧ p.type = .pointer v.type := by
  have hfits := h.fits
  rw [checkInstr, hop] at hfits
  obtain ⟨vs, hvs, hlen, hcheck⟩ := operands_of_check hfits h.typed
  obtain ⟨v, p, rfl⟩ := List.length_eq_two.mp hlen
  refine ⟨v, p, hvs, ?_⟩
  simp only [List.map_cons, List.map_nil] at hcheck
  split at hcheck
  · rename_i e he
    rw [when_eq_nil, bne_eq_false_iff_eq] at hcheck
    rw [he, hcheck]
  · cases hcheck

theorem load_operands (h : m.Ruled f i) (hop : i.op = .load) : ∃ p : Value, i.operands = [some p] ∧
    p.type = .pointer i.type := by
  have hfits := h.fits
  rw [checkInstr, hop] at hfits
  obtain ⟨vs, hvs, hlen, hcheck⟩ := operands_of_check hfits h.typed
  obtain ⟨p, rfl⟩ := List.length_eq_one_iff.mp hlen
  refine ⟨p, hvs, ?_⟩
  simp only [List.map_cons, List.map_nil] at hcheck
  split at hcheck
  · rename_i e he
    rw [when_eq_nil, Bool.or_eq_false_iff, Bool.or_eq_false_iff, bne_eq_false_iff_eq] at hcheck
    rw [he, hcheck.1.1]
  · cases hcheck

theorem binary_operands (h : m.Ruled f i) (hop : i.op.isBinary = true) :
    ∃ x y : Value, i.operands = [some x, some y] ∧ x.type = y.type ∧
      ((i.op = .add ∨ i.op = .sub ∨ i.op = .mul) ∧ x.type.isInt = true ∨
        (i.op = .fadd ∨ i.op = .fsub ∨ i.op = .fmul) ∧ x.type.isFloating = true) := by
  have hpair : ∀ {check : List Ty → List Violation} {fits : Ty → Bool} {what : String},
      (∀ s t, check [s, t] = sameTypes fits what s t) → checkOperands 2 i check = [] →
      ∃ x y : Value, i.operands = [some x, some y] ∧ x.type = y.type ∧ fits x.type = true := by
    intro check fits what hsame hcheck
    obtain ⟨vs, hvs, hlen, hc⟩ := operands_of_check hcheck h.typed
    obtain ⟨x, y, rfl⟩ := List.length_eq_two.mp hlen
    exact ⟨x, y, hvs, sameTypes_eq_nil.mp ((hsame x.type y.type).symm.trans hc)⟩
  have hfits := h.fits
  unfold checkInstr at hfits
  generalize hi : i.op = op at hop hfits ⊢
  cases op with
  | add | sub | mul =>
    obtain ⟨x, y, ho, ht, hint⟩ := hpair (fun _ _ ↦ rfl) hfits
    exact ⟨x, y, ho, ht, .inl ⟨by simp, hint⟩⟩
  | fadd | fsub | fmul =>
    obtain ⟨x, y, ho, ht, hfloat⟩ := hpair (fun _ _ ↦ rfl) hfits
    exact ⟨x, y, ho, ht, .inr ⟨by simp, hfloat⟩⟩
  | _ => cases hop

theorem icmp_operands (h : m.Ruled f i) (hop : i.op = .icmp) :
    ∃ x y : Value, i.operands = [some x, some y] ∧ x.type = y.type ∧ i.pred.isFloat = false := by
  have hfits := h.fits
  rw [checkInstr, hop] at hfits
  obtain ⟨vs, hvs, hlen, hc⟩ := operands_of_check hfits h.typed
  obtain ⟨x, y, rfl⟩ := List.length_eq_two.mp hlen
  obtain ⟨hsame, hpred⟩ := List.append_eq_nil_iff.mp hc
  rw [when_eq_nil, Bool.or_eq_false_iff] at hpred
  exact ⟨x, y, hvs, (sameTypes_eq_nil.mp hsame).1, hpred.2⟩

theorem fcmp_operands (h : m.Ruled f i) (hop : i.op = .fcmp) :
    ∃ x y : Value, i.operands = [some x, some y] ∧ x.type = y.type := by
  have hfits := h.fits
  rw [checkInstr, hop] at hfits
  obtain ⟨vs, hvs, hlen, hc⟩ := operands_of_check hfits h.typed
  obtain ⟨x, y, rfl⟩ := List.length_eq_two.mp hlen
  exact ⟨x, y, hvs, (sameTypes_eq_nil.mp (List.append_eq_nil_iff.mp hc).1).1⟩

theorem pair_operands (h : m.Ruled f i) (hop : i.op.isBinary = true ∨ i.op = .icmp ∨ i.op = .fcmp) :
    ∃ x y : Value, i.operands = [some x, some y] ∧ x.type = y.type := by
  rcases hop with hop | hop | hop
  · obtain ⟨x, y, ho, ht, -⟩ := h.binary_operands hop
    exact ⟨x, y, ho, ht⟩
  · obtain ⟨x, y, ho, ht, -⟩ := h.icmp_operands hop
    exact ⟨x, y, ho, ht⟩
  · exact h.fcmp_operands hop

theorem select_operands (h : m.Ruled f i) (hop : i.op = .select) :
    ∃ c x y : Value, i.operands = [some c, some x, some y] ∧ c.type = .i1 ∧ x.type = i.type ∧ y.type = i.type := by
  have hfits := h.fits
  rw [checkInstr, hop] at hfits
  obtain ⟨vs, hvs, hlen, hcheck⟩ := operands_of_check hfits h.typed
  obtain ⟨c, x, y, rfl⟩ := List.length_eq_three.mp hlen
  refine ⟨c, x, y, hvs, ?_⟩
  simp only [List.map_cons, List.map_nil, List.append_eq_nil_iff, when_eq_nil, Bool.or_eq_false_iff,
    bne_eq_false_iff_eq] at hcheck
  exact ⟨hcheck.1, hcheck.2.2.symm, by rw [← hcheck.2.1, hcheck.2.2]⟩

theorem cast_operands (h : m.Ruled f i) (hop : i.op.isCast = true) :
    ∃ x : Value, i.operands = [some x] ∧ validCast i.op x.type i.type = true := by
  have hcheck : ∃ check : List Ty → List Violation, checkOperands 1 i check = [] ∧
      ∀ t, check [t] = when (!validCast i.op t i.type) (.badCast i.op t i.type) := by
    have hfits := h.fits
    unfold checkInstr at hfits
    generalize i.op = op at hop hfits ⊢
    cases op <;> first | exact ⟨_, hfits, fun _ ↦ rfl⟩ | cases hop
  obtain ⟨check, hcheck, hrule⟩ := hcheck
  obtain ⟨vs, hvs, hlen, hc⟩ := operands_of_check hcheck h.typed
  obtain ⟨x, rfl⟩ := List.length_eq_one_iff.mp hlen
  refine ⟨x, hvs, ?_⟩
  have hvalid := when_eq_nil.mp ((hrule x.type).symm.trans hc)
  simpa using hvalid

theorem br_targets (h : m.Ruled f i) (hop : i.op = .br) : i.targets.length = 1 := by
  have hfits := h.fits
  rw [checkInstr, hop] at hfits
  simpa using when_eq_nil.mp hfits

theorem condbr_operands (h : m.Ruled f i) (hop : i.op = .condbr) : ∃ c : Value, i.operands = [some c] := by
  have hfits := h.fits
  rw [checkInstr, hop] at hfits
  obtain ⟨vs, hvs, hlen, -⟩ := operands_of_check (List.append_eq_nil_iff.mp hfits).2 h.typed
  obtain ⟨c, rfl⟩ := List.length_eq_one_iff.mp hlen
  exact ⟨c, hvs⟩

theorem ret_operands (h : m.Ruled f i) (hop : i.op = .ret) (hret : f.ret ≠ .void) : ∃ v : Value,
    i.operands = [some v] := by
  have hfits := h.fits
  rw [checkInstr, hop] at hfits
  have hlen : i.operands.length = 1 := by
    by_contra hne
    have hfits : checkReturn f i = [] := hfits
    rw [checkReturn, if_neg (fun h ↦ hret h.1), if_pos ⟨hret, hne⟩] at hfits
    cases hfits
  obtain ⟨o, ho⟩ := List.length_eq_one_iff.mp hlen
  obtain ⟨v, rfl, -⟩ := h.typed o (by rw [ho]; exact List.mem_singleton_self _)
  exact ⟨v, ho⟩

end Ruled

namespace Valid

theorem ruled (h : m.Valid dom f) (hl : f.Lists b k i) : m.Ruled f i := by
  refine ⟨h.fits hl, fun o ho ↦ ?_⟩
  obtain ⟨v, hv, ht⟩ := h.takes hl ho
  exact ⟨v, hv, ht.typed⟩

theorem store_type (h : m.Valid dom f) (hl : f.Lists b k i) (hop : i.op = .store) : i.type = .void := by
  obtain ⟨v, p, ho, -⟩ := (h.ruled hl).store_operands hop
  exact (h.typed hl).store _ _ hop ho

theorem alloca_type (h : m.Valid dom f) (hl : f.Lists b k i) (hop : i.op = .alloca) :
    i.type = .pointer i.allocated ∧ i.allocated.hasValue = true := by
  have hfits := h.fits hl
  rw [checkInstr, hop, List.append_eq_nil_iff, when_eq_nil, Bool.or_eq_false_iff, Bool.or_eq_false_iff,
    Bool.not_eq_false'] at hfits
  have hvalue := hfits.1.1.1
  refine ⟨(h.typed hl).alloca hop ?_, hvalue⟩
  intro hnone
  rw [hnone] at hvalue
  cases hvalue

theorem not_sees_self (h : m.Valid dom f) (hl : f.Lists b k i) : ¬ f.Sees dom k b k := by
  intro hs
  cases hs with
  | inside hB hsub =>
    have := (pair_sublist_iff (h.once hB)).mp hsub
    omega
  | above hl' hne => exact hne (h.unique hl' hl)

theorem lists_of_sees {j : Nat} (h : m.Valid dom f) (hs : f.Sees dom j b k) : ∃ a x, f.Lists a j x := by
  cases hs with
  | inside hB hsub => exact ⟨b, h.lists hB (hsub.subset List.mem_cons_self)⟩
  | above hl => exact ⟨_, _, hl⟩

theorem eq_result (h : m.Valid dom f) (hl : f.Lists b k i) {id : InstrId} {t : Ty}
    (ho : some (.instr id t) ∈ i.operands) : .instr id t = f.result id.index :=
  (h.offers hl ho).eq_result

end Valid

end Module

end CilSsa.Ssa

namespace CilSsa.Passes

open CilSsa.Ssa

/-- Instruction `p` stands before `k` in block `b`, with `mid` between them. -/
def Between (f : Function) (b p k : Nat) (mid : List Nat) : Prop :=
  ∃ B pre post, f.blocks[b]? = some B ∧ B.instrs = pre ++ p :: (mid ++ k :: post)

def Stores (f : Function) (i : Instr) (v : Value) (s : Nat) : Prop :=
  i.op = .store ∧ ∃ rest, i.operands = some v :: some (f.result s) :: rest

def Loads (f : Function) (i : Instr) (s : Nat) : Prop :=
  i.op = .load ∧ ∃ rest, i.operands = some (f.result s) :: rest

/-- A slot for one value that is used for nothing but loads and stores. -/
structure Plain (f : Function) (s : Nat) : Prop where
  single : ∀ {b : Nat} {x : Instr}, f.Lists b s x → x.op = .alloca ∧ x.operands = []
  uses : ∀ {b k : Nat} {i : Instr}, f.Lists b k i → some (f.result s) ∈ i.operands → isPlainUse (f.result s) i = true

def Knows (known : Escapes) (f : Function) : Prop := ∀ s, known.lookup s = some false → Plain f s

/-- Why instruction `k` of block `b`, which is `i`, has a value that is there already, where `known` tells which slots
are plain. -/
inductive Reason (known : Escapes) (f : Function) (b k : Nat) (i : Instr) : Value → Prop
  | simplified {v : Value} : simplify? ⟨f.id, k⟩ i = some v → Reason known f b k i v
  | forwarded {p s : Nat} {mid : List Nat} {x : Instr} {v : Value} : Between f b p k mid → f.instr? p = some x →
      known.lookup s = some false → Loads f i s → Stores f x v s ∨ Loads f x s ∧ v = f.result p →
      (∀ j ∈ mid, ∀ y w, f.instr? j = some y → ¬ Stores f y w s) → Reason known f b k i v
  | reused {p : Nat} {mid : List Nat} {x : Instr} {key : ValueKey} : Between f b p k mid → f.instr? p = some x →
      valueKey? x = some key → valueKey? i = some key → Reason known f b k i (f.result p)
  | reloaded {p : Nat} {mid : List Nat} {x : Instr} : Between f b p k mid → f.instr? p = some x → x.op = .load →
      i.op = .load → x.operands.headD none = i.operands.headD none → x.type = i.type →
      (∀ j ∈ mid, ∀ y, f.instr? j = some y → y.op ≠ .store ∧ y.op ≠ .call) → Reason known f b k i (f.result p)

/-- One step of a pass. In blocks that control cannot reach anything of the right type may take the place of a result,
but for the address of a slot that is taken to be plain. -/
inductive Step (dom : DomTree) (known : Escapes) (f : Function) : Function → Prop
  | replace {b k : Nat} {i : Instr} {v : Value} : f.Lists b k i → i.op.isPure = true → i.op ≠ .alloca →
      v.type = i.type → f.Offers v → (i.type.hasValue = true → f.Takes v) →
      (∀ s, known.lookup s = some false → v ≠ f.result s) →
      (dom.reachable (f.blockId b) = true → Reason known f b k i v) → Step dom known f (f.replaced b k v)
  | drop {b k : Nat} {i : Instr} : f.Lists b k i → i.op.isPure = true →
      (∀ c j x, f.Lists c j x → some (f.result k) ∉ x.operands) → Step dom known f (f.removeFrom b k)
  | dropStore {b k s : Nat} {i : Instr} {v : Value} : f.Lists b k i → Stores f i v s → known.lookup s = some false →
      (∀ c j x, f.Lists c j x → some (f.result s) ∈ x.operands → x.op = .store) → Step dom known f (f.removeFrom b k)
  | swap {b k : Nat} {i i' : Instr} : f.Lists b k i → reassociated? i = some i' → Step dom known f (f.withInstr k i')

section

variable {m : Module} {dom : DomTree} {f g : Function} {b c j k p s : Nat} {i x y : Instr} {v : Value} {mid : List Nat}

theorem Between.sublist (h : Between f b p k mid) : ∃ B, f.blocks[b]? = some B ∧ [p, k].Sublist B.instrs := by
  obtain ⟨B, pre, post, hB, hlist⟩ := h
  refine ⟨B, hB, ?_⟩
  rw [hlist]
  refine List.Sublist.trans ?_ (List.sublist_append_right ..)
  exact List.cons_sublist_cons.mpr (List.singleton_sublist.mpr (by simp))

theorem Between.sees (h : Between f b p k mid) : f.Sees dom p b k := by
  obtain ⟨B, hB, hsub⟩ := h.sublist
  exact .inside hB hsub

theorem Between.lists (h : Between f b p k mid) (hx : f.instr? p = some x) : f.Lists b p x := by
  obtain ⟨B, hB, hsub⟩ := h.sublist
  exact ⟨⟨B, hB, hsub.subset List.mem_cons_self⟩, hx⟩

/-- The ways in which an instruction is simplified. -/
inductive Simplifies (id : InstrId) (i : Instr) : Value → Prop
  | compare {x y : Value} {rest : List (Option Value)} {a b : UInt64} {c : Const} : i.op = .icmp ∨ i.op = .fcmp →
      i.operands = some x :: some y :: rest → x.bits? = some a → y.bits? = some b →
      Const.ofBits? .i1 (boolBits (evalCompare i.pred x.type a b)) = some c → Simplifies id i (.const c (.folded id))
  | choose {c x y : Value} {rest : List (Option Value)} {t : Ty} {w : UInt64} : i.op = .select →
      i.operands = some c :: some x :: some y :: rest → c.const? = some (.int t w) →
      Simplifies id i (if w = 0 then y else x)
  | same {c x : Value} {rest : List (Option Value)} : i.op = .select → i.operands = some c :: some x :: some x :: rest →
      Simplifies id i x
  | fold {x y : Value} {rest : List (Option Value)} {a b w : UInt64} {c : Const} : i.op.isBinary = true →
      i.operands = some x :: some y :: rest → x.bits? = some a → y.bits? = some b →
      evalBinary i.op i.type a b = .ok w → Const.ofBits? i.type w = some c → Simplifies id i (.const c (.folded id))
  | zero {x y : Value} {rest : List (Option Value)} {t : Ty} : i.op = .add ∨ i.op = .sub →
      i.operands = some x :: some y :: rest → y.const? = some (.int t 0) → Simplifies id i x
  | one {x y : Value} {rest : List (Option Value)} {t : Ty} : i.op = .mul →
      i.operands = some x :: some y :: rest → y.const? = some (.int t 1) → Simplifies id i x
  | absorb {x y : Value} {rest : List (Option Value)} {t : Ty} : i.op = .mul →
      i.operands = some x :: some y :: rest → y.const? = some (.int t 0) → Simplifies id i y
  | unchanged {x : Value} {rest : List (Option Value)} : i.op.isCast = true → i.operands = some x :: rest →
      x.type = i.type → Simplifies id i x
  | convert {x : Value} {rest : List (Option Value)} {a w : UInt64} {c : Const} : i.op.isCast = true →
      i.operands = some x :: rest → x.bits? = some a → evalCast i.op x.type i.type a = .ok w →
      Const.ofBits? i.type w = some c → Simplifies id i (.const c (.folded id))

theorem simplify?_inv {id : InstrId} (h : simplify? id i = some v) : Simplifies id i v := by
  unfold simplify? at h
  dsimp only at h
  split at h
  · rename_i hop ho
    split at h
    · rename_i ha hb
      obtain ⟨c, hc, rfl⟩ := Option.map_eq_some_iff.mp h
      exact .compare (.inl hop) ho ha hb hc
    · cases h
  · rename_i hop ho
    split at h
    · rename_i ha hb
      obtain ⟨c, hc, rfl⟩ := Option.map_eq_some_iff.mp h
      exact .compare (.inr hop) ho ha hb hc
    · cases h
  · rename_i hop ho
    split at h
    · rename_i hc
      obtain rfl := Option.some.inj h
      exact .choose hop ho hc
    · split at h
      · rename_i heq
        subst heq
        obtain rfl := Option.some.inj h
        exact .same hop ho
      · cases h
  · rename_i ho _ _ _
    split at h
    · rename_i hbin
      split at h
      · split at h
        · rename_i ha hb
          split at h
          · rename_i hw
            obtain ⟨c, hc, rfl⟩ := Option.map_eq_some_iff.mp h
            exact .fold hbin ho ha hb hw hc
          · cases h
        · split at h
          · rename_i hy hop
            split at h
            · rename_i h0
              obtain rfl := Option.some.inj h
              exact .zero (.inl hop) ho (h0 ▸ hy)
            · cases h
          · rename_i hy hop
            split at h
            · rename_i h0
              obtain rfl := Option.some.inj h
              exact .zero (.inr hop) ho (h0 ▸ hy)
            · cases h
          · rename_i hy hop
            split at h
            · rename_i h1
              obtain rfl := Option.some.inj h
              exact .one hop ho (h1 ▸ hy)
            · split at h
              · rename_i h0
                obtain rfl := Option.some.inj h
                exact .absorb hop ho (h0 ▸ hy)
              · cases h
          · cases h
      · cases h
    · split at h
      · rename_i hcast
        split at h
        · rename_i ht
          obtain rfl := Option.some.inj h
          exact .unchanged hcast ho ht
        · split at h
          · rename_i ha
            split at h
            · cases h
            · split at h
              · rename_i hw
                obtain ⟨c, hc, rfl⟩ := Option.map_eq_some_iff.mp h
                exact .convert hcast ho ha hw hc
              · cases h
          · cases h
      · cases h
  · cases h

theorem Simplifies.operand {id : InstrId} (h : Simplifies id i v) :
    some v ∈ i.operands ∨ ∃ c t w, v = .const c (.folded id) ∧ Const.ofBits? t w = some c := by
  cases h with
  | compare _ _ _ _ hc | fold _ _ _ _ _ hc | convert _ _ _ _ hc => exact .inr ⟨_, _, _, rfl, hc⟩
  | choose _ ho =>
    refine .inl ?_
    rw [ho]
    split <;> simp
  | same _ ho | zero _ ho | one _ ho | absorb _ ho | unchanged _ ho =>
    refine .inl ?_
    rw [ho]
    simp

theorem ofBits?_made {t : Ty} {w : UInt64} {c : Const} (h : Const.ofBits? t w = some c) : c.Made ∧ c.type = t := by
  unfold Const.ofBits? at h
  split at h
  · cases h
    exact ⟨.int _ _, rfl⟩
  · cases h
    exact ⟨.double _ _, rfl⟩
  · cases h
    exact ⟨.double _ _, rfl⟩
  · split at h
    · cases h
      exact ⟨.null _, rfl⟩
    · cases h
  · cases h

theorem Simplifies.type_eq {id : InstrId} (h : Simplifies id i v) (hv : m.Valid dom f) (hl : f.Lists b k i) :
    v.type = i.type := by
  have hty := hv.typed hl
  cases h with
  | compare hop ho _ _ hc =>
    obtain ⟨u, w, huw, -⟩ := (hv.ruled hl).pair_operands (.inr hop)
    exact (ofBits?_made hc).2.trans (hty.compare _ _ hop huw).symm
  | choose hop ho =>
    obtain ⟨c, x, y, hcxy, -, hx, hy⟩ := (hv.ruled hl).select_operands hop
    rw [hcxy] at ho
    cases ho
    split
    · exact hy
    · exact hx
  | same hop ho =>
    obtain ⟨c, x, y, hcxy, -, hx, hy⟩ := (hv.ruled hl).select_operands hop
    rw [hcxy] at ho
    cases ho
    exact hx
  | fold _ _ _ _ _ hc | convert _ _ _ _ hc => exact (ofBits?_made hc).2
  | zero hop ho =>
    have hbin : i.op.isBinary = true := by rcases hop with hop | hop <;> rw [hop] <;> rfl
    obtain ⟨u, w, huw, -⟩ := (hv.ruled hl).pair_operands (.inl hbin)
    rw [huw] at ho
    cases ho
    exact (hty.binary _ _ hbin huw).symm
  | one hop ho =>
    have hbin : i.op.isBinary = true := by rw [hop]; rfl
    obtain ⟨u, w, huw, -⟩ := (hv.ruled hl).pair_operands (.inl hbin)
    rw [huw] at ho
    cases ho
    exact (hty.binary _ _ hbin huw).symm
  | absorb hop ho =>
    have hbin : i.op.isBinary = true := by rw [hop]; rfl
    obtain ⟨u, w, huw, ht⟩ := (hv.ruled hl).pair_operands (.inl hbin)
    rw [huw] at ho
    cases ho
    exact ht.symm.trans (hty.binary _ _ hbin huw).symm
  | unchanged _ _ ht => exact ht

theorem Simplifies.op_ne {id : InstrId} (h : Simplifies id i v) :
    i.op.isPure = true ∧ i.op ≠ .alloca ∧ i.op ≠ .load ∧ i.op ≠ .store := by
  have hbin : i.op.isBinary = true → i.op.isPure = true ∧ i.op ≠ .alloca ∧ i.op ≠ .load ∧ i.op ≠ .store := by
    cases i.op <;> simp [Op.isBinary, Op.isPure]
  have hcast : i.op.isCast = true → i.op.isPure = true ∧ i.op ≠ .alloca ∧ i.op ≠ .load ∧ i.op ≠ .store := by
    cases i.op <;> simp [Op.isCast, Op.isPure]
  cases h with
  | compare hop => rcases hop with hop | hop <;> rw [hop] <;> decide
  | choose hop | same hop => rw [hop]; decide
  | fold hop => exact hbin hop
  | zero hop => rcases hop with hop | hop <;> rw [hop] <;> decide
  | one hop | absorb hop => rw [hop]; decide
  | unchanged hop | convert hop => exact hcast hop

theorem Reason.sees {known : Escapes} {id : InstrId} {t : Ty} (hr : Reason known f b k i (.instr id t))
    (hv : m.Valid dom f) (hd : DomTree.Sound m f dom) (hl : f.Lists b k i)
    (hlive : dom.reachable (f.blockId b) = true) : f.Sees dom id.index b k := by
  have hself : ∀ {p : Nat} {x : Instr}, f.instr? p = some x → .instr id t = f.result p → id.index = p := by
    intro p x hx heq
    rw [Function.result_eq hx] at heq
    simp only [Value.instr.injEq] at heq
    rw [heq.1]
  generalize hw : Value.instr id t = w at hr
  cases hr with
  | simplified hs =>
    rcases (simplify?_inv hs).operand with ho | ⟨c, _, _, rfl, _⟩
    · subst hw
      exact hv.sees hl hlive ho
    · cases hw
  | forwarded hb hx _ _ hor =>
    rcases hor with ⟨-, rest, ho⟩ | ⟨-, hres⟩
    · subst hw
      have hlp := hb.lists hx
      exact hv.sees_trans hd hlive hlp (hv.sees hlp hlive (by rw [ho]; exact List.mem_cons_self)) hb.sees
    · rw [hself hx (hw.trans hres)]
      exact hb.sees
  | reused hb hx => rw [hself hx hw]; exact hb.sees
  | reloaded hb hx => rw [hself hx hw]; exact hb.sees

theorem reachable_of_sees (hv : m.Valid dom f) (hd : DomTree.Sound m f dom) (hl : f.Lists b k i)
    (hlive : dom.reachable (f.blockId c) = true) (hs : f.Sees dom k c j) : dom.reachable (f.blockId b) = true := by
  cases hs with
  | inside hB hsub =>
    obtain ⟨y, hl'⟩ := hv.lists hB (hsub.subset List.mem_cons_self)
    rwa [hv.unique hl hl']
  | above hl' _ hdom =>
    rw [hv.unique hl hl']
    exact hd.reachable hlive hdom

theorem keeps_replaced {known : Escapes} (hv : m.Valid dom f) (hd : DomTree.Sound m f dom) (hl : f.Lists b k i)
    (hpure : i.op.isPure = true) (htype : v.type = i.type) (hoff : f.Offers v)
    (htakes : i.type.hasValue = true → f.Takes v) (hr : dom.reachable (f.blockId b) = true → Reason known f b k i v) :
    Edited.Keeps m dom f (· != k) fun _ x ↦ x.rewire (f.result k) v := by
  have hres := Function.result_eq hl.found
  have halike : ∀ x : Instr, x.Alike (x.rewire (f.result k) v) := fun x ↦
    Instr.alike_rewire (by rw [htype, hres]; rfl) x
  refine ⟨?_, fun _ ↦ rfl, ?_, ?_, ?_, ?_⟩
  · intro c j x hx hj
    have hjk : j = k := by simpa using hj
    subst hjk
    rw [Option.some.inj (hx.found.symm.trans hl.found)]
    exact Function.Lists.ne_terminator_of_pure hpure
  · intro c j x hx _
    rw [(halike x).checkInstr]
    exact hv.fits hx
  · intro c j x hx _
    exact (hv.typed hx).alike (halike x)
  · intro c j x o hx _ ho
    rcases Instr.mem_rewire ho with ⟨hold, -⟩ | ⟨hold, rfl⟩
    · obtain ⟨w, rfl, hw⟩ := hv.takes hx hold
      exact ⟨w, rfl, hw, hv.offers hx hold⟩
    · obtain ⟨w, hw, ht⟩ := hv.takes hx hold
      obtain rfl := Option.some.inj hw
      exact ⟨v, rfl, htakes (ht.value _ _ hres), hoff⟩
  · intro c j x id t hx _ hlive ho
    rcases Instr.mem_rewire ho with ⟨hold, hne⟩ | ⟨hold, heq⟩
    · refine ⟨hv.sees hx hlive hold, ?_⟩
      rw [bne_iff_ne]
      rintro rfl
      exact hne (congrArg some (hv.eq_result hx hold))
    · obtain rfl := Option.some.inj heq
      rw [hres] at hold
      have hsk := hv.sees hx hlive hold
      have hlive' := reachable_of_sees hv hd hl hlive hsk
      have hsv := (hr hlive').sees hv hd hl hlive'
      refine ⟨hv.sees_trans hd hlive hl hsv hsk, ?_⟩
      rw [bne_iff_ne]
      rintro heq
      rw [heq] at hsv
      exact hv.not_sees_self hl hsv

theorem keeps_removed (hv : m.Valid dom f) (hl : f.Lists b k i) (hterm : i.op.isTerminator = false)
    (hno : ∀ c j x, f.Lists c j x → some (f.result k) ∉ x.operands) :
    Edited.Keeps m dom f (· != k) fun _ x ↦ x := by
  refine ⟨?_, fun _ ↦ rfl, fun hx _ ↦ hv.fits hx, fun hx _ ↦ hv.typed hx, ?_, ?_⟩
  · intro c j x hx hj
    have hjk : j = k := by simpa using hj
    subst hjk
    rwa [Option.some.inj (hx.found.symm.trans hl.found)]
  · intro c j x o hx _ ho
    obtain ⟨w, rfl, hw⟩ := hv.takes hx ho
    exact ⟨w, rfl, hw, hv.offers hx ho⟩
  · intro c j x id t hx _ hlive ho
    refine ⟨hv.sees hx hlive ho, ?_⟩
    rw [bne_iff_ne]
    rintro rfl
    exact hno c j x hx (hv.eq_result hx ho ▸ ho)

theorem store_unread (hv : m.Valid dom f) (hl : f.Lists b k i) (hop : i.op = .store) :
    ∀ c j x, f.Lists c j x → some (f.result k) ∉ x.operands := by
  intro c j x hx ho
  obtain ⟨w, hw, ht⟩ := hv.takes hx ho
  obtain rfl := Option.some.inj hw
  have := ht.value _ _ (Function.result_eq hl.found)
  rw [hv.store_type hl hop] at this
  cases this

theorem swapped_isFloat (p : Pred) : p.swapped.isFloat = p.isFloat ∧ (p.swapped = .other 0 ↔ p = .other 0) := by
  cases p <;> simp [Pred.swapped, Pred.isFloat]

theorem reassociated?_inv (h : reassociated? i = some x) : ∃ a b, i.operands = [a, b] ∧
    ((i.op = .add ∨ i.op = .mul ∨ i.op = .fadd ∨ i.op = .fmul) ∧ x = { i with operands := [b, a] } ∨
      (i.op = .icmp ∨ i.op = .fcmp) ∧ x = { i with operands := [b, a], pred := i.pred.swapped }) := by
  unfold reassociated? at h
  split at h
  · rename_i a b ho
    refine ⟨a, b, ho, ?_⟩
    split at h
    · split at h <;> cases h <;> rename_i hop <;> simp [hop]
    · cases h
  · cases h

theorem reassociated?_operands (hv : m.Valid dom f) (hl : f.Lists b k i) (h : reassociated? i = some x) :
    ∃ u w : Value, i.operands = [some u, some w] ∧ u.type = w.type ∧ x.operands = [some w, some u] := by
  obtain ⟨a, a', ho, hor⟩ := reassociated?_inv h
  have hx : x.operands = [a', a] := by rcases hor with ⟨-, rfl⟩ | ⟨-, rfl⟩ <;> rfl
  have hop : i.op.isBinary = true ∨ i.op = .icmp ∨ i.op = .fcmp := by
    rcases hor with ⟨hop, -⟩ | ⟨hop, -⟩
    · left
      rcases hop with hop | hop | hop | hop <;> rw [hop] <;> rfl
    · exact .inr hop
  obtain ⟨u, w, huw, ht⟩ := (hv.ruled hl).pair_operands hop
  rw [ho] at huw
  cases huw
  exact ⟨u, w, ho, ht, hx⟩

theorem checkInstr_reassociated (hv : m.Valid dom f) (hl : f.Lists b k i) (h : reassociated? i = some x) :
    m.checkInstr f x = [] := by
  obtain ⟨u, w, ho, ht, hx⟩ := reassociated?_operands hv hl h
  obtain ⟨a, a', -, hor⟩ := reassociated?_inv h
  have htypes : x.types = i.types := by
    unfold Instr.types
    rw [ho, hx]
    simp [ht]
  have hfits := hv.fits hl
  rcases hor with ⟨-, rfl⟩ | ⟨hop, rfl⟩
  · have halike : i.Alike { i with operands := [a', a] } := ⟨rfl, rfl, rfl, rfl, rfl, rfl, rfl, htypes⟩
    rw [halike.checkInstr, hfits]
  · obtain ⟨hfloat, hother⟩ := swapped_isFloat i.pred
    have hu : ∀ v ∈ [u, w], v.type ≠ .untyped := by
      intro v hv'
      obtain ⟨v', heq, htv⟩ := (hv.ruled hl).typed (some v) (by rw [ho]; simpa using hv')
      rwa [Option.some.inj heq]
    have hbeq : (i.pred.swapped == .other 0) = (i.pred == .other 0) := by
      rw [Bool.eq_iff_iff, beq_iff_eq, beq_iff_eq, hother]
    have hold : ∀ check, Module.checkOperands 2 i check = check [u.type, w.type] := checkOperands_eq [u, w] ho hu
    have hnew : ∀ check, Module.checkOperands 2 { i with operands := [a', a], pred := i.pred.swapped } check =
        check [w.type, u.type] :=
      checkOperands_eq [w, u] hx fun v hv' ↦ hu v (by simpa [or_comm] using hv')
    unfold Module.checkInstr at hfits ⊢
    rcases hop with hop | hop <;> simp only [hop] at hfits hnew ⊢ <;>
      rw [hold, List.append_eq_nil_iff, sameTypes_eq_nil, Module.when_eq_nil] at hfits <;>
      rw [hnew, List.append_eq_nil_iff, sameTypes_eq_nil, Module.when_eq_nil]
    · rw [hbeq, hfloat]
      exact ⟨⟨ht.symm, ht ▸ hfits.1.2⟩, hfits.2⟩
    · rw [hfloat]
      exact ⟨⟨ht.symm, ht ▸ hfits.1.2⟩, hfits.2⟩

theorem reassociated?_same (h : reassociated? i = some x) : x.type = i.type ∧ x.op = i.op ∧ x.targets = i.targets ∧
    x.home = i.home ∧ x.op.isPure = true := by
  obtain ⟨a, a', -, ⟨hop, rfl⟩ | ⟨hop, rfl⟩⟩ := reassociated?_inv h
  · refine ⟨rfl, rfl, rfl, rfl, ?_⟩
    rcases hop with hop | hop | hop | hop <;> simp [hop, Op.isPure]
  · refine ⟨rfl, rfl, rfl, rfl, ?_⟩
    rcases hop with hop | hop <;> simp [hop, Op.isPure]

theorem reassociated?_op (h : reassociated? i = some x) :
    i.op ≠ .alloca ∧ i.op ≠ .load ∧ i.op ≠ .store ∧ i.op.isTerminator = false := by
  obtain ⟨a, a', -, ⟨hop | hop | hop | hop, -⟩ | ⟨hop | hop, -⟩⟩ := reassociated?_inv h <;> rw [hop] <;> decide

theorem typed_reassociated (hv : m.Valid dom f) (hl : f.Lists b k i) (h : reassociated? i = some x) : x.Typed := by
  obtain ⟨u, w, ho, ht, hx⟩ := reassociated?_operands hv hl h
  obtain ⟨htype, hop, -, -, -⟩ := reassociated?_same h
  have hty := hv.typed hl
  refine ⟨fun a a' hbin hxo ↦ ?_, fun a a' hcmp _ ↦ ?_, fun a a' hst _ ↦ ?_, fun hal _ ↦ ?_⟩
  · rw [hx] at hxo
    cases hxo
    rw [htype, hty.binary u w (hop ▸ hbin) ho, ht]
  · rw [htype, hty.compare _ _ (hop ▸ hcmp) ho]
  · rw [htype, hty.store _ _ (hop ▸ hst) ho]
  · exact absurd (hop ▸ hal) (reassociated?_op h).1

theorem keeps_reassociated (hv : m.Valid dom f) (hl : f.Lists b k i) (h : reassociated? i = some x) :
    Edited.Keeps m dom f (fun _ ↦ true) fun j y ↦ if j = k then x else y := by
  obtain ⟨u, w, ho, -, hx⟩ := reassociated?_operands hv hl h
  have hmem : ∀ o, o ∈ x.operands → o ∈ i.operands := by
    intro o hox
    rw [hx] at hox
    rw [ho]
    simpa [or_comm] using hox
  have hat : ∀ {c j : Nat} {y : Instr}, f.Lists c j y → j = k → c = b ∧ y = i := by
    rintro c j y hy rfl
    exact ⟨hv.unique hy hl, Option.some.inj (hy.found.symm.trans hl.found)⟩
  refine ⟨fun _ h ↦ (by cases h), ?_, ?_, ?_, ?_, ?_⟩ <;> intro c j y
  · intro hy
    split
    · rename_i hj
      rw [(hat hy hj).2, (reassociated?_same h).2.2.2.1]
    · rfl
  · intro hy _
    split
    · exact checkInstr_reassociated hv hl h
    · exact hv.fits hy
  · intro hy _
    split
    · exact typed_reassociated hv hl h
    · exact hv.typed hy
  · intro o hy _ hoy
    have hold : o ∈ y.operands := by
      split at hoy
      · rename_i hj
        rw [(hat hy hj).2]
        exact hmem o hoy
      · exact hoy
    obtain ⟨v, rfl, hv'⟩ := hv.takes hy hold
    exact ⟨v, rfl, hv', hv.offers hy hold⟩
  · intro id t hy _ hlive hoy
    suffices hold : some (.instr id t) ∈ y.operands from ⟨hv.sees hy hlive hold, rfl⟩
    split at hoy
    · rename_i hj
      rw [(hat hy hj).2]
      exact hmem _ hoy
    · exact hoy

theorem Step.edited {known : Escapes} (h : Step dom known f g) (hv : m.Valid dom f) (hd : DomTree.Sound m f dom) :
    ∃ keep change, Edited f g keep change ∧ Edited.Keeps m dom f keep change := by
  cases h with
  | replace hl hpure _ ht hoff htakes _ hr =>
    exact ⟨_, _, Function.edited_replaced hv.toFormed.tidy hl _, keeps_replaced hv hd hl hpure ht hoff htakes hr⟩
  | drop hl hpure hno =>
    exact ⟨_, _, Function.edited_removeFrom hv.toFormed.tidy hl,
      keeps_removed hv hl (Function.Lists.ne_terminator_of_pure hpure) hno⟩
  | dropStore hl hst =>
    refine ⟨_, _, Function.edited_removeFrom hv.toFormed.tidy hl, keeps_removed hv hl ?_ (store_unread hv hl hst.1)⟩
    rw [hst.1]
    rfl
  | swap hl h =>
    obtain ⟨ht, hop, htar, hhome, -⟩ := reassociated?_same h
    exact ⟨_, _, Function.edited_withInstr hl ht hop htar hhome, keeps_reassociated hv hl h⟩

theorem Step.valid {known : Escapes} (h : Step dom known f g) (hv : m.Valid dom f) (hd : DomTree.Sound m f dom) :
    m.Valid dom g := by
  obtain ⟨_, _, he, hk⟩ := h.edited hv hd
  exact he.valid hv hk

theorem Step.sameFlow {known : Escapes} (h : Step dom known f g) (hv : m.Valid dom f) (hd : DomTree.Sound m f dom) :
    SameFlow f g := by
  obtain ⟨_, _, he, hk⟩ := h.edited hv hd
  exact he.sameFlow hv hk

theorem result_ne (f : Function) (h : s ≠ k) : f.result s ≠ f.result k := by
  intro heq
  simp only [Function.result, Value.instr.injEq, InstrId.mk.injEq, true_and] at heq
  exact h heq.1

theorem result_heading {keep : Nat → Bool} {change : Nat → Instr → Instr} (h : Edited f g keep change) (s : Nat) :
    g.result s = f.result s := by
  unfold Function.result
  rw [h.heading.id]
  cases hx : f.instr? s with
  | none =>
    have := Array.getElem?_eq_none_iff.mp hx
    rw [show g.instr? s = none from Array.getElem?_eq_none (h.size ▸ this)]
  | some x =>
    obtain ⟨y, hy, ht, -⟩ := h.same hx
    rw [hy, Option.map_some, Option.map_some, ht]

theorem isPlainUse_rewire {old new slot : Value} (hold : slot ≠ old) (hnew : new ≠ slot)
    (h : isPlainUse slot i = true) : isPlainUse slot (i.rewire old new) = true := by
  unfold isPlainUse Instr.rewire at *
  split at h
  · rename_i hop
    simp [hop]
  · rename_i v p rest hop ho
    rw [hop, ho]
    simp only [Bool.and_eq_true, beq_iff_eq, bne_iff_ne, List.map_cons] at h ⊢
    rw [h.1, if_neg (by simpa using hold)]
    refine ⟨rfl, ?_⟩
    split
    · simpa using hnew
    · exact h.2
  · cases h

theorem op_of_isPlainUse {slot : Value} (h : isPlainUse slot i = true) : i.op = .load ∨ i.op = .store := by
  unfold isPlainUse at h
  split at h
  · exact .inl ‹_›
  · exact .inr ‹_›
  · cases h

theorem uses_swapped (hv : m.Valid dom f) (hl : f.Lists b k i) (h : reassociated? i = some x) {slot : Value}
    {j : Nat} {y : Instr} (hy : j = k → y = i) (huse : some slot ∈ y.operands → isPlainUse slot y = true)
    (hmem : some slot ∈ (if j = k then x else y).operands) :
    some slot ∈ y.operands ∧ (isPlainUse slot y = true → isPlainUse slot (if j = k then x else y) = true) := by
  obtain ⟨u, w, ho, -, hx⟩ := reassociated?_operands hv hl h
  obtain ⟨-, hload, hstore, -⟩ := reassociated?_op h
  by_cases hj : j = k
  · obtain rfl := hy hj
    rw [if_pos hj, hx] at hmem
    exact ((op_of_isPlainUse (huse (by rw [ho]; simpa [or_comm] using hmem))).elim hload hstore).elim
  · rw [if_neg hj] at hmem ⊢
    exact ⟨hmem, id⟩

theorem Plain.edited {keep : Nat → Bool} {change : Nat → Instr → Instr} (h : Plain f s) (hv : m.Valid dom f)
    (he : Edited f g keep change)
    (hsingle : ∀ {b : Nat} {x : Instr}, f.Lists b s x → (change s x).op = x.op ∧
      (x.operands = [] → (change s x).operands = []))
    (huses : ∀ {b k : Nat} {x : Instr}, f.Lists b k x → some (f.result s) ∈ (change k x).operands →
      some (f.result s) ∈ x.operands ∧ (isPlainUse (f.result s) x = true →
      isPlainUse (f.result s) (change k x) = true)) :
    Plain g s := by
  constructor
  · intro b x hx
    obtain ⟨-, y, hy, rfl⟩ := he.lists_inv hv.toFormed.tidy.toShaped hx
    obtain ⟨hop, ho⟩ := h.single hy
    obtain ⟨hop', ho'⟩ := hsingle hy
    exact ⟨hop'.trans hop, ho' ho⟩
  · intro b k x hx hmem
    rw [result_heading he] at hmem ⊢
    obtain ⟨-, y, hy, rfl⟩ := he.lists_inv hv.toFormed.tidy.toShaped hx
    obtain ⟨hmem', huse⟩ := huses hy hmem
    exact huse (h.uses hy hmem')

/-- Steps keep a plain slot plain if they take it to be plain, or if only slots have the type of its address. -/
theorem Step.plain {known : Escapes} (h : Step dom known f g) (hv : m.Valid dom f) (hs : known.lookup s = some false ∨
    ∀ {b k : Nat} {i : Instr}, f.Lists b k i → i.op ≠ .alloca → i.type ≠ (f.result s).type) (hp : Plain f s) :
    Plain g s := by
  cases h with
  | @replace b k i v hl _ hop ht _ _ hslot =>
    have hsk : s ≠ k := by
      rintro rfl
      exact hop (hp.single hl).1
    refine hp.edited hv (Function.edited_replaced hv.toFormed.tidy hl v) (fun _ ↦ ⟨rfl, fun ho ↦ ?_⟩) fun hx hmem ↦ ?_
    · simp [Instr.rewire, ho]
    · have hnew : v ≠ f.result s := by
        rcases hs with hs | hs
        · exact hslot s hs
        · rintro rfl
          exact hs hl hop ht.symm
      rcases Instr.mem_rewire hmem with ⟨hmem', -⟩ | ⟨-, heq⟩
      · exact ⟨hmem', isPlainUse_rewire (result_ne f hsk) hnew⟩
      · exact absurd (Option.some.inj heq).symm hnew
  | drop hl | dropStore hl =>
    exact hp.edited hv (Function.edited_removeFrom hv.toFormed.tidy hl) (fun _ ↦ ⟨rfl, id⟩) fun _ hmem ↦ ⟨hmem, id⟩
  | @swap b k i i' hl h =>
    obtain ⟨ht, hop, htar, hhome, -⟩ := reassociated?_same h
    refine hp.edited hv (Function.edited_withInstr hl ht hop htar hhome) (fun hy ↦ ?_) fun hy hmem ↦
      uses_swapped hv hl h (fun hj ↦ Option.some.inj ((hj ▸ hy.found).symm.trans hl.found)) (hp.uses hy) hmem
    have hsk : s ≠ k := by
      rintro rfl
      exact (reassociated?_op h).1 (hp.single hl).1
    rw [if_neg hsk]
    exact ⟨rfl, id⟩

/-- A function in the course of passes. -/
structure Sane (m : Module) (dom : DomTree) (known : Escapes) (f : Function) : Prop extends m.Valid dom f where
  sound : DomTree.Sound m f dom
  knows : Knows known f

theorem Step.sane {known : Escapes} (h : Step dom known f g) (hf : Sane m dom known f) : Sane m dom known g := by
  refine ⟨h.valid hf.toValid hf.sound, ?_, fun s hs ↦ h.plain hf.toValid (.inl hs) (hf.knows s hs)⟩
  have hid := (h.sameFlow hf.toValid hf.sound).id
  have hblock : g.blockId 0 = f.blockId 0 := by rw [Function.blockId, hid, Function.blockId]
  obtain ⟨h1, h2, h3, h4, h5, h6, h7⟩ := hf.sound
  exact ⟨hblock ▸ h1, h2, hblock ▸ h3, h4, h5, h6, h7⟩

abbrev Steps (dom : DomTree) (known : Escapes) : Function → Function → Prop := Relation.ReflTransGen (Step dom known)

theorem Steps.sane {known : Escapes} (h : Steps dom known f g) (hf : Sane m dom known f) :
    Sane m dom known g ∧ SameFlow f g := by
  induction h with
  | refl => exact ⟨hf, .refl f⟩
  | tail _ hstep ih => exact ⟨hstep.sane ih.1, ih.2.trans (hstep.sameFlow ih.1.toValid ih.1.sound)⟩

theorem Steps.result {known : Escapes} (h : Steps dom known f g) (hf : Sane m dom known f) (k : Nat) :
    g.result k = f.result k := by
  induction h with
  | refl => rfl
  | tail hsteps hstep ih =>
    have hg := (Steps.sane hsteps hf).1
    obtain ⟨_, _, he, -⟩ := hstep.edited hg.toValid hg.sound
    exact (result_heading he k).trans ih

end

end CilSsa.Passes

