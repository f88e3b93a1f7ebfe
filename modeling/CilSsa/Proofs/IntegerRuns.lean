import CilSsa.Proofs.VariableRuns
import CilSsa.Proofs.FrameSlots
import CilSsa.Proofs.Folding

/-! Whatever the machine returns for a function on integers a run with variables gives, so the machine returns it
after the passes too. -/

namespace CilSsa.Ssa

/-- Whether an instruction loads from `p` or stores there, and does nothing else with it. -/
def Instr.addresses (i : Instr) (p : Value) : Bool :=
  match i.op, i.operands with
  | .load, [q] => q == some p
  | .store, [v, q] => q == some p && v != some p
  | _, _ => false

theorem Instr.addresses_cases {i : Instr} {p : Value} (h : i.addresses p = true) :
    i.op = .load ∧ i.operands = [some p] ∨ i.op = .store ∧ ∃ v, v ≠ some p ∧ i.operands = [v, some p] := by
  unfold addresses at h
  split at h
  · rename_i hop ho
    exact .inl ⟨hop, by rw [ho, eq_of_beq h]⟩
  · rename_i v q hop ho
    rw [Bool.and_eq_true, bne_iff_ne] at h
    exact .inr ⟨hop, v, h.2, by rw [ho, eq_of_beq h.1]⟩
  · cases h

def integerOps : List Op :=
  [.alloca, .load, .store, .add, .sub, .mul, .icmp, .select, .trunc, .zext, .sext, .br, .condbr, .ret]

/-- Functions on integers: their slots are for one integer each, and are used for nothing but loads and stores. -/
structure IntegerFunction (F : Function) : Prop where
  params : ∀ t ∈ F.paramTypes, t.isInt = true
  result : F.ret.isInt = true
  ops : ∀ x ∈ F.instructions, x.2.op ∈ integerOps
  slots : ∀ x ∈ F.instructions, x.2.op = .alloca → x.2.operands = [] ∧ x.2.allocated.isInt = true ∧
    x.2.allocated.bits < 2 ^ 63
  places : ∀ x ∈ F.instructions, x.2.op = .load ∨ x.2.op = .store →
    ∃ s ∈ F.instructions, s.2.op = .alloca ∧ x.2.addresses (F.result s.1) = true
  uses : ∀ s ∈ F.instructions, s.2.op = .alloca → ∀ x ∈ F.instructions, some (F.result s.1) ∈ x.2.operands →
    x.2.addresses (F.result s.1) = true

/-- Whether a value is no function, and an integer if it is a constant of an integer type. -/
def Value.plain : Value → Bool
  | .func .. => false
  | .const (.float t _) _ => !t.isInt
  | _ => true

/-- Functions on integers that work on plain values. -/
structure PlainIntegerFunction (F : Function) : Prop extends IntegerFunction F where
  values : ∀ x ∈ F.instructions, ∀ o ∈ x.2.operands, o.all Value.plain = true

variable {F : Function} {b c k s : Nat} {i x : Instr} {v : Value}

theorem Function.Lists.mem (hl : F.Lists b k i) : (k, i) ∈ F.instructions := F.mem_instructions.mpr ⟨b, hl⟩

theorem IntegerFunction.slot (hF : IntegerFunction F) (hl : F.Lists b k i) (hop : i.op = .alloca) :
    i.operands = [] ∧ ∃ n < 2 ^ 63, i.allocated = .int n := by
  obtain ⟨ho, hint, hbits⟩ := hF.slots _ hl.mem hop
  obtain ⟨n, hn⟩ := FlowMachine.isInt_eq hint
  rw [hn] at hbits
  exact ⟨ho, n, hbits, hn⟩

theorem IntegerFunction.place (hF : IntegerFunction F) (hl : F.Lists b k i) (hop : i.op = .load ∨ i.op = .store) :
    ∃ c s x, F.Lists c s x ∧ x.op = .alloca ∧ i.addresses (F.result s) = true := by
  obtain ⟨⟨s, x⟩, hs, hal, h⟩ := hF.places _ hl.mem hop
  obtain ⟨c, hx⟩ := F.mem_instructions.mp hs
  exact ⟨c, s, x, hx, hal, h⟩

theorem IntegerFunction.use (hF : IntegerFunction F) (hx : F.Lists c s x) (hop : x.op = .alloca) (hl : F.Lists b k i)
    (ho : some (F.result s) ∈ i.operands) : i.addresses (F.result s) = true := hF.uses _ hx.mem hop _ hl.mem ho

theorem PlainIntegerFunction.value (hF : PlainIntegerFunction F) (hl : F.Lists b k i) (ho : some v ∈ i.operands) :
    v.plain = true := hF.values _ hl.mem _ ho

end CilSsa.Ssa

namespace CilSsa.FlowMachine

open CilSsa.Ssa CilSsa.Passes CilSsa.Machine CilSsa.Text
open CilSsa.Number hiding Datum
open CilSsa.SlotMachine (Datum Slot Store Leaves Backed Framed Fetches Arrives Overflows Kin Idle entryFrame withStack)

variable {m : Module} {dom : DomTree} {F : Function} {plain : Nat → Bool} {fill : FuncId} {args : List UInt64}
  {base : Nat → Nat} {fr fr' : Frame} {e e' c : Engine} {b k s n h : Nat} {i x : Instr}
  {pre rest ks : List Nat} {σ σ' : State}
  {d : Datum} {u v : Value} {t : Ty} {a w : UInt64} {trace : List String} {ops : List UInt64}

section slots

theorem unescaped_of_slot (hF : IntegerFunction F) (hl : F.Lists b s x) (hop : x.op = .alloca) :
    unescaped F s = true := by
  have hescapes : escapes F s x = false := by
    unfold escapes
    rw [(hF.slot hl hop).1, List.isEmpty_nil, Bool.not_true, Bool.false_or, List.any_eq_false]
    rintro ⟨k, i⟩ hmem
    obtain ⟨⟨c, hi⟩, ho⟩ := users_inv hmem
    rcases Instr.addresses_cases (hF.use hl hop hi ho) with ⟨hload, -⟩ | ⟨hstore, v, hne, hops⟩
    · simp [isPlainUse, hload]
    · simp [isPlainUse, hstore, hops, hne]
  have hfound : (s, false) ∈ findEscapes F :=
    List.mem_filterMap.mpr ⟨(s, x), F.mem_instructions.mpr ⟨b, hl⟩, by simp [hop, hescapes]⟩
  have honly : ∀ e, (s, e) ∈ findEscapes F → e = false := by
    intro e he
    obtain ⟨⟨j, y⟩, hy, heq⟩ := List.mem_filterMap.mp he
    simp only [Option.ite_none_right_eq_some, Option.some.injEq, Prod.mk.injEq] at heq
    obtain ⟨-, rfl, rfl⟩ := heq
    obtain ⟨c, hy⟩ := F.mem_instructions.mp hy
    cases hy.found.symm.trans hl.found
    exact hescapes
  unfold unescaped
  cases hlook : (findEscapes F).lookup s with
  | none =>
    have := List.lookup_eq_none_iff.mp hlook _ hfound
    simp at this
  | some e =>
    obtain ⟨l₁, l₂, heq, -⟩ := List.lookup_eq_some_iff.mp hlook
    rw [honly e (by rw [heq]; simp)]
    rfl

theorem slot_of_access (hv : m.Valid dom F) (hF : IntegerFunction F) (hl : F.Lists b k i) (hop : i.op = .load ∨
    i.op = .store) : ∃ s n, unescaped F s = true ∧ slotType F s = .int n ∧
    F.result s = .instr ⟨F.id, s⟩ (.pointer (.int n)) ∧
      i.addresses (F.result s) = true := by
  obtain ⟨c, s, x, hx, hal, haddr⟩ := hF.place hl hop
  obtain ⟨-, n, -, hn⟩ := hF.slot hx hal
  refine ⟨s, n, unescaped_of_slot hF hx hal, ?_, ?_, haddr⟩
  · rw [slotType, hx.found, Option.map_some, Option.getD_some, hn]
  · rw [Function.result_eq hx.found, (hv.alloca_type hx hal).1, hn]

theorem access_of_slot (hv : m.Valid dom F) (hF : IntegerFunction F) (hat : At dom F b pre k i) {id : InstrId}
    (ho : some (.instr id t) ∈ i.operands) (hs : unescaped F id.index = true) : i.addresses (.instr id t) = true := by
  obtain ⟨c, x, hx⟩ := hv.lists_of_sees (hv.sees hat.lists hat.live ho)
  obtain ⟨hal, -⟩ := (plain_of_findEscapes (eq_of_beq hs)).single hx
  have heq := hv.eq_result hat.lists ho
  rw [heq] at ho ⊢
  exact hF.use hx hal hat.lists ho

end slots

section access

theorem length_of_readWord? {bs : Bytes} (h : readWord? bs = some w) :
    bs.length = 1 ∨ bs.length = 2 ∨ bs.length = 4 ∨ 8 ≤ bs.length := by
  unfold readWord? at h
  generalize bs.length = n at h ⊢
  split at h
  · exact .inl rfl
  · exact .inr (.inl rfl)
  · exact .inr (.inr (.inl rfl))
  · split at h
    · cases h
    · omega

theorem width_of_wordBytes? {bs : Bytes} (h : wordBytes? n w = some bs) : n = 1 ∨ n = 2 ∨ n = 4 ∨ 8 ≤ n := by
  unfold wordBytes? at h
  split at h
  · exact .inl rfl
  · exact .inr (.inl rfl)
  · exact .inr (.inr (.inl rfl))
  · split at h
    · cases h
    · omega

theorem accessible_of_load (h : (load m trace a (.int n)).run.run e = (.ok w, c)) : accessible (.int n) = true := by
  obtain ⟨p, c', hp, -⟩ := run_bind_inv h
  obtain ⟨bs, c'', hread, hword⟩ := run_bind_inv hp
  have hlength := Memory.length_read? (readBytes_inv hread).2
  cases hbs : readWord? bs with
  | none =>
    rw [hbs] at hword
    cases hword
  | some p =>
    have := length_of_readWord? hbs
    rw [hlength] at this
    simpa [accessible] using this

theorem accessible_of_store {x : Unit} (h : (store m trace a (.int n) w).run.run e = (.ok x, c)) :
    accessible (.int n) = true := by
  obtain ⟨_, c', -, hwrite⟩ := run_bind_inv h
  cases hbs : wordBytes? (byteWidth n) (zeroExtend w n) with
  | none =>
    rw [hbs] at hwrite
    cases hwrite
  | some bs => simpa [accessible] using width_of_wordBytes? hbs

theorem scalar_small {w : Nat} (h : w < 2 ^ 62) : (Layout.scalar w).size < 2 ^ 62 ∧ (Layout.scalar w).Modest := by
  unfold Layout.scalar
  split
  · exact ⟨by decide, le_rfl⟩
  · exact ⟨h, le_max_left ..⟩

theorem stackAlloc_small {l : Layout} (he : e.layouts.Plain) (ht : scalarLayout? t = some l) (hsize : l.size < 2 ^ 62)
    (hmodest : l.Modest)
    (h : (stackAlloc m trace t 1).run.run e = (.ok a, c)) : Region.alignUp e.memory.stack.top l.align +
    l.size < 2 ^ 63 := by
  obtain ⟨e', he', hsizeOf⟩ := sizeOf_run m trace he ht
  have hlayout : (e'.layouts.alignOf m t).1.toOption.getD 1 = l.align := by
    simp only [Layouts.alignOf, (he'.layouts.of m ht).1]
    rfl
  have hwrap : wrapInt ((l.size : Int) * 1) = l.size := by
    rw [Int.mul_one, wrapInt_of_lt (by omega)]
  unfold stackAlloc at h
  rw [run_bind_ok hsizeOf, run_bind_ok run_get, hlayout, hwrap] at h
  unfold takeStack at h
  rw [run_bind_ok run_get, he'.memory, he'.limits] at h
  split at h
  rotate_left
  · cases h
  · cases h
  rename_i address stop hroom
  obtain ⟨_, rfl, -, -, -, hstop⟩ := Region.room_modest (by omega) hmodest hroom
  exact hstop ▸ Region.stop_lt hroom

end access

end CilSsa.FlowMachine

namespace CilSsa.Ssa

variable {f : Function} {i : Instr} {k : Nat}

theorem Function.Built.made (h : f.Built) (hi : f.instr? k = some i) : i.Built := by
  induction h with
  | declared => cases hi
  | renamed names _ ih => exact ih hi
  | @block f name _ ih =>
    obtain ⟨hinstrs, -⟩ := Lowering.uniqueName_kept f (if name = "" then "bb" else name)
    exact ih ((congrArg (·[k]?) hinstrs).symm.trans hi)
  | @instr f b j _ _ hj _ ih =>
    rw [Function.instr?, Lowering.append_instrs, Array.getElem?_push] at hi
    split at hi
    · cases hi
      exact ⟨j, hj, rfl⟩
    · exact ih hi

theorem Instr.Built.jump (h : i.Built) (hop : i.op = .br) (ht : i.targets.length = 1) : i.operands = [] := by
  obtain ⟨j, hj, heq⟩ := h
  have hop : j.op = .br := by rwa [heq] at hop
  have ht : j.targets.length = 1 := by rwa [heq] at ht
  have hno : j.operands = [] := by
    cases hj with
    | br => rfl
    | condbr => cases hop
    | _ => cases ht
  rw [heq]
  exact hno

end CilSsa.Ssa

namespace CilSsa.FlowMachine

open CilSsa.Ssa CilSsa.Passes CilSsa.Machine CilSsa.Text
open CilSsa.Number hiding Datum
open CilSsa.SlotMachine (Datum Slot Store Leaves Backed Framed Fetches Arrives Overflows Kin Idle
  entryFrame withStack sum)

variable {m : Module} {dom : DomTree} {F : Function} {fill : FuncId} {args : List UInt64} {base : Nat → Nat}
  {fr fr' : Frame} {e e' c : Engine} {b k s n h : Nat} {i x : Instr} {pre rest ks : List Nat} {σ σ' : State} {d : Datum}
  {u v : Value} {t : Ty}
  {a w : UInt64} {trace : List String} {ops : List UInt64} {vs : List Value} {ts : List Ty} {ds : List Datum}

def IsNumber (t : Ty) (d : Datum) : Prop := ∃ w, d = .word w ∧ suits d t = true

theorem isNumber_signExtend (w : UInt64) (n : Nat) : IsNumber (.int n) (.word (signExtend w n)) :=
  ⟨_, rfl, by simp [suits]⟩

section computing

theorem IsNumber.computed (h : computed i ts ds = some d) (hds : List.Forall₂ IsNumber ts ds) : IsNumber i.type d := by
  cases computed_inv h with
  | add hop ht hs =>
    cases hds with
    | cons ha hrest =>
      cases hrest with
      | cons hb =>
        obtain ⟨v, rfl, -⟩ := ha
        obtain ⟨w, rfl, -⟩ := hb
        cases hs
        rw [ht]
        exact isNumber_signExtend (v + w) _
  | sub hop ht =>
    rw [ht]
    exact isNumber_signExtend _ _
  | mul hop ht =>
    rw [ht]
    exact isNumber_signExtend _ _
  | @icmp t a b hop ht =>
    rw [ht]
    refine ⟨_, rfl, ?_⟩
    unfold suits Ty.i1
    exact decide_eq_true (signExtend_boolBits _)
  | select hop =>
    cases hds with
    | cons _ hrest =>
      cases hrest with
      | cons ha hrest =>
        cases hrest with
        | cons hb =>
          split
          · exact ha
          · exact hb
  | cut hop ht =>
    rw [ht]
    exact isNumber_signExtend _ _
  | zext hop ht =>
    rw [ht]
    exact isNumber_signExtend _ _
  | address hop =>
    cases hds with
    | cons ha =>
      obtain ⟨w, heq, -⟩ := ha
      cases heq

def calculates : Op → Bool
  | .add | .sub | .mul | .icmp | .select | .trunc | .zext | .sext => true
  | _ => false

theorem exists_word {x : Value} (ho : i.operands = vs.map some)
    (hds : List.Forall₂ IsNumber (vs.map Value.type) ds) (hx : i.operands = [some x]) :
    ∃ a, vs = [x] ∧ ds = [.word a] := by
  obtain rfl : vs = [x] := List.map_injective_iff.mpr (Option.some_injective _) (ho.symm.trans hx)
  cases hds with
  | cons ha hnil =>
    cases hnil
    obtain ⟨a, rfl, -⟩ := ha
    exact ⟨a, rfl, rfl⟩

theorem exists_words {x y : Value} (ho : i.operands = vs.map some)
    (hds : List.Forall₂ IsNumber (vs.map Value.type) ds) (hxy : i.operands = [some x, some y]) :
    ∃ a b, vs = [x, y] ∧ ds = [.word a, .word b] := by
  obtain rfl : vs = [x, y] := List.map_injective_iff.mpr (Option.some_injective _) (ho.symm.trans hxy)
  cases hds with
  | cons ha hrest =>
    cases hrest with
    | cons hb hnil =>
      cases hnil
      obtain ⟨a, rfl, -⟩ := ha
      obtain ⟨b, rfl, -⟩ := hb
      exact ⟨a, b, rfl, rfl⟩

theorem arithmetic_words (hr : m.Ruled F i) (ht : i.Typed) (hop : i.op = .add ∨ i.op = .sub ∨ i.op = .mul)
    (ho : i.operands = vs.map some) (hds : List.Forall₂ IsNumber (vs.map Value.type) ds) :
    ∃ x y a b, vs = [x, y] ∧ ds = [.word a, .word b] ∧ x.type = i.type ∧ y.type = i.type ∧ i.type.isInt = true := by
  have hbin : i.op.isBinary = true := by rcases hop with hop | hop | hop <;> rw [hop] <;> rfl
  obtain ⟨x, y, hxy, heq, hkind⟩ := hr.binary_operands hbin
  obtain ⟨a, b, rfl, rfl⟩ := exists_words ho hds hxy
  have htype := ht.binary x y hbin hxy
  refine ⟨x, y, a, b, rfl, rfl, htype.symm, heq.symm.trans htype.symm, ?_⟩
  rcases hkind with ⟨-, hint⟩ | ⟨hfloat, -⟩
  · rwa [htype]
  · rcases hop with hop | hop | hop <;> simp [hop] at hfloat

theorem conversion_word (hr : m.Ruled F i) (hop : i.op = .trunc ∨ i.op = .zext ∨ i.op = .sext)
    (ho : i.operands = vs.map some) (hds : List.Forall₂ IsNumber (vs.map Value.type) ds) :
    ∃ x a, vs = [x] ∧ ds = [.word a] ∧ x.type.isInt = true ∧ i.type.isInt = true := by
  have hcast : i.op.isCast = true := by rcases hop with hop | hop | hop <;> rw [hop] <;> rfl
  obtain ⟨x, hx, hvalid⟩ := hr.cast_operands hcast
  obtain ⟨a, rfl, rfl⟩ := exists_word ho hds hx
  refine ⟨x, a, rfl, rfl, ?_⟩
  rcases hop with hop | hop | hop <;> simp [hop, validCast] at hvalid <;> exact hvalid.1

theorem exists_computed (hr : m.Ruled F i) (ht : i.Typed) (hop : calculates i.op = true) (ho : i.operands = vs.map some)
    (hds : List.Forall₂ IsNumber (vs.map Value.type) ds) : ∃ d, computed i (vs.map Value.type) ds = some d := by
  generalize hi : i.op = op at hop
  cases op with
  | add =>
    obtain ⟨x, y, a, b, rfl, rfl, hx, hy, hint⟩ := arithmetic_words hr ht (.inl hi) ho hds
    exact ⟨_, by simp only [computed, hi, List.map_cons, List.map_nil, hx, hy, hint, and_self, if_true]; rfl⟩
  | sub =>
    obtain ⟨x, y, a, b, rfl, rfl, hx, hy, hint⟩ := arithmetic_words hr ht (.inr (.inl hi)) ho hds
    exact ⟨_, by simp only [computed, hi, List.map_cons, List.map_nil, hx, hy, hint, and_self, if_true]; rfl⟩
  | mul =>
    obtain ⟨x, y, a, b, rfl, rfl, hx, hy, hint⟩ := arithmetic_words hr ht (.inr (.inr hi)) ho hds
    exact ⟨_, by simp only [computed, hi, List.map_cons, List.map_nil, hx, hy, hint, and_self, if_true]; rfl⟩
  | icmp =>
    obtain ⟨x, y, hxy, heq, hpred⟩ := hr.icmp_operands hi
    obtain ⟨a, b, rfl, rfl⟩ := exists_words ho hds hxy
    have htype : i.type = .i1 := ht.compare _ _ (.inl hi) hxy
    exact ⟨_, by simp only [computed, hi, List.map_cons, List.map_nil, htype, heq, hpred, and_self, if_true]; rfl⟩
  | select =>
    obtain ⟨c, x, y, hcxy, hc, hx, hy⟩ := hr.select_operands hi
    obtain rfl : vs = [c, x, y] := List.map_injective_iff.mpr (Option.some_injective _) (ho.symm.trans hcxy)
    cases hds with
    | cons hv hrest =>
      cases hrest with
      | cons ha hrest =>
        cases hrest with
        | cons hb hnil =>
          cases hnil
          obtain ⟨v, rfl, -⟩ := hv
          exact ⟨_, by simp only [computed, hi, List.map_cons, List.map_nil, hc, hx, hy, and_self, if_true]; rfl⟩
  | trunc =>
    obtain ⟨x, a, rfl, rfl, hx, hint⟩ := conversion_word hr (.inl hi) ho hds
    exact ⟨_, by simp only [computed, hi, List.map_cons, List.map_nil, hx, hint, and_self, if_true]; rfl⟩
  | zext =>
    obtain ⟨x, a, rfl, rfl, hx, hint⟩ := conversion_word hr (.inr (.inl hi)) ho hds
    exact ⟨_, by simp only [computed, hi, List.map_cons, List.map_nil, hx, hint, and_self, if_true]; rfl⟩
  | sext =>
    obtain ⟨x, a, rfl, rfl, hx, hint⟩ := conversion_word hr (.inr (.inr hi)) ho hds
    exact ⟨_, by simp only [computed, hi, List.map_cons, List.map_nil, hx, hint, and_self, if_true]; rfl⟩
  | _ => cases hop

end computing

def Canonical (F : Function) (args : List UInt64) : Prop :=
  ∀ {j : Nat} {t : Ty} {a : UInt64}, F.paramTypes[j]? = some t → args[j]? = some a → signExtend a t.bits = a

/-- There are numbers only. -/
structure Numeric (F : Function) (σ : State) : Prop where
  values : ∀ {j : Nat} {d : Datum} {x : Instr}, σ.values j = some d → F.instr? j = some x → IsNumber x.type d
  vars : ∀ {s : Nat} {d : Datum}, σ.vars s = some d → IsNumber (slotType F s) d

theorem Numeric.start (F : Function) : Numeric F {} := by
  constructor <;> rintro _ _ <;> first | rintro _ ⟨⟩ | rintro ⟨⟩

def Complete (F : Function) (σ : State) (fr : Frame) : Prop :=
  ∀ {j : Nat} {p : UInt64}, fr.values[(⟨F.id, j⟩ : InstrId)]? = some p →
  ((σ.whole F (unescaped F)).values j).isSome = true

theorem isNumber_const {c : Const} {o : Origin} (hmade : c.Made) (hplain : Value.plain (.const c o) = true) :
    IsNumber c.type (.word (c.bits?.getD 0)) := by
  have hfloat : ∀ {t : Ty} (w : UInt64), t.isInt = false → suits (.word w) t = true := by
    intro t w ht
    cases t <;> first | rfl | cases ht
  refine ⟨_, rfl, ?_⟩
  cases hmade with
  | int t v =>
    cases t with
    | int n => exact decide_eq_true (signExtend_signExtend v n)
    | _ => rfl
  | double t w =>
    have htype : (Const.ofDouble t w).type = t := by unfold Const.ofDouble; split <;> rfl
    rw [htype]
    refine hfloat _ ?_
    unfold Const.ofDouble at hplain
    split at hplain <;> simpa [Value.plain] using hplain
  | null t => exact suits_zero t
  | undef t => exact suits_zero t

section operands

variable (hv : m.Valid dom F) (hF : PlainIntegerFunction F) (hargs : Canonical F args) (hat : At dom F b pre k i)
  (hσ : Numeric F σ) (hcomplete : Complete F σ fr) (hfr : fr.args = args)

include hv hF hargs hat hσ hcomplete hfr

theorem datum_of_has (ho : some v ∈ i.operands) (hno : ∀ id t, v = .instr id t → unescaped F id.index = false)
    (h : fr.Has c (some v) a) : ∃ d, datum F.id (unescaped F) args σ v = some d ∧ IsNumber v.type d := by
  have hplain := hF.value hat.lists ho
  have hoffers := hv.offers hat.lists ho
  obtain ⟨_, heq, htakes⟩ := hv.takes hat.lists ho
  obtain rfl := Option.some.inj heq
  unfold datum
  cases h with
  | @instr id t _ hval =>
    obtain ⟨fn, j⟩ := id
    obtain ⟨rfl, x, hx, rfl⟩ := hoffers
    have hj := hno _ _ rfl
    obtain ⟨d, hd⟩ := Option.isSome_iff_exists.mp (hcomplete hval)
    simp only [State.whole, hj, Bool.false_eq_true, if_false, Option.ite_none_right_eq_some] at hd
    obtain ⟨w, rfl, hsuits⟩ := hσ.values hd.2 hx
    refine ⟨.word w, ?_, w, rfl, hsuits⟩
    simp [hj, hd.2, Option.filter, Value.type, hsuits]
  | @param fn j t p hp =>
    rw [hfr] at hp
    have ht := hoffers (htakes.own _ _ _ rfl)
    have hsuits : suits (.word a) t = true := by
      obtain ⟨n, rfl⟩ := isInt_eq (hF.params t (List.mem_of_getElem? ht))
      exact decide_eq_true (hargs ht hp)
    refine ⟨.word a, ?_, a, rfl, hsuits⟩
    simp [hp, Option.filter, Value.type, hsuits]
  | func => cases hplain
  | const =>
    obtain ⟨w, heq, hsuits⟩ := isNumber_const hoffers hplain
    cases heq
    refine ⟨_, ?_, _, rfl, hsuits⟩
    simp [Option.filter, Value.type, hsuits]

theorem reads_of_has (ho : i.operands = vs.map some)
    (hno : ∀ id t, .instr id t ∈ vs → unescaped F id.index = false) (h : fr.HasAll c i.operands ops) :
    ∃ ds, Reads F (unescaped F) args σ i vs ds ∧ List.Forall₂ IsNumber (vs.map Value.type) ds := by
  suffices hall : ∀ (us : List Value) (ops : List UInt64), (∀ u ∈ us, some u ∈ i.operands) →
      (∀ id t, .instr id t ∈ us → unescaped F id.index = false) → fr.HasAll c (us.map some) ops →
      ∃ ds, List.Forall₂ (fun v d ↦ datum F.id (unescaped F) args σ v = some d) us ds ∧
        List.Forall₂ IsNumber (us.map Value.type) ds by
    obtain ⟨ds, hds, hnum⟩ := hall vs ops (fun u hu ↦ by rw [ho]; exact List.mem_map_of_mem hu) hno (ho ▸ h)
    exact ⟨ds, ⟨ho, hds⟩, hnum⟩
  intro us
  induction us with
  | nil => exact fun _ _ _ _ ↦ ⟨[], .nil, .nil⟩
  | cons u us ih =>
    intro ops hmem hno hops
    cases hops with
    | cons hu hus =>
      obtain ⟨d, hd, hnum⟩ := datum_of_has hv hF hargs hat hσ hcomplete hfr (hmem u List.mem_cons_self)
        (fun id t heq ↦ hno id t (heq ▸ List.mem_cons_self)) hu
      obtain ⟨ds, hds, hnums⟩ := ih _ (fun u hu ↦ hmem u (List.mem_cons_of_mem _ hu))
        (fun id t hid ↦ hno id t (List.mem_cons_of_mem _ hid)) hus
      exact ⟨d :: ds, .cons hd hds, .cons hnum hnums⟩

end operands

section step

variable (F fill args) in
/-- What an instruction does with numbers: it makes a variable, gives a number, or puts one in a variable. -/
inductive Moves (σ : State) (k : Nat) (i : Instr) : State → Prop
  | made {l : Layout} : unescaped F k = true → Act F (unescaped F) fill args σ k i (σ.allocate k l) →
      Moves σ k i (σ.allocate k l)
  | gives {d : Datum} : unescaped F k = false → IsNumber i.type d → Act F (unescaped F) fill args σ k i (σ.define k d) →
      Moves σ k i (σ.define k d)
  | keeps {s : Nat} {d : Datum} : (σ.vars s).isSome = true → unescaped F s = true → IsNumber (slotType F s) d →
      i.hasValue = false → Act F (unescaped F) fill args σ k i (σ.setVar s d) → Moves σ k i (σ.setVar s d)

theorem Moves.act (h : Moves F fill args σ k i σ') : Act F (unescaped F) fill args σ k i σ' := by
  cases h with
  | made _ hact => exact hact
  | gives _ _ hact => exact hact
  | keeps _ _ _ _ hact => exact hact

theorem Moves.numeric (h : Moves F fill args σ k i σ') (hσ : Numeric F σ) (hi : F.instr? k = some i) :
    Numeric F σ' := by
  have hvar : ∀ s d, IsNumber (slotType F s) d → Numeric F (σ.setVar s d) := by
    intro s d hd
    refine ⟨hσ.values, fun {q dq} hq ↦ ?_⟩
    simp only [State.setVar] at hq
    split at hq
    · rename_i heq
      cases hq
      rwa [heq]
    · exact hσ.vars hq
  cases h with
  | made => exact ⟨hσ.values, (hvar k _ ⟨0, rfl, suits_zero _⟩).vars⟩
  | gives _ hd =>
    refine ⟨fun {j dj x} hj hx ↦ ?_, hσ.vars⟩
    simp only [State.define] at hj
    split at hj
    · rename_i heq
      subst heq
      cases hj
      cases hi.symm.trans hx
      exact hd
    · exact hσ.values hj hx
  | keeps _ _ hd => exact hvar _ _ hd

theorem Moves.complete (h : Moves F fill args σ k i σ') (hcomplete : Complete F σ fr) (hi : F.instr? k = some i)
    (hfr : fr.block.fn = F.id) (hrest : fr.rest = k :: rest) (w : UInt64) : Complete F σ' (fr.advance i w) := by
  intro j p hp
  rw [Frame.advance_values hrest, hfr] at hp
  have hold : ¬ (i.hasValue = true ∧ (⟨F.id, j⟩ : InstrId) = ⟨F.id, k⟩) →
    ((σ.whole F (unescaped F)).values j).isSome = true :=
    fun hne ↦ hcomplete (by rwa [if_neg hne] at hp)
  by_cases hjk : i.hasValue = true ∧ (⟨F.id, j⟩ : InstrId) = ⟨F.id, k⟩
  · obtain ⟨hvalue, heq⟩ := hjk
    obtain rfl : j = k := by simpa using heq
    have hvalued : valued F j = true := by simp [valued, hi, hvalue]
    cases h with
    | made hs => simp [State.whole, hs, State.allocate, State.setVar]
    | gives hs => simp [State.whole, hs, State.define, hvalued]
    | keeps _ _ _ hvoid => rw [hvoid] at hvalue; cases hvalue
  · have hsome := hold hjk
    cases h with
    | made hs =>
      by_cases heq : j = k
      · subst heq
        simp [State.whole, hs, State.allocate, State.setVar]
      · simpa [State.whole, State.allocate, State.setVar, heq] using hsome
    | gives hs =>
      by_cases heq : j = k
      · subst heq
        have hvalue : i.hasValue = false := by simpa using hjk
        simp [State.whole, hs, valued, hi, hvalue] at hsome
      · simpa [State.whole, State.define, heq] using hsome
    | @keeps s d hvar hs =>
      by_cases heq : j = s
      · subst heq
        simp [State.whole, hs, State.setVar]
      · simpa [State.whole, State.setVar, heq] using hsome

end step

section steps

variable (hv : m.Valid dom F) (hF : PlainIntegerFunction F) (hat : At dom F b pre k i) (hσ : Numeric F σ)
  (hcomplete : Complete F σ fr)

include hcomplete in
theorem Complete.var (hs : unescaped F s = true) (h : fr.Has c (some (.instr ⟨F.id, s⟩ t)) a) :
    (σ.vars s).isSome = true := by
  cases h with
  | instr hval => simpa [State.whole, hs] using hcomplete hval

include hv hF hat

omit hv in
theorem moves_alloca (hop : i.op = .alloca) (htop : e.memory.stack.top = σ.height)
    (he : e.layouts.Plain) (h : (compute m trace i []).run.run e = (.ok w, e')) :
    ∃ σ', Moves F fill args σ k i σ' ∧ σ'.height < 2 ^ 63 := by
  obtain ⟨ho, n, hn, htype⟩ := hF.slot hat.lists hop
  have hl : scalarLayout? i.allocated = some (.scalar (byteWidth n)) := by rw [htype]; rfl
  obtain ⟨hsize, hmodest⟩ := scalar_small (w := byteWidth n) (by unfold byteWidth; omega)
  simp only [compute, hop] at h
  have hsmall := stackAlloc_small he hl hsize hmodest h
  rw [htop] at hsmall
  have hk := unescaped_of_slot hF.toIntegerFunction hat.lists hop
  exact ⟨_, .made hk (.var hk hop ho hl), hsmall⟩

include hσ hcomplete

theorem moves_load (hop : i.op = .load) (hhas : fr.HasAll c i.operands ops)
    (h : (compute m trace i ops).run.run c = (.ok w, e')) : ∃ d, Moves F fill args σ k i (σ.define k d) := by
  obtain ⟨s, n, hs, htype, hresult, haddr⟩ := slot_of_access hv hF.toIntegerFunction hat.lists (.inl hop)
  obtain ⟨-, ho⟩ | ⟨hne, -⟩ := Instr.addresses_cases haddr
  rotate_left
  · rw [hop] at hne
    cases hne
  rw [hresult] at ho
  obtain ⟨p, ho', hp⟩ := (hv.ruled hat.lists).load_operands hop
  rw [ho, List.singleton_inj, Option.some.injEq] at ho'
  subst ho'
  have hint : i.type = .int n := (Ty.pointer.inj hp).symm
  rw [ho] at hhas
  obtain ⟨a, rfl, ha⟩ := Frame.HasAll.single hhas
  obtain ⟨d, hd⟩ := Option.isSome_iff_exists.mp (hcomplete.var hs ha)
  simp only [compute, hop, hint] at h
  have hk : unescaped F k = false := plain_eq_false (fun _ ↦ variable_of_unescaped) hat.lists hat.live
    (by rw [hop]; decide)
  refine ⟨d, .gives hk ?_ (.get hop ho hs ?_ hd)⟩
  · rw [hint, ← htype]
    exact hσ.vars hd
  · rw [hint]
    exact accessible_of_load h

variable (hargs : Canonical F args) (hfr : fr.args = args)

include hargs hfr

theorem moves_store (hop : i.op = .store) (hhas : fr.HasAll c i.operands ops)
    (h : (compute m trace i ops).run.run c = (.ok w, e')) : ∃ s d, Moves F fill args σ k i (σ.setVar s d) := by
  obtain ⟨s, n, hs, htype, hresult, haddr⟩ := slot_of_access hv hF.toIntegerFunction hat.lists (.inr hop)
  obtain ⟨hne, -⟩ | ⟨-, o, hne, ho⟩ := Instr.addresses_cases haddr
  · rw [hop] at hne
    cases hne
  rw [hresult] at ho hne
  obtain ⟨v, p, ho', hp⟩ := (hv.ruled hat.lists).store_operands hop
  rw [ho, List.cons.injEq, List.singleton_inj, Option.some.injEq] at ho'
  obtain ⟨rfl, rfl⟩ := ho'
  have hint : v.type = .int n := (Ty.pointer.inj hp).symm
  rw [ho] at hhas
  obtain ⟨a, a', rfl, ha, ha'⟩ := Frame.HasAll.pair hhas
  have hvar := hcomplete.var hs ha'
  obtain ⟨d', hd'⟩ := Option.isSome_iff_exists.mp hvar
  have hno : ∀ id t, v = .instr id t → unescaped F id.index = false := by
    rintro id t rfl
    by_contra hslot
    rcases Instr.addresses_cases (access_of_slot hv hF.toIntegerFunction hat (by rw [ho]; exact List.mem_cons_self)
      (by simpa using hslot)) with ⟨hop', -⟩ | ⟨-, o, -, ho'⟩
    · rw [hop] at hop'
      cases hop'
    · rw [ho, List.cons.injEq, List.singleton_inj] at ho'
      exact hne ho'.2.symm
  obtain ⟨d, hd, hnum⟩ := datum_of_has hv hF hargs hat hσ hcomplete hfr (by rw [ho]; exact List.mem_cons_self) hno ha
  have hvoid : i.hasValue = false := by simp [Instr.hasValue, hv.store_type hat.lists hop, Ty.hasValue]
  have hacc : accessible v.type = true := by
    have hfirst : i.firstType = .int n := (SlotMachine.firstType_eq (by rw [ho]; rfl)).trans hint
    simp only [compute, hop, hfirst] at h
    obtain ⟨_, _, hstore, -⟩ := run_bind_inv h
    rw [hint]
    exact accessible_of_store hstore
  exact ⟨s, d, .keeps hvar hs (by rwa [htype, ← hint]) hvoid (.put hop ho hs hacc hd' hd)⟩

theorem exists_reads (hop : i.op ≠ .load ∧ i.op ≠ .store) (ho : i.operands = vs.map some)
    (hhas : fr.HasAll c i.operands ops) :
    ∃ ds, Reads F (unescaped F) args σ i vs ds ∧ List.Forall₂ IsNumber (vs.map Value.type) ds := by
  refine reads_of_has hv hF hargs hat hσ hcomplete hfr ho (fun id t hid ↦ ?_) hhas
  by_contra hne
  have hmem : some (.instr id t) ∈ i.operands := by rw [ho]; exact List.mem_map_of_mem hid
  rcases Instr.addresses_cases (access_of_slot hv hF.toIntegerFunction hat hmem (by simpa using hne)) with ⟨hload,
    -⟩ | ⟨hstore, -⟩
  · exact hop.1 hload
  · exact hop.2 hstore

theorem moves_calculates (hop : calculates i.op = true) (hhas : fr.HasAll c i.operands ops) :
    ∃ d, Moves F fill args σ k i (σ.define k d) := by
  have hne : i.op ≠ .alloca ∧ i.op ≠ .load ∧ i.op ≠ .store := by
    refine ⟨?_, ?_, ?_⟩ <;> (intro h; rw [h] at hop; cases hop)
  obtain ⟨vs, ho⟩ := (hv.ruled hat.lists).exists_operands
  obtain ⟨ds, hr, hnum⟩ := exists_reads hv hF hat hσ hcomplete hargs hfr hne.2 ho hhas
  obtain ⟨d, hd⟩ := exists_computed (hv.ruled hat.lists) (hv.typed hat.lists) hop ho hnum
  exact ⟨d, .gives (plain_eq_false (fun _ ↦ variable_of_unescaped) hat.lists hat.live hne.1) (IsNumber.computed hd hnum)
    (.compute hr hd)⟩

theorem exists_moves {pr : Progress} (hm : m.function? F.id = some F) (hB : Backed base (σ.whole F (unescaped F)) e)
    (hfn : fr.block.fn = F.id) (hrest : fr.rest = k :: rest) (hop : i.op.transfers = false)
    (hstep : (step m [fr]).run.run e = (.ok pr, e')) :
    ∃ σ' w, Moves F fill args σ k i σ' ∧ σ'.height < 2 ^ 63 ∧ pr = .running [fr.advance i w] := by
  have hi : m.instr? ⟨fr.block.fn, k⟩ = some i := by
    rw [hfn, Module.instr?, hm]
    exact hat.found
  obtain ⟨ops, w, c, hops, hcompute, hpr⟩ := step_computes hrest hi hop hstep
  have hhas := Frame.HasAll.of_run hops
  suffices h : ∃ σ', Moves F fill args σ k i σ' ∧ σ'.height < 2 ^ 63 by
    obtain ⟨σ', h, hsmall⟩ := h
    exact ⟨σ', w, h, hsmall, hpr⟩
  have hmem := hF.ops _ hat.lists.mem
  by_cases hcalc : calculates i.op = true
  · obtain ⟨d, h⟩ := moves_calculates hv hF hat hσ hcomplete hargs hfr hcalc hhas
    exact ⟨_, h, hB.small⟩
  generalize hi : i.op = op at hmem hop hcalc
  cases op with
  | alloca =>
    rw [(hF.slot hat.lists hi).1] at hops
    cases hops
    exact moves_alloca hF hat hi hB.top hB.layouts hcompute
  | load =>
    obtain ⟨d, h⟩ := moves_load hv hF hat hσ hcomplete hi hhas hcompute
    exact ⟨_, h, hB.small⟩
  | store =>
    obtain ⟨s, d, h⟩ := moves_store hv hF hat hσ hcomplete hargs hfr hi hhas hcompute
    exact ⟨_, h, hB.small⟩
  | add | sub | mul | icmp | select | trunc | zext | sext => exact absurd rfl hcalc
  | br | condbr | ret => cases hop
  | _ => simp [integerOps] at hmem

end steps

section exits

variable {pr : Progress} (hi : m.instr? ⟨fr.block.fn, k⟩ = some i) (hrest : fr.rest = k :: rest)
  (hstep : (step m [fr]).run.run e = (.ok pr, e'))

include hi hrest hstep

theorem step_jumps (hop : i.op = .br ∨ i.op = .condbr) : ∃ ops c j t B, fr.HasAll c i.operands ops ∧
    (i.op = .br ∧ j = 0 ∨ i.op = .condbr ∧ ∃ w ws, ops = w :: ws ∧ j = if isTrueBits w then 0 else 1) ∧
      i.targets[j]? = some (some t) ∧ m.block? t = some B := by
  unfold step at hstep
  dsimp only at hstep
  rw [hrest] at hstep
  dsimp only at hstep
  rw [hi] at hstep
  obtain ⟨ops, c, hops, hact⟩ := run_bind_inv hstep
  have hhas := Frame.HasAll.of_run hops
  rcases hop with hop | hop
  · rw [hop] at hact
    obtain ⟨fr', c', hgoto, -⟩ := run_bind_inv hact
    obtain ⟨-, t, B, ht, hB, -⟩ := goto_inv hgoto
    exact ⟨ops, c, 0, t, B, hhas, .inl ⟨hop, rfl⟩, ht, hB⟩
  · rw [hop] at hact
    cases ops with
    | nil => cases hact
    | cons w ws =>
      obtain ⟨fr', c', hgoto, -⟩ := run_bind_inv hact
      obtain ⟨-, t, B, ht, hB, -⟩ := goto_inv hgoto
      exact ⟨w :: ws, c, _, t, B, hhas, .inr ⟨hop, w, ws, rfl, rfl⟩, ht, hB⟩

theorem step_reads : ∃ ops c, fr.HasAll c i.operands ops := by
  unfold step at hstep
  dsimp only at hstep
  rw [hrest] at hstep
  dsimp only at hstep
  rw [hi] at hstep
  obtain ⟨ops, c, hops, -⟩ := run_bind_inv hstep
  exact ⟨ops, c, Frame.HasAll.of_run hops⟩

end exits

theorem nil_of_terminator (hv : m.Valid dom F) (hplace : F.blocks[b]?.map (·.instrs) = some (pre ++ k :: ks))
    (hi : F.instr? k = some i) (hop : i.op.isTerminator = true) : ks = [] := by
  obtain ⟨B, hB, hlist⟩ := Option.map_eq_some_iff.mp hplace
  obtain ⟨init, last, hends⟩ := hv.ends hB
  rcases List.eq_nil_or_concat ks with rfl | ⟨ks, z, rfl⟩
  · rfl
  · have hinit : init = pre ++ k :: ks := by
      have := hends.instrs.symm.trans hlist
      rw [List.concat_eq_append, ← List.cons_append, ← List.append_assoc] at this
      exact (List.append_inj' this rfl).1
    have := hends.others k (by simp [hinit]) i hi
    rw [hop] at this
    cases this

section run

variable (hm : m.function? F.id = some F) (hv : m.Valid dom F) (hd : DomTree.Sound m F dom) (hflow : Flows m F)
  (hF : PlainIntegerFunction F) (hbuilt : F.Built) (hargs : Canonical F args)

include hm hv hF hargs

include hbuilt in
/-- Where the machine leaves a block for another, there is a jump with numbers. -/
theorem exists_jump {pr : Progress} (hat : At dom F b pre k i) (hσ : Numeric F σ) (hcomplete : Complete F σ fr)
    (hfr : Framed F args base (σ.whole F (unescaped F)) fr) (hrest : fr.rest = k :: rest)
    (hop : i.op = .br ∨ i.op = .condbr) (hstep : (step m [fr]).run.run e = (.ok pr, e')) :
    ∃ vs ds b' B, Reads F (unescaped F) args σ i vs ds ∧ Leaves F.id i ds (.goto b') ∧ F.blocks[b']? = some B := by
  have hi : m.instr? ⟨fr.block.fn, k⟩ = some i := SlotMachine.instr?_eq hm hfr hat.found
  obtain ⟨ops, c, j, t, B, hhas, hway, ht, hB⟩ := step_jumps hi hrest hstep hop
  obtain ⟨fn, b'⟩ := t
  obtain rfl : fn = F.id := by
    have := hv.targets hat.lists _ (List.mem_of_getElem? ht)
    simpa using this
  have hB : F.blocks[b']? = some B := by simpa [Module.block?, hm] using hB
  have hne : i.op ≠ .load ∧ i.op ≠ .store := by rcases hop with hop | hop <;> rw [hop] <;> decide
  rcases hway with ⟨hop, rfl⟩ | ⟨hop, w, ws, rfl, rfl⟩
  · have ho := (hbuilt.made hat.found).jump hop ((hv.ruled hat.lists).br_targets hop)
    exact ⟨[], [], b', B, ⟨ho, .nil⟩, .br hop ht, hB⟩
  · obtain ⟨v, ho⟩ := (hv.ruled hat.lists).condbr_operands hop
    have ho : i.operands = [v].map some := ho
    obtain ⟨ds, hr, hnum⟩ := exists_reads hv hF hat hσ hcomplete hargs hfr.args hne ho hhas
    rw [ho] at hhas
    obtain ⟨w', heq, hw⟩ := Frame.HasAll.single hhas
    obtain ⟨rfl, rfl⟩ := List.cons.inj heq
    have hfound := hr.found hv hat.lists hfr
    cases hnum with
    | @cons _ d _ _ hd hnil =>
      cases hnil
      obtain ⟨u, rfl, -⟩ := hd
      cases hfound with
      | cons hu =>
        -- the machine branches by the pattern of the same number
        have hsame : (Except.ok w, c) = ((Except.ok u : Except Stop UInt64), c) :=
          hw.run.symm.trans (hu.1 m [fr.name] c)
        cases hsame
        exact ⟨[v], [.word w], b', B, hr, .condbr hop ht, hB⟩

theorem exists_return {pr : Progress} (hat : At dom F b pre k i) (hσ : Numeric F σ) (hcomplete : Complete F σ fr)
    (hfr : Framed F args base (σ.whole F (unescaped F)) fr) (hrest : fr.rest = k :: rest) (hop : i.op = .ret)
    (hstep : (step m [fr]).run.run e = (.ok pr, e')) : ∃ v w, Reads F (unescaped F) args σ i [v] [.word w] := by
  have hi : m.instr? ⟨fr.block.fn, k⟩ = some i := SlotMachine.instr?_eq hm hfr hat.found
  obtain ⟨ops, c, hhas⟩ := step_reads hi hrest hstep
  have hret : F.ret ≠ .void := by
    intro hvoid
    have := hF.result
    rw [hvoid] at this
    cases this
  obtain ⟨v, ho⟩ := (hv.ruled hat.lists).ret_operands hop hret
  have ho : i.operands = [v].map some := ho
  obtain ⟨ds, hr, hnum⟩ := exists_reads hv hF hat hσ hcomplete hargs hfr.args (by rw [hop]; decide) ho hhas
  cases hnum with
  | cons hd hnil =>
    cases hnil
    obtain ⟨w, rfl, -⟩ := hd
    exact ⟨v, w, hr⟩

variable
  (hclears : ∀ b k i, F.Lists b k i → i.callee = some fill → ∃ g, m.function? fill = some g ∧ g.name = memsetName)

include hbuilt hd hflow hclears

theorem exists_runs {r : Returned} {fuel : Nat} (hrun : run m fuel [fr] e = (.returned r, e'))
    (hlive : dom.reachable (F.blockId b) = true) (hplace : F.blocks[b]?.map (·.instrs) = some (pre ++ ks))
    (hσ : Numeric F σ) (hproper : Proper F (unescaped F) σ) (hcomplete : Complete F σ fr)
    (hB : Backed base (σ.whole F (unescaped F)) e) (hfr : Framed F args base (σ.whole F (unescaped F)) fr)
    (hrest : fr.rest = ks) (hfn : fr.fn = F.id) (hroom : σ.height ≤ e.limits.stackSize) :
    ∃ n w h, n ≤ fuel ∧ Runs F (unescaped F) fill args b ks σ n (.word w) h ∧ h < 2 ^ 63 ∧ h ≤ e.limits.stackSize ∧
      r = ⟨w, []⟩ := by
  induction fuel generalizing b pre ks σ base fr e with
  | zero => cases hrun
  | succ fuel ih =>
    obtain ⟨B, hBlock, hlist⟩ := Option.map_eq_some_iff.mp hplace
    rw [run] at hrun
    rcases hstep : (step m [fr]).run.run e with ⟨s | pr, e₁⟩
    · rw [hstep] at hrun
      cases hrun
    rw [hstep] at hrun
    cases ks with
    | nil =>
      unfold step at hstep
      simp only [hrest] at hstep
      cases hstep
    | cons k ks =>
      obtain ⟨i, hl⟩ := hv.lists hBlock (by rw [hlist]; exact List.mem_append_right _ List.mem_cons_self)
      have hat : At dom F b pre k i := ⟨hlive, hl.found, B, ks, hBlock, hlist⟩
      by_cases htransfers : (i.op = .br ∨ i.op = .condbr) ∨ i.op = .ret
      · rcases htransfers with hop | hop
        · obtain rfl := nil_of_terminator hv hplace hl.found (by rcases hop with hop | hop <;> rw [hop] <;> rfl)
          obtain ⟨vs, ds, b', B', hr, hleaves, hB'⟩ :=
            exists_jump hm hv hF hbuilt hargs hat hσ hcomplete hfr hrest hop hstep
          have hfetch := fetches_of_found hl.found hr.operands (hr.found hv hl hfr)
          cases hstep.symm.trans (SlotMachine.step_goto hm hfr hrest hfetch hleaves hB')
          have hstart : F.blocks[b']?.map (·.instrs) = some ([] ++ B'.instrs) := by rw [hB']; rfl
          have hlive' := hd.next hlive (hflow.leaves hv hat hplace hleaves)
          obtain ⟨n, w, h, hn, hruns, hsmall, hh, hr'⟩ :=
            ih hrun hlive' hstart hσ hproper hcomplete hB ⟨hfr.values, hfr.args, rfl⟩ rfl hfn hroom
          exact ⟨n + 1, w, h, by omega, .goto hl.found hr hleaves hB' hruns, hsmall, hh, hr'⟩
        · obtain rfl := nil_of_terminator hv hplace hl.found (by rw [hop]; rfl)
          obtain ⟨v, w, hr⟩ := exists_return hm hv hF hargs hat hσ hcomplete hfr hrest hop hstep
          have hstruct : F.ret.isStruct = false := by
            obtain ⟨n, hn⟩ := isInt_eq hF.result
            rw [hn]
            rfl
          have hfetch := fetches_of_found hl.found hr.operands (hr.found hv hl hfr)
          cases hstep.symm.trans (SlotMachine.step_ret hm hfr hrest hfetch (.ret hop) hfn hstruct)
          cases hrun
          exact ⟨1, w, σ.height, by omega, .ret hl.found hop hr, hB.small, hroom, rfl⟩
      · have hop : i.op.transfers = false := by
          have hmem := hF.ops _ hl.mem
          generalize i.op = op at htransfers hmem
          cases op <;> first | rfl | simp [integerOps] at hmem htransfers
        obtain ⟨σ', w, hmoves, hsmall, rfl⟩ : ∃ σ' w, Moves F fill args σ k i σ' ∧ σ'.height < 2 ^ 63 ∧
              pr = .running [fr.advance i w] :=
            exists_moves hv hF hat hσ hcomplete hargs hfr.args hm hB hfr.fn hrest hop hstep
        obtain ⟨⟨base₁, fr₁, e₂, h₁⟩, hfits⟩ | ⟨⟨f, e₂, hover, -⟩, -⟩ := hmoves.act.follows hm hv hd
          (fun _ ↦ variable_of_unescaped) hat hproper hB hfr hrest (hclears b k i hl) hsmall
        rotate_left
        · rw [hover] at hstep
          cases hstep
        cases hstep.symm.trans h₁.run
        have hnext : F.blocks[b]?.map (·.instrs) = some ((pre ++ [k]) ++ ks) := by
          rw [hplace, List.append_assoc]
          rfl
        have hlow : (σ'.height : Int) ≤ e.limits.stackSize := by
          rcases hfits with hfits | hfits
          · exact hfits
          · rw [hfits]
            exact hroom
        obtain ⟨n, w, h, hn, hruns, hsmall, hh, hr⟩ := ih hrun hlive hnext (hmoves.numeric hσ hl.found)
          (hproper.act hv hd (fun _ ↦ variable_of_unescaped) hat hmoves.act)
          (hmoves.complete hcomplete hl.found hfr.fn hrest _) h₁.backed h₁.framed h₁.rest (h₁.fn.trans hfn)
          (by rw [h₁.kin.limits]; exact hlow)
        rw [h₁.kin.limits] at hh
        exact ⟨n + 1, w, h, by omega, .act hl.found hmoves.act hruns, hsmall, hh, hr⟩

end run

end CilSsa.FlowMachine

