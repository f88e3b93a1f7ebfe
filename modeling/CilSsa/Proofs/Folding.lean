import CilSsa.Proofs.BitVectors
import CilSsa.Proofs.PassSteps
import CilSsa.Proofs.Recomputation

namespace CilSsa.Ssa

/-- Instructions that the builder made, wherever they were put and whatever they are called there. -/
def Instr.Built (i : Instr) : Prop :=
  ∃ j : Instr, j.Made ∧ i = { j with name := i.name, home := i.home, number := i.number }

theorem Instr.Built.typed {i : Instr} (h : i.Built) : i.Typed := by
  obtain ⟨j, hj, heq⟩ := h
  obtain ⟨hbinary, hcompare, hstore, halloca⟩ := hj.typed
  rw [heq]
  exact ⟨hbinary, hcompare, hstore, halloca⟩

namespace Module

variable {m : Module} {f : Function} {dom : DomTree} {b : BlockId} {last : Bool} {pos : Nat} {i : Instr}

theorem typed_of_checkOperand {o : Option Value} (h : m.checkOperand f dom b pos o = []) :
    ∃ v : Value, o = some v ∧ v.type ≠ .untyped := by
  have huntyped : ∀ {v : Value}, when (v.type == .untyped) (.untypedOperand (m.ref v)) = [] → v.type ≠ .untyped := by
    intro v hv
    rw [when_eq_nil, beq_eq_false_iff_ne] at hv
    exact hv
  cases o with
  | none => cases h
  | some v =>
    refine ⟨v, rfl, ?_⟩
    cases v with
    | instr id t =>
      simp only [checkOperand] at h
      split at h
      · cases h
      split at h
      · cases h
      split at h
      · cases h
      exact huntyped (List.append_eq_nil_iff.mp h).2
    | param => exact huntyped (List.append_eq_nil_iff.mp h).2
    | func => exact huntyped h
    | const => exact huntyped h

theorem Placed.ruled (h : Placed m f dom b last pos i) : m.Ruled f i :=
  ⟨h.fits, fun o ho ↦ typed_of_checkOperand (h.operands o ho)⟩

end Module

end CilSsa.Ssa

namespace CilSsa.Machine

open CilSsa.Ssa CilSsa.Number
open CilSsa.Passes (simplify? reassociated?)

/-- An instruction other than a call and a terminator reads its operands, and works on their patterns. -/
def perform (m : Module) (trace : List String) (fr : Frame) (i : Instr) : Run UInt64 := do
  compute m trace i (← i.operands.mapM (operand m trace fr))

/-- A frame has a pattern for a value, which for an integer is extended from the width of its type. -/
def Frame.Provides (fr : Frame) : Value → Prop
  | .instr id t => ∃ p, fr.values[id]? = some p ∧ signExtend p t.bits = p
  | .param _ k t => ∃ p, fr.args[k]? = some p ∧ signExtend p t.bits = p
  | .func .. => True
  | .const c _ => signExtend (c.bits?.getD 0) c.type.bits = c.bits?.getD 0

section

variable {m : Module} {trace : List String} {e c d : Engine} {fr : Frame} {i : Instr} {v : Value} {o : Option Value}
  {p q : UInt64} {k : Nat} {rest : List Nat} {callers : List Frame}

theorem step_perform (hrest : fr.rest = k :: rest) (hi : m.instr? ⟨fr.block.fn, k⟩ = some i)
    (hcall : i.op ≠ .call) (hend : i.op.isTerminator = false) :
    step m (fr :: callers) = do
      let v ← perform m ((fr :: callers).map (·.name)) fr i
      return .running (fr.advance i v :: callers) := by
  unfold step perform
  simp only [hrest, hi, bind_assoc]
  congr 1
  funext ops
  generalize hop : i.op = op at hcall hend
  cases op <;> first | rfl | exact absurd rfl hcall | cases hend

theorem step_of_compute {ops : List UInt64} (hrest : fr.rest = k :: rest) (hi : m.instr? ⟨fr.block.fn, k⟩ = some i)
    (hcall : i.op ≠ .call) (hend : i.op.isTerminator = false) (hops : fr.HasAll e i.operands ops)
    (hv : (compute m ((fr :: callers).map (·.name)) i ops).run.run e = (.ok p, d)) :
    (step m (fr :: callers)).run.run e = (.ok (.running (fr.advance i p :: callers)), d) := by
  rw [step_perform hrest hi hcall hend]
  unfold perform
  rw [bind_assoc, run_bind_ok hops.run]
  exact run_bind_ok hv

/-! ### Patterns of operands -/

theorem Frame.Has.unique (h : fr.Has e o p) (h' : fr.Has e o q) : p = q := by
  cases h with
  | instr h =>
    cases h' with
    | instr h' => exact Option.some.inj (h.symm.trans h')
  | param h =>
    cases h' with
    | param h' => exact Option.some.inj (h.symm.trans h')
  | func h =>
    cases h' with
    | func h' => rw [Option.some.inj (h.symm.trans h')]
  | const =>
    cases h' with
    | const => rfl

theorem Frame.Provides.canonical (hv : fr.Provides v) (h : fr.Has e (some v) p) : signExtend p v.type.bits = p := by
  cases h with
  | instr h =>
    obtain ⟨w, hw, hc⟩ := hv
    rwa [Option.some.inj (h.symm.trans hw)]
  | param h =>
    obtain ⟨w, hw, hc⟩ := hv
    rwa [Option.some.inj (h.symm.trans hw)]
  | func => exact signExtend_of_outside _ (.inl rfl)
  | const => exact hv

theorem Frame.has_func {f : FuncId} {t : Ty} (h : f ∈ e.addressed) : ∃ p, fr.Has e (some (.func f t)) p := by
  cases hidx : e.addressed.idxOf? f with
  | none => exact absurd h (List.idxOf?_eq_none_iff.mp hidx)
  | some n => exact ⟨_, .func hidx⟩

theorem Frame.Provides.has (hv : fr.Provides v) (hfunc : ∀ f t, v = .func f t → f ∈ e.addressed) :
    ∃ p, fr.Has e (some v) p := by
  cases v with
  | instr id t =>
    obtain ⟨p, hp, -⟩ := hv
    exact ⟨p, .instr hp⟩
  | param f k t =>
    obtain ⟨p, hp, -⟩ := hv
    exact ⟨p, .param hp⟩
  | func f t => exact Frame.has_func (hfunc f t rfl)
  | const c o => exact ⟨_, .const⟩

theorem Frame.Provides.run (hv : fr.Provides v) (m : Module) (trace : List String) (e : Engine) :
    ∃ p d, (operand m trace fr (some v)).run.run e = (.ok p, d) := by
  by_cases hfunc : ∀ f t, v = .func f t → f ∈ e.addressed
  · obtain ⟨p, hp⟩ := hv.has hfunc
    exact ⟨p, e, hp.run⟩
  · push Not at hfunc
    obtain ⟨f, t, rfl, hf⟩ := hfunc
    unfold operand addressOf
    dsimp only
    rw [run_bind_ok run_get, List.idxOf?_eq_none_iff.mpr hf]
    exact ⟨_, _, rfl⟩

theorem operands_run (m : Module) (trace : List String) (e : Engine) {os : List (Option Value)}
    (h : ∀ o ∈ os, ∃ v, o = some v ∧ fr.Provides v) :
    ∃ ps d, (os.mapM (operand m trace fr)).run.run e = (.ok ps, d) := by
  induction os generalizing e with
  | nil => exact ⟨[], e, rfl⟩
  | cons o os ih =>
    obtain ⟨v, rfl, hv⟩ := h o List.mem_cons_self
    obtain ⟨p, c, hp⟩ := hv.run m trace e
    obtain ⟨ps, d, hps⟩ := ih c fun o ho ↦ h o (List.mem_cons_of_mem _ ho)
    refine ⟨p :: ps, d, ?_⟩
    rw [List.mapM_cons, run_bind_ok hp, run_bind_ok hps]
    rfl

theorem operand_same (h : (operand m trace fr o).run.run e = (.ok p, d))
    (hfunc : ∀ f t, o = some (.func f t) → f ∈ e.addressed) : d = e := by
  have hhas : ∃ q, fr.Has e o q := by
    cases Frame.Has.of_run h with
    | instr hx => exact ⟨p, .instr hx⟩
    | param hx => exact ⟨p, .param hx⟩
    | func => exact Frame.has_func (hfunc _ _ rfl)
    | const => exact ⟨_, .const⟩
  obtain ⟨q, hq⟩ := hhas
  exact congrArg Prod.snd (h.symm.trans hq.run)

theorem operands_extend {os : List (Option Value)} {ps : List UInt64}
    (h : (os.mapM (operand m trace fr)).run.run e = (.ok ps, d)) : e.Extends d := by
  have hmoves : Moves Engine.Extends (os.mapM (operand m trace fr)) :=
    (Engine.Extends.allows m).mapM (operand_moves (Engine.Extends.allows m) fr) os
  have hmove := hmoves e
  rwa [h] at hmove

/-- No function among some operands in front of `v` gets its address before `v` does. -/
def Engine.Before (e : Engine) (v : Value) (os : List (Option Value)) : Prop :=
  ∀ f t, v = .func f t → f ∉ e.addressed → ∀ g s, some (.func g s) ∈ os.takeWhile (· ≠ some v) → g ∈ e.addressed

theorem operand_first {os : List (Option Value)} {ps : List UInt64} (hv : some v ∈ os)
    (hfirst : ∀ g s, some (.func g s) ∈ os.takeWhile (· ≠ some v) → g ∈ e.addressed)
    (h : (os.mapM (operand m trace fr)).run.run e = (.ok ps, d)) :
    ∃ p c, (operand m trace fr (some v)).run.run e = (.ok p, c) ∧ c.Extends d := by
  induction os generalizing ps with
  | nil => cases hv
  | cons o os ih =>
    rw [List.mapM_cons] at h
    rcases ho : (operand m trace fr o).run.run e with ⟨s | p, c⟩
    · rw [run_bind_error ho] at h
      cases h
    rw [run_bind_ok ho] at h
    rcases hos : (os.mapM (operand m trace fr)).run.run c with ⟨s | ps', c'⟩
    · rw [run_bind_error hos] at h
      cases h
    rw [run_bind_ok hos] at h
    cases h
    by_cases hov : o = some v
    · subst hov
      exact ⟨p, c, ho, operands_extend hos⟩
    · rw [List.takeWhile_cons_of_pos (by simpa using hov)] at hfirst
      -- reading what stands in front of `v` does not change the engine
      have hsame : c = e := operand_same ho fun g s hg ↦ hfirst g s (by simp [hg])
      subst hsame
      refine ih ((List.mem_cons.mp hv).resolve_left fun heq ↦ hov heq.symm) (fun g s hg ↦ ?_) hos
      exact hfirst g s (List.mem_cons_of_mem _ hg)

/-! ### What instructions compute -/

theorem compute_compare {ps : List UInt64} (hop : i.op = .icmp ∨ i.op = .fcmp) :
    compute m trace i (p :: q :: ps) = pure (boolBits (evalCompare i.pred i.firstType p q)) := by
  unfold compute
  rcases hop with hop | hop <;> rw [hop]

theorem compute_select {r : UInt64} {ps : List UInt64} (hop : i.op = .select) :
    compute m trace i (p :: q :: r :: ps) = pure (if isTrueBits p then q else r) := by
  unfold compute
  rw [hop]

theorem compute_binary {w : UInt64} {ps : List UInt64} (hop : i.op.isBinary = true)
    (h : evalBinary i.op i.type p q = .ok w) : compute m trace i (p :: q :: ps) = pure w := by
  unfold compute
  generalize i.op = op at hop h ⊢
  cases op <;> first | (simp only [Op.isBinary, if_true, h]; done) | cases hop

theorem compute_cast {w : UInt64} {ps : List UInt64} (hop : i.op.isCast = true)
    (h : evalCast i.op i.firstType i.type p = .ok w) : compute m trace i (p :: ps) = pure w := by
  unfold compute
  generalize i.op = op at hop h ⊢
  cases op <;> first | (simp only [Op.isBinary, Op.isCast, Bool.false_eq_true, if_false, if_true, h]; done) | cases hop

theorem evalCast_canonical {op : Op} {src dst : Ty} {w : UInt64} (hvalid : validCast op src dst = true)
    (hdst : dst.isInt = true) (h : evalCast op src dst p = .ok w) : signExtend w dst.bits = w := by
  have hfloating : dst.isFloating = false := by
    cases dst <;> first | rfl | cases hdst
  have hpointer : dst.isPointer = false := by
    cases dst <;> first | rfl | cases hdst
  have hdouble : dst ≠ .float ∧ dst ≠ .double := by
    constructor <;> rintro rfl <;> cases hdst
  cases op with
  | trunc | sext | zext | fptosi | fptoui | ptrtoint =>
    cases h
    exact signExtend_signExtend _ _
  | fptrunc => simp [validCast, hdouble] at hvalid
  | fpext => simp [validCast, hdouble] at hvalid
  | sitofp | uitofp => simp [validCast, hfloating] at hvalid
  | inttoptr | bitcast => simp [validCast, hpointer] at hvalid
  | _ => cases h

theorem bits_ofBits? {t : Ty} {w : UInt64} {c : Const} (h : Const.ofBits? t w = some c)
    (hw : signExtend w t.bits = w) (ht : t.isFloating = false) : c.bits? = some w := by
  cases t with
  | int n =>
    cases h
    exact congrArg some hw
  | float | double => cases ht
  | pointer t =>
    simp only [Const.ofBits?, Option.ite_none_right_eq_some, Option.some.injEq] at h
    obtain ⟨rfl, rfl⟩ := h
    rfl
  | _ => cases h

theorem Frame.has_const {k : Const} {r : Origin} (h : k.bits? = some p) : fr.Has e (some (.const k r)) p := by
  have hconst : fr.Has e (some (.const k r)) (k.bits?.getD 0) := .const
  rwa [h] at hconst

theorem Frame.Has.bits {w : UInt64} (h : fr.Has e (some v) p) (hv : v.bits? = some w) : p = w := by
  cases h with
  | const =>
    have hbits : Const.bits? _ = some w := hv
    rw [hbits]
    rfl
  | _ => cases hv

theorem Frame.Has.int {t : Ty} {w : UInt64} (h : fr.Has e (some v) p) (hv : v.const? = some (.int t w)) : p = w :=
  h.bits (by rw [Value.bits?, hv]; rfl)

variable {f : Function} {dom : DomTree} {b : BlockId} {last : Bool} {pos : Nat} {id : InstrId}

theorem Frame.HasAll.pair {x y : Value} {ps : List UInt64} (h : fr.HasAll e [some x, some y] ps) :
    ∃ p q, ps = [p, q] ∧ fr.Has e (some x) p ∧ fr.Has e (some y) q := by
  cases h with
  | cons hx h =>
    cases h with
    | cons hy h =>
      cases h
      exact ⟨_, _, rfl, hx, hy⟩

theorem Frame.HasAll.single {x : Value} {ps : List UInt64} (h : fr.HasAll e [some x] ps) :
    ∃ p, ps = [p] ∧ fr.Has e (some x) p := by
  cases h with
  | cons hx h =>
    cases h
    exact ⟨_, rfl, hx⟩

theorem Frame.HasAll.triple {x y z : Value} {ps : List UInt64} (h : fr.HasAll e [some x, some y, some z] ps) :
    ∃ p q r, ps = [p, q, r] ∧ fr.Has e (some x) p ∧ fr.Has e (some y) q ∧ fr.Has e (some z) r := by
  cases h with
  | cons hx h =>
    obtain ⟨q, r, rfl, hy, hz⟩ := Frame.HasAll.pair h
    exact ⟨_, q, r, rfl, hx, hy, hz⟩

section patterns

variable {ps : List UInt64} {x y : Value} {rest : List (Option Value)} (hrules : Module.Placed m f dom b last pos i)
  (hps : fr.HasAll e i.operands ps)

include hrules hps

theorem binary_patterns (hmade : i.Built) (htype : i.type.isFloating = false)
    (hfr : ∀ x, some x ∈ i.operands → fr.Provides x) (hop : i.op.isBinary = true)
    (ho : i.operands = some x :: some y :: rest) : ∃ p q, ps = [p, q] ∧ fr.Has e (some x) p ∧ fr.Has e (some y) q ∧
      (i.op = .add ∨ i.op = .sub ∨ i.op = .mul) ∧ signExtend p i.type.bits = p := by
  obtain ⟨x', y', ho', -, hkind⟩ := hrules.ruled.binary_operands hop
  obtain ⟨rfl, rfl, rfl⟩ : x' = x ∧ y' = y ∧ rest = [] := by simpa [ho] using ho'.symm
  have ht : i.type = x'.type := hmade.typed.binary x' y' hop ho
  rw [ho] at hps
  obtain ⟨p, q, rfl, hx, hy⟩ := hps.pair
  refine ⟨p, q, rfl, hx, hy, ?_, ht ▸ (hfr x' (by simp [ho])).canonical hx⟩
  rcases hkind with ⟨hop, -⟩ | ⟨-, hfloat⟩
  · exact hop
  · rw [← ht, htype] at hfloat
    cases hfloat

theorem compare_patterns (hop : i.op = .icmp ∨ i.op = .fcmp) (ho : i.operands = some x :: some y :: rest) :
    ∃ p q, ps = [p, q] ∧ fr.Has e (some x) p ∧ fr.Has e (some y) q := by
  obtain ⟨x', y', ho'⟩ : ∃ x y : Value, i.operands = [some x, some y] := by
    rcases hop with hop | hop
    · obtain ⟨x, y, ho, -⟩ := hrules.ruled.icmp_operands hop
      exact ⟨x, y, ho⟩
    · obtain ⟨x, y, ho, -⟩ := hrules.ruled.fcmp_operands hop
      exact ⟨x, y, ho⟩
  obtain ⟨rfl, rfl, rfl⟩ : x' = x ∧ y' = y ∧ rest = [] := by simpa [ho] using ho'.symm
  rw [ho] at hps
  exact hps.pair

theorem select_patterns {c : Value} (hfr : ∀ x, some x ∈ i.operands → fr.Provides x) (hop : i.op = .select)
    (ho : i.operands = some c :: some x :: some y :: rest) : ∃ p q r, ps = [p, q, r] ∧ fr.Has e (some c) p ∧
      signExtend p 1 = p ∧ fr.Has e (some x) q ∧ fr.Has e (some y) r := by
  obtain ⟨c', x', y', ho', hct, -⟩ := hrules.ruled.select_operands hop
  obtain ⟨rfl, rfl, rfl, rfl⟩ : c' = c ∧ x' = x ∧ y' = y ∧ rest = [] := by simpa [ho] using ho'.symm
  rw [ho] at hps
  obtain ⟨p, q, r, rfl, hcp, hx, hy⟩ := hps.triple
  have hcanonical := (hfr c' (by simp [ho])).canonical hcp
  rw [hct] at hcanonical
  exact ⟨p, q, r, rfl, hcp, hcanonical, hx, hy⟩

theorem cast_patterns (hop : i.op.isCast = true) (ho : i.operands = some x :: rest) :
    ∃ p, ps = [p] ∧ fr.Has e (some x) p ∧ i.firstType = x.type ∧ validCast i.op x.type i.type = true := by
  obtain ⟨x', ho', hvalid⟩ := hrules.ruled.cast_operands hop
  obtain ⟨rfl, rfl⟩ : x' = x ∧ rest = [] := by simpa [ho] using ho'.symm
  have hfirst : i.firstType = x'.type := by rw [Instr.firstType, ho]
  rw [ho] at hps
  obtain ⟨p, rfl, hx⟩ := hps.single
  exact ⟨p, rfl, hx, hfirst, hvalid⟩

end patterns

theorem bitcast_of_same_type {op : Op} {t : Ty} (hop : op.isCast = true) (h : validCast op t t = true) :
    op = .bitcast := by
  revert h
  cases op <;> cases t <;> simp_all [validCast, Ty.isInt, Ty.isFloating, Ty.isPointer, Op.isCast]

/-- The value that an instruction is simplified to has the pattern that the instruction computes. -/
theorem simplified_pattern {ps : List UInt64} (hs : Passes.Simplifies id i v) (hmade : i.Built)
    (hrules : Module.Placed m f dom b last pos i) (htype : i.type.isFloating = false)
    (hfr : ∀ x, some x ∈ i.operands → fr.Provides x) (hps : fr.HasAll e i.operands ps) :
    ∃ p, fr.Has e (some v) p ∧ ∀ trace, compute m trace i ps = pure p := by
  cases hs with
  | compare hop ho ha hb hc =>
    obtain ⟨p, q, rfl, hx, hy⟩ := compare_patterns hrules hps hop ho
    obtain rfl := hx.bits ha
    obtain rfl := hy.bits hb
    refine ⟨_, Frame.has_const (bits_ofBits? hc (signExtend_boolBits _) rfl), fun trace ↦ ?_⟩
    rw [compute_compare hop, Instr.firstType, ho]
  | choose hop ho hc =>
    obtain ⟨p, q, r, rfl, hcp, hcanonical, hx, hy⟩ := select_patterns hrules hps hfr hop ho
    obtain rfl := hcp.int hc
    refine ⟨if p = 0 then r else q, by split <;> assumption, fun trace ↦ ?_⟩
    rw [compute_select hop, isTrueBits_eq hcanonical]
    by_cases hp : p = 0 <;> simp [hp]
  | same hop ho =>
    obtain ⟨p, q, r, rfl, -, -, hx, hy⟩ := select_patterns hrules hps hfr hop ho
    obtain rfl := hx.unique hy
    refine ⟨q, hx, fun trace ↦ ?_⟩
    rw [compute_select hop, ite_self]
  | @fold _ _ _ _ _ w _ hop ho ha hb hw hc =>
    obtain ⟨p, q, rfl, hx, hy, hkind, -⟩ := binary_patterns hrules hps hmade htype hfr hop ho
    obtain rfl := hx.bits ha
    obtain rfl := hy.bits hb
    refine ⟨w, Frame.has_const (bits_ofBits? hc ?_ htype), fun trace ↦ compute_binary hop hw⟩
    rcases hkind with hkind | hkind | hkind <;> rw [hkind] at hw <;> cases hw <;> exact signExtend_signExtend _ _
  | zero hop ho hy0 =>
    have hbin : i.op.isBinary = true := by rcases hop with hop | hop <;> rw [hop] <;> rfl
    obtain ⟨p, q, rfl, hx, hy, -, hp⟩ := binary_patterns hrules hps hmade htype hfr hbin ho
    obtain rfl := hy.int hy0
    refine ⟨p, hx, fun trace ↦ compute_binary hbin ?_⟩
    rcases hop with hop | hop <;> simp [hop, evalBinary, hp]
  | one hop ho hy1 =>
    have hbin : i.op.isBinary = true := by rw [hop]; rfl
    obtain ⟨p, q, rfl, hx, hy, -, hp⟩ := binary_patterns hrules hps hmade htype hfr hbin ho
    obtain rfl := hy.int hy1
    exact ⟨p, hx, fun trace ↦ compute_binary hbin (by simp [hop, evalBinary, hp])⟩
  | absorb hop ho hy0 =>
    have hbin : i.op.isBinary = true := by rw [hop]; rfl
    obtain ⟨p, q, rfl, -, hy, -⟩ := binary_patterns hrules hps hmade htype hfr hbin ho
    obtain rfl := hy.int hy0
    exact ⟨0, hy, fun trace ↦ compute_binary hbin (by simp [hop, evalBinary])⟩
  | unchanged hop ho ht =>
    obtain ⟨p, rfl, hx, -, hvalid⟩ := cast_patterns hrules hps hop ho
    -- no other conversion goes from a type to itself
    have hcast : i.op = .bitcast := bitcast_of_same_type hop (ht ▸ hvalid)
    refine ⟨p, hx, fun trace ↦ compute_cast hop ?_⟩
    rw [hcast]
    rfl
  | @convert _ _ _ w _ hop ho ha hw hc =>
    obtain ⟨p, rfl, hx, hfirst, hvalid⟩ := cast_patterns hrules hps hop ho
    obtain rfl := hx.bits ha
    have hcanonical : signExtend w i.type.bits = w := by
      cases hint : i.type.isInt with
      | true => exact evalCast_canonical hvalid hint hw
      | false =>
        refine signExtend_of_outside _ (.inl ?_)
        revert hint
        cases i.type <;> simp [Ty.isInt, Ty.bits]
    exact ⟨w, Frame.has_const (bits_ofBits? hc hcanonical htype), fun trace ↦ compute_cast hop (hfirst ▸ hw)⟩

/-! ### Exchanged operands -/

theorem perform_reassociated {i' : Instr} (h : reassociated? i = some i')
    (hop : i.op = .add ∨ i.op = .mul ∨ i.op = .icmp)
    (hrules : Module.Placed m f dom b last pos i) : perform m trace fr i' = perform m trace fr i := by
  have hbinary : i.op = .add ∨ i.op = .mul → i.op.isBinary = true := by
    rintro (hop | hop) <;> rw [hop] <;> rfl
  obtain ⟨x, y, ho, ht, hpred⟩ : ∃ x y : Value, i.operands = [some x, some y] ∧ x.type = y.type ∧
      (i.op = .icmp → i.pred.isFloat = false) := by
    rcases hop with hop | hop | hop
    · obtain ⟨x, y, ho, ht, -⟩ := hrules.ruled.binary_operands (hbinary (.inl hop))
      exact ⟨x, y, ho, ht, fun h ↦ by rw [hop] at h; cases h⟩
    · obtain ⟨x, y, ho, ht, -⟩ := hrules.ruled.binary_operands (hbinary (.inr hop))
      exact ⟨x, y, ho, ht, fun h ↦ by rw [hop] at h; cases h⟩
    · obtain ⟨x, y, ho, ht, hpred⟩ := hrules.ruled.icmp_operands hop
      exact ⟨x, y, ho, ht, fun _ ↦ hpred⟩
  -- a constant is read without a look at the engine, so it does not matter which of the two is read first
  have hconst : ∃ k r, x = .const k r := by
    unfold reassociated? at h
    rw [ho] at h
    cases x with
    | const k r => exact ⟨k, r, rfl⟩
    | _ => simp [Value.isConst, Value.const?] at h
  obtain ⟨k, r, rfl⟩ := hconst
  have hread : operand m trace fr (some (.const k r)) = pure (k.bits?.getD 0) := rfl
  obtain ⟨a, a', ho', hor⟩ := Passes.reassociated?_inv h
  obtain ⟨rfl, rfl⟩ : a = some (.const k r) ∧ a' = some y := by simpa [ho] using ho'.symm
  have hsum : ∀ p q, i.op = .add ∨ i.op = .mul →
      ∃ w, evalBinary i.op i.type p q = .ok w ∧ evalBinary i.op i.type q p = .ok w := by
    rintro p q (hop | hop) <;> rw [hop]
    · exact ⟨_, rfl, by rw [evalBinary, UInt64.add_comm]⟩
    · exact ⟨_, rfl, by rw [evalBinary, UInt64.mul_comm]⟩
  have hcompute : ∀ p q, compute m trace i' [q, p] = compute m trace i [p, q] := by
    intro p q
    rcases hor with ⟨hop', rfl⟩ | ⟨hop', rfl⟩
    · have hop : i.op = .add ∨ i.op = .mul := by
        rcases hop with hop | hop | hop
        · exact .inl hop
        · exact .inr hop
        · simp [hop] at hop'
      obtain ⟨w, hw, hw'⟩ := hsum p q hop
      rw [compute_binary (hbinary hop) hw]
      exact compute_binary (hbinary hop) hw'
    · have hicmp : i.op = .icmp := by
        rcases hop with hop | hop | hop
        · simp [hop] at hop'
        · simp [hop] at hop'
        · exact hop
      rw [compute_compare (.inl hicmp)]
      have hswapped : ∀ j : Instr, j.op = .icmp → compute m trace j [q, p] =
        pure (boolBits (evalCompare j.pred j.firstType q p)) :=
        fun j hj ↦ compute_compare (.inl hj)
      rw [hswapped { i with operands := [some y, some (.const k r)], pred := i.pred.swapped } hicmp]
      simp only [Instr.firstType, ho, ← ht, evalCompare_swapped (hpred hicmp)]
  have hpair : ∀ (j : Instr) (u w : Option Value), j.operands = [u, w] → perform m trace fr j = (do
      let p ← operand m trace fr u
      let q ← operand m trace fr w
      compute m trace j [p, q]) := by
    intro j u w hj
    simp only [perform, hj, List.mapM_cons, List.mapM_nil, bind_assoc, pure_bind]
  have ho'' : i'.operands = [some y, some (.const k r)] := by rcases hor with ⟨-, rfl⟩ | ⟨-, rfl⟩ <;> rfl
  rw [hpair i _ _ ho', hpair i' _ _ ho'', hread]
  simp only [pure_bind, hcompute]

/-! ### Agreement -/

/-- What is folded of integers, truth values and addresses agrees with execution. An instruction as the builder makes
it, which verifies, runs to some pattern wherever the frame has its operands; the value that it is simplified to has
that pattern afterwards, and also when it is read instead, unless it is a function that has no address yet and comes
behind another such function among the operands. Exchanging the operands of a sum, a product or a comparison of integers
changes nothing. -/
theorem folding_agrees (hmade : i.Built) (hrules : m.checkPlaced f dom b last pos i = [])
    (trace : List String) (fr : Frame) (e : Engine) :
    (i.type.isInt = true ∨ i.type.isPointer = true → (∀ x, some x ∈ i.operands → fr.Provides x) →
      ∀ v, simplify? id i = some v → ∃ p d, (perform m trace fr i).run.run e = (.ok p, d) ∧
        (operand m trace fr (some v)).run.run d = (.ok p, d) ∧
        (e.Before v i.operands → ((operand m trace fr (some v)).run.run e).1 = .ok p)) ∧
    ∀ i', reassociated? i = some i' → i.op = .add ∨ i.op = .mul ∨ i.op = .icmp →
      (perform m trace fr i').run.run e = (perform m trace fr i).run.run e := by
  have hplaced := Module.checkPlaced_eq_nil.mp hrules
  refine ⟨fun htype hfr v hv ↦ ?_, fun i' hi' hop ↦ by rw [perform_reassociated hi' hop hplaced]⟩
  have hfloating : i.type.isFloating = false := by
    generalize i.type = t at htype
    cases t <;> first | rfl | rcases htype with htype | htype <;> cases htype
  have hs := Passes.simplify?_inv hv
  have hall : ∀ o ∈ i.operands, ∃ x, o = some x ∧ fr.Provides x := by
    intro o ho
    obtain ⟨x, rfl, -⟩ := hplaced.ruled.typed o ho
    exact ⟨x, rfl, hfr x ho⟩
  obtain ⟨ps, d, hps⟩ := operands_run m trace e hall
  obtain ⟨p, hp, hcompute⟩ := simplified_pattern hs hmade hplaced hfloating hfr (.of_run hps)
  refine ⟨p, d, ?_, hp.run, fun hbefore ↦ ?_⟩
  · rw [perform, run_bind_ok hps, hcompute]
    rfl
  · by_cases hfunc : ∀ g t, v = .func g t → g ∈ e.addressed
    · obtain ⟨q, hq⟩ : ∃ q, fr.Has e (some v) q := by
        rcases hs.operand with hmem | ⟨c, t, w, rfl, -⟩
        · exact (hfr v hmem).has hfunc
        · exact ⟨_, .const⟩
      rw [hq.run, (hq.extends (operands_extend hps)).unique hp]
    · push Not at hfunc
      obtain ⟨g, t, rfl, hg⟩ := hfunc
      have hmem : some (.func g t) ∈ i.operands := by
        rcases hs.operand with hmem | ⟨_, _, _, heq, -⟩
        · exact hmem
        · cases heq
      obtain ⟨q, c, hq, hc⟩ := operand_first hmem (hbefore g t rfl hg) hps
      rw [hq, ((Frame.Has.of_run hq).extends hc).unique hp]

end

def callback : Ty := .func .void []

def functionChoice (c : UInt64) : Instr :=
  { Instr.select (.const (.int .i1 c) (.made 0)) (.func ⟨0⟩ callback) (.func ⟨1⟩ callback) "x" with
    home := some ⟨⟨2⟩, 0⟩ }

def chooser (c : UInt64) : Function :=
  { id := ⟨2⟩, name := "f", signature := .func (.pointer callback) [], params := [], blocks := #[⟨"entry", [0, 1]⟩],
    instrs := #[functionChoice c,
      { Instr.ret (some (.instr ⟨⟨2⟩, 0⟩ (.pointer callback))) with home := some ⟨⟨2⟩, 0⟩ }] }

def chooserModule (c : UInt64) : Module :=
  let quiet (k : Nat) (name : String) : Function :=
    { id := ⟨k⟩, name, signature := callback, params := [], blocks := #[⟨"entry", [0]⟩],
      instrs := #[{ Instr.retVoid with home := some ⟨⟨k⟩, 0⟩ }] }
  { name := "m", functions := #[quiet 0 "g", quiet 1 "h", chooser c] }

def chooserFrame : Frame := { fn := ⟨2⟩, name := "f", args := [], block := ⟨⟨2⟩, 0⟩, rest := [0, 1], mark := 0 }

theorem functionChoice_built (c : UInt64) : (functionChoice c).Built := ⟨_, .select _ _ _ _, rfl⟩

theorem functionChoice_provided {c : UInt64} (hc : signExtend c 1 = c) :
    ∀ x, some x ∈ (functionChoice c).operands → chooserFrame.Provides x := by
  intro x hx
  simp only [functionChoice, Instr.select, List.mem_cons, Option.some.injEq, List.not_mem_nil, or_false] at hx
  rcases hx with rfl | rfl | rfl
  · exact hc
  · trivial
  · trivial

/-- The first of the two is chosen: read instead of the choice it is at the same address. -/
theorem folding_agrees_choosing :
    ∃ p d, (perform (chooserModule (-1)) ["f"] chooserFrame (functionChoice (-1))).run.run {} = (.ok p, d) ∧
      ((operand (chooserModule (-1)) ["f"] chooserFrame (some (.func ⟨0⟩ callback))).run.run {}).1 = .ok p := by
  have hrules : (chooserModule (-1)).checkPlaced (chooser (-1)) (DomTree.of (chooserModule (-1)) (chooser (-1)))
    ⟨⟨2⟩, 0⟩ false 0
      (functionChoice (-1)) = [] := List.isEmpty_iff.mp (by decide)
  have hfolded : simplify? ⟨⟨2⟩, 0⟩ (functionChoice (-1)) = some (.func ⟨0⟩ callback) := by decide
  obtain ⟨p, d, hp, -, hread⟩ := (folding_agrees (functionChoice_built (-1)) hrules ["f"] chooserFrame {}).1 (.inr rfl)
    (functionChoice_provided (by decide)) _ hfolded
  refine ⟨p, d, hp, hread fun _ _ _ _ g s hg ↦ ?_⟩
  simp [functionChoice, Instr.select] at hg

/-- The second of the two is chosen: it gets the second address when the choice is executed, and the first when it is
read instead. -/
theorem choice_read_apart : (chooserModule 0).verify (chooser 0) = [] ∧ (functionChoice 0).Built ∧
    (∀ x, some x ∈ (functionChoice 0).operands → chooserFrame.Provides x) ∧
    simplify? ⟨⟨2⟩, 0⟩ (functionChoice 0) = some (.func ⟨1⟩ callback) ∧
    ((perform (chooserModule 0) ["f"] chooserFrame (functionChoice 0)).run.run {}).1 = .ok (functionAddress 1) ∧
    ((operand (chooserModule 0) ["f"] chooserFrame (some (.func ⟨1⟩ callback))).run.run {}).1 =
    .ok (functionAddress 0) ∧ functionAddress 1 ≠ functionAddress 0 :=
  ⟨List.isEmpty_iff.mp (by decide), functionChoice_built 0, functionChoice_provided (by decide), by decide +kernel,
    by rfl, by rfl, by decide⟩

end CilSsa.Machine

