import CilSsa.Proofs.Counterparts
import CilSsa.Proofs.MachineRuns
import CilSsa.Proofs.Words

namespace CilSsa.Metadata.Prim

def width : Prim → Nat
  | .bool => 1
  | .int8 | .uint8 => 8
  | .int16 | .uint16 => 16
  | .int32 | .uint32 => 32
  | .int64 | .uint64 | .intPtr | .uintPtr => 64
  | .char | .float32 | .float64 => 0

def isSigned : Prim → Bool
  | .int8 | .int16 | .int32 | .int64 | .intPtr => true
  | _ => false

def isNative : Prim → Bool
  | .intPtr | .uintPtr => true
  | _ => false

def Fits (p : Prim) (x : Int) : Prop :=
  if p.isSigned then -2 ^ (p.width - 1) ≤ x ∧ x < 2 ^ (p.width - 1) else 0 ≤ x ∧ x < 2 ^ p.width

instance (p : Prim) (x : Int) : Decidable (p.Fits x) := by unfold Fits; infer_instance

/-- The number of a type with the remainder of `x` modulo two to its width. -/
def reduce (p : Prim) (x : Int) : Int := if p.isSigned then x.bmod (2 ^ p.width) else x % 2 ^ p.width

variable {p : Prim} {x : Int}

theorem width_le (p : Prim) : p.width ≤ 64 := by cases p <;> decide

theorem reduce_of_fits (h : 0 < p.width) (hx : p.Fits x) : p.reduce x = x := by
  unfold Fits at hx
  unfold reduce
  split
  · rename_i hs
    rw [if_pos hs] at hx
    have hpow : (2 : Int) ^ p.width = 2 ^ (p.width - 1) * 2 := by rw [← pow_succ, Nat.sub_add_cancel h]
    refine Int.bmod_eq_of_le ?_ ?_ <;> push_cast <;> omega
  · rename_i hs
    rw [if_neg hs] at hx
    exact Int.emod_eq_of_lt hx.1 hx.2

theorem reduce_emod (p : Prim) (x : Int) : p.reduce (x % 2 ^ p.width) = p.reduce x := by
  unfold reduce
  split
  · rw [show (2 : Int) ^ p.width = (2 ^ p.width : Nat) by push_cast; rfl, Int.emod_bmod]
  · exact Int.emod_emod_of_dvd x (dvd_refl _)

theorem Fits.lt (h : 0 < p.width) (hx : p.Fits x) : x < 2 ^ p.width := by
  unfold Fits at hx
  split at hx
  · have hpow : (2 : Int) ^ p.width = 2 ^ (p.width - 1) * 2 := by rw [← pow_succ, Nat.sub_add_cancel h]
    omega
  · exact hx.2

theorem width_native (h : p.isNative = true) : p.width = 64 := by
  cases p <;> first | rfl | exact absurd h Bool.false_ne_true

end CilSsa.Metadata.Prim

namespace CilSsa.Machine

open CilSsa.Ssa CilSsa.Text

def steps? (m : Module) : Nat → List Frame → Engine → Option (List Frame × Engine)
  | 0, frames, e => some (frames, e)
  | n + 1, frames, e =>
    match (step m frames).run.run e with
    | (.ok (.running frames), e) => steps? m n frames e
    | _ => none

variable {m : Module} {fr : Frame} {callers : List Frame} {e : Engine} {k : Nat} {rest : List Nat} {i : Instr}
  {v : Value} {p p' : UInt64}

def Frame.Gives (m : Module) (fr : Frame) (v : Value) (p : UInt64) : Prop :=
  ∀ trace e, (operand m trace fr (some v)).run.run e = (.ok p, e)

theorem step_cast (hrest : fr.rest = k :: rest) (hi : m.instr? ⟨fr.block.fn, k⟩ = some i) (hv : i.operands = [some v])
    (hop : i.op.isCast = true) (ht : i.hasValue = true) (hp : fr.Gives m v p)
    (heval : evalCast i.op v.type i.type p = .ok p') :
    (step m (fr :: callers)).run.run e =
      (.ok (.running ({ fr with values := fr.values.insert ⟨fr.block.fn, k⟩ p', rest } :: callers)), e) := by
  have hops : (i.operands.mapM (operand m ((fr :: callers).map (·.name)) fr)).run.run e = (.ok [p], e) := by
    rw [hv, List.mapM_cons, run_bind_ok (hp _ e)]
    rfl
  have hfirst : i.firstType = v.type := by rw [Instr.firstType, hv]
  have hcompute : (compute m ((fr :: callers).map (·.name)) i [p]).run.run e = (.ok p', e) := by
    rw [← hfirst] at heval
    cases hop' : i.op <;> rw [hop'] at hop heval
    all_goals first
      | exact absurd hop Bool.false_ne_true
      | simp only [compute, hop', Op.isBinary, Op.isCast, heval, if_true]; rfl
  have hadvance : fr.advance i p' = { fr with values := fr.values.insert ⟨fr.block.fn, k⟩ p', rest } := by
    simp only [Frame.advance, hrest, ht, if_true]
  unfold step
  simp only [hrest, hi]
  rw [run_bind_ok hops, ← hadvance]
  cases hop' : i.op <;> rw [hop'] at hop
  all_goals first
    | exact absurd hop Bool.false_ne_true
    | exact run_bind_ok hcompute

end CilSsa.Machine

namespace CilSsa.Lowering

open CilSsa.Machine CilSsa.Metadata CilSsa.Number
open CilSsa.Ssa (BlockId FuncId Function Instr Module Value)

/-- The instructions `ks` in block `b`, run where `v` has the pattern `p`, leave `v'` with the pattern `p'`; else they
change no more than the values of the frame. -/
def Translates (m : Module) (b : BlockId) (ks : List Nat) (v v' : Value) (p p' : UInt64) : Prop :=
  ∀ fr callers rest e, fr.block = b → fr.rest = ks ++ rest → fr.Gives m v p →
    ∃ values, Frame.Gives m { fr with values, rest } v' p' ∧
      steps? m ks.length (fr :: callers) e = some ({ fr with values, rest } :: callers, e)

/-- Wherever an operand of type `S` is converted to `T`, code is put behind what the current block has, and as long as
the module keeps it, it takes the pattern of `x` to that of `y`. -/
def Converts (S T : Prim) (x y : Int) : Prop :=
  ∀ (site : Site) (s : Stage) (u : CompilationUnit) (F : Function) (B : Ssa.Block) (v : Value), Faithful u →
    u.module.function? s.fn = some F → F.blocks[s.block]? = some B → scalarType? S = some v.type →
    ∃ v' ks u' F', Lowers (convert ⟨.prim S, v, false⟩ (.prim T)) site s u ⟨.prim T, v', false⟩ s u' ∧
      scalarType? T = some v'.type ∧ u'.module.function? s.fn = some F' ∧
      F'.blocks[s.block]? = some { B with instrs := B.instrs ++ ks } ∧
      ∀ m : Module, (∀ k ∈ ks, m.instr? ⟨s.fn, k⟩ = F'.instrs[k]?) →
        Translates m ⟨s.fn, s.block⟩ ks v v' (patternOf S.width x) (patternOf T.width y)

section

variable {site : Site} {s : Stage} {u : CompilationUnit} {F : Function} {B : Ssa.Block} {S T p : Prim} {x y : Int}
  {v : Value} {t : Ssa.Ty}

theorem scalarType?_integer (h : 0 < p.width) :
    scalarType? p = some (if p.isNative then .bytePointer else .int p.width) := by
  cases p <;> first | rfl | exact absurd h (by decide)

theorem codeType_scalar (hu : Faithful u) (world : Universe) (ht : scalarType? p = some t) :
    ∃ u', Compiles (codeType world (.prim p)) u t u' ∧ u'.module = u.module ∧ Faithful u' := by
  suffices h : ∃ ct u', Compiles (compileType world world.nestingLimit (.prim p)) u ct u' ∧ ct.code = t ∧
      u'.module = u.module ∧ Faithful u' by
    obtain ⟨ct, u', hc, rfl, hrest⟩ := h
    exact ⟨u', Compiles.bind_iff.mpr ⟨ct, u', hc, Compiles.pure_iff.mpr ⟨rfl, rfl⟩⟩, hrest⟩
  obtain ⟨n, hn⟩ : ∃ n, world.nestingLimit = n + 1 := ⟨_, rfl⟩
  rw [hn, compileType]
  cases hl : u.types.lookup (.prim p) with
  | some ct =>
    have hcode := (hu.lookup hl).of_prim
    rw [ht] at hcode
    refine ⟨ct, u, Compiles.bind_iff.mpr ⟨u, u, Compiles.get_iff.mpr ⟨rfl, rfl⟩, ?_⟩, (Option.some.inj hcode).symm, rfl,
      hu⟩
    simp only [reduceCtorEq, if_false, hl]
    exact Compiles.pure_iff.mpr ⟨rfl, rfl⟩
  | none =>
    refine ⟨⟨.prim p, t, []⟩, { u with
      types := (.prim p, ⟨.prim p, t, []⟩) :: u.types
      journal := { u.journal with types := .prim p :: u.journal.types } },
      Compiles.bind_iff.mpr ⟨u, u, Compiles.get_iff.mpr ⟨rfl, rfl⟩, ?_⟩, rfl, rfl, ?_⟩
    · simp only [reduceCtorEq, if_false, hl, Ty.kind, Ty.prim?, Option.bind_some, ht]
      rfl
    · intro e he
      rcases List.mem_cons.mp he with rfl | he
      · exact .scalar ht
      · exact hu e he

/-- The conversion that takes integers of one type to another, where it takes one. -/
def castOp? (S T : Prim) : Option Ssa.Op :=
  match S.isNative, T.isNative with
  | true, true => none
  | true, false => some .ptrtoint
  | false, true => some .inttoptr
  | false, false =>
    if T.width < S.width then some .trunc
    else if S.width < T.width then some (if S.isSigned then .sext else .zext)
    else none

theorem keepsSign_integer (h : 0 < p.width) : keepsSign (.prim p) = p.isSigned := by
  cases p <;> first | rfl | exact absurd h (by decide)

theorem convertValue_integer (hS : 0 < S.width) (hT : 0 < T.width) (hv : scalarType? S = some v.type)
    (ht : scalarType? T = some t) : convertValue ⟨.prim S, v, false⟩ (.prim T) t =
      liftM (emitOr v ((castOp? S T).map fun op ↦ .cast op v t "")) := by
  rw [scalarType?_integer hS, Option.some.injEq] at hv
  rw [scalarType?_integer hT, Option.some.injEq] at ht
  unfold convertValue castOp?
  cases hs : S.isNative <;> cases hn : T.isNative <;> simp only [hs, hn, Bool.false_eq_true, if_false, if_true] at hv ht
  · simp only [← hv, ← ht, keepsSign_integer hS, Ssa.Ty.int.injEq]
    split
    · rename_i heq
      simp only [heq, Nat.lt_irrefl, if_false]
      rfl
    · simp only [Instr.intCast?, ← hv, Ssa.Ty.bits]
      split
      · rfl
      · split
        · cases S.isSigned <;> rfl
        · rfl
  · simp only [← hv, ← ht]
    rfl
  · simp only [← hv, ← ht]
    rfl
  · simp only [← hv, ← ht]
    rfl

theorem castOp?_self (p : Prim) : castOp? p p = none := by
  unfold castOp?
  cases p.isNative <;> simp

theorem convert_lowers (site : Site) (s : Stage) (hu : Faithful u) (hS : 0 < S.width) (hT : 0 < T.width)
    (hv : scalarType? S = some v.type) (ht : scalarType? T = some t) : ∃ u', u'.module = u.module ∧ ∀ v' u'',
      Emits (emitOr v ((castOp? S T).map fun op ↦ .cast op v t "")) s u' v' s u'' →
      Lowers (convert ⟨.prim S, v, false⟩ (.prim T)) site s u ⟨.prim T, v', false⟩ s u'' := by
  unfold convert convertFrom
  by_cases heq : Ty.prim S = .prim T
  · cases heq
    refine ⟨u, rfl, fun v' u'' he ↦ ?_⟩
    rw [castOp?_self] at he
    obtain ⟨rfl, -, rfl⟩ := Emits.pure_iff.mp he
    simp only [if_true]
    exact Lowers.pure_iff.mpr ⟨rfl, rfl, rfl⟩
  · obtain ⟨u', hc, hmodule, -⟩ := codeType_scalar hu site.world ht
    have hinteger : ∀ {p : Prim}, 0 < p.width → Ty.isInteger (.prim p) = true := by
      intro p hp
      cases p <;> first | rfl | exact absurd hp (by decide)
    have hconv : convertible site.world (.prim T) (.prim S) = true := by
      simp [convertible, numeric, hinteger hS, hinteger hT]
    refine ⟨u', hmodule, fun v' u'' he ↦ ?_⟩
    simp only [heq, if_false, Ty.isAddress, Ty.isByRef, Ty.isPointer]
    unfold convertDirectly
    simp only [Ty.isByRef]
    refine Lowers.bind_iff.mpr ⟨site, s, u, Lowers.read_iff.mpr ⟨rfl, rfl, rfl⟩, ?_⟩
    simp only [hconv, Bool.not_true, Bool.false_eq_true, if_false]
    refine Lowers.bind_iff.mpr ⟨t, s, u', Lowers.compile_iff.mpr ⟨rfl, hc⟩, ?_⟩
    rw [convertValue_integer hS hT hv ht]
    exact Lowers.bind_iff.mpr ⟨v', s, u'', Lowers.emit_iff.mpr he, Lowers.pure_iff.mpr ⟨rfl, rfl, rfl⟩⟩

theorem emit_emits (hF : u.module.function? s.fn = some F) (i : Instr) :
    Emits (emit i) s u (.instr ⟨s.fn, F.instrs.size⟩ i.type) s
      { u with module := u.module.modifyFunction s.fn fun _ ↦ (F.append s.block i).1 } := by
  refine Emits.bind_iff.mpr ⟨s, s, u, Emits.get_iff.mpr ⟨rfl, rfl, rfl⟩, ?_⟩
  refine Emits.bind_iff.mpr ⟨s, s, u, Emits.get_iff.mpr ⟨rfl, rfl, rfl⟩, ?_⟩
  refine Emits.lift_iff.mpr ⟨rfl, Compiles.bind_iff.mpr ⟨u, u, Compiles.get_iff.mpr ⟨rfl, rfl⟩, ?_⟩⟩
  simp only [append_eq hF]
  exact Compiles.bind_iff.mpr ⟨⟨⟩, _, Compiles.set_iff.mpr rfl, Compiles.pure_iff.mpr ⟨rfl, rfl⟩⟩

theorem translates_append {op : Ssa.Op} {b : Nat} {m : Module} {q q' : UInt64} (hop : op.isCast = true)
    (ht : t.hasValue = true) (heval : Ssa.evalCast op v.type t q = .ok q')
    (hm : m.instr? ⟨s.fn, F.instrs.size⟩ = (F.append b (.cast op v t "")).1.instrs[F.instrs.size]?) :
    Translates m ⟨s.fn, s.block⟩ [F.instrs.size] v (.instr ⟨s.fn, F.instrs.size⟩ t) q q' := by
  intro fr callers rest e hb hrest hhas
  have hi : m.instr? ⟨fr.block.fn, F.instrs.size⟩ = some (placed F b (.cast op v t "")) := by rw [hb, hm, append_found]
  refine ⟨fr.values.insert ⟨fr.block.fn, F.instrs.size⟩ q', fun trace e ↦ ?_, ?_⟩
  · simp only [operand, hb, Std.HashMap.getElem?_insert_self]
    rfl
  · rw [List.length_singleton, steps?, step_cast hrest hi rfl hop ht hhas heval]
    rfl

theorem emitOr_translates (hF : u.module.function? s.fn = some F) (hB : F.blocks[s.block]? = some B)
    (ht : t.hasValue = true) (op? : Option Ssa.Op) {q q' : UInt64}
    (heval : ∀ op ∈ op?, op.isCast = true ∧ Ssa.evalCast op v.type t q = .ok q')
    (hnone : op? = none → v.type = t ∧ q = q') :
    ∃ v' ks u' F', Emits (emitOr v (op?.map fun op ↦ .cast op v t "")) s u v' s u' ∧ v'.type = t ∧
      u'.module.function? s.fn = some F' ∧ F'.blocks[s.block]? = some { B with instrs := B.instrs ++ ks } ∧
      ∀ m : Module, (∀ k ∈ ks, m.instr? ⟨s.fn, k⟩ = F'.instrs[k]?) → Translates m ⟨s.fn, s.block⟩ ks v v' q q' := by
  cases op? with
  | none =>
    obtain ⟨htype, rfl⟩ := hnone rfl
    refine ⟨v, [], u, F, Emits.pure_iff.mpr ⟨rfl, rfl, rfl⟩, htype, hF, by rw [List.append_nil]; exact hB, ?_⟩
    intro m _ fr callers rest e _ hrest hhas
    obtain rfl : fr.rest = rest := hrest
    exact ⟨fr.values, hhas, rfl⟩
  | some op =>
    obtain ⟨hop, heval⟩ := heval op rfl
    refine ⟨.instr ⟨s.fn, F.instrs.size⟩ t, [F.instrs.size],
      { u with module := u.module.modifyFunction s.fn fun _ ↦ (F.append s.block (.cast op v t "")).1 },
      (F.append s.block (.cast op v t "")).1, ?_, rfl, function?_modify hF _, append_block hB _, fun m hm ↦ ?_⟩
    · exact emit_emits hF _
    · exact translates_append hop ht heval (hm _ (List.mem_singleton_self _))

theorem patternOf_reduce (h : 0 < p.width) (x : Int) : patternOf p.width (p.reduce x) = patternOf p.width x := by
  refine patternOf_congr h p.width_le ?_
  unfold Prim.reduce
  split
  · exact Int.bmod_bmod
  · rw [show (2 : Int) ^ p.width = (2 ^ p.width : Nat) by push_cast; rfl, Int.emod_bmod]

/-- What a conversion computes: the same number, or that of its bits without a sign where a native integer is made. -/
theorem evalCast_patternOf (hS : 0 < S.width) (hT : 0 < T.width) (hv : scalarType? S = some v.type)
    (ht : scalarType? T = some t) (hx : S.Fits x) {op : Ssa.Op} (hop : op ∈ castOp? S T) :
    Ssa.evalCast op v.type t (patternOf S.width x) =
      .ok (patternOf T.width (if op = .inttoptr then x % 2 ^ S.width else x)) := by
  rw [scalarType?_integer hS, Option.some.injEq] at hv
  rw [scalarType?_integer hT, Option.some.injEq] at ht
  unfold castOp? at hop
  split at hop
  · cases hop
  · -- an address is cut
    rename_i hsn htn
    cases hop
    simp only [htn, Bool.false_eq_true, if_false] at ht
    simp only [Ssa.evalCast, ← ht, Ssa.Ty.bits, reduceCtorEq, if_false, Prim.width_native hsn]
    rw [signExtend_patternOf hT T.width_le le_rfl]
  · -- an address is made of the bits
    rename_i hsn htn
    cases hop
    simp only [hsn, Bool.false_eq_true, if_false] at hv
    simp only [Ssa.evalCast, ← hv, Ssa.Ty.bits, if_true, Prim.width_native htn]
    rw [zeroExtend_patternOf hS S.width_le, patternOf, signExtend_of_outside _ (by omega)]
  · rename_i hsn htn
    simp only [hsn, htn, Bool.false_eq_true, if_false] at hv ht
    split at hop
    · rename_i hlt
      cases hop
      simp only [Ssa.evalCast, ← ht, Ssa.Ty.bits, reduceCtorEq, if_false]
      rw [signExtend_patternOf hT hlt.le S.width_le]
    · split at hop
      · rename_i hlt
        cases hop
        unfold Prim.Fits at hx
        cases hs : S.isSigned <;> simp only [hs, Bool.false_eq_true, if_false, if_true] at hx
        · simp only [Ssa.evalCast, ← hv, ← ht, Ssa.Ty.bits, Bool.false_eq_true, if_false, reduceCtorEq]
          rw [zeroExtend_patternOf hS S.width_le, Int.emod_eq_of_lt hx.1 hx.2, patternOf]
        · simp only [Ssa.evalCast, ← ht, Ssa.Ty.bits, if_true, reduceCtorEq, if_false]
          rw [patternOf_wider hS hlt.le T.width_le hx.1 hx.2, patternOf, signExtend_signExtend]
      · cases hop

theorem castOp?_isCast {op : Ssa.Op} (h : op ∈ castOp? S T) : op.isCast = true := by
  unfold castOp? at h
  split at h
  · cases h
  · cases h
    rfl
  · cases h
    rfl
  · split at h
    · cases h
      rfl
    · split at h
      · cases h
        split <;> rfl
      · cases h

theorem castOp?_eq_none (hS : 0 < S.width) (hT : 0 < T.width) (h : castOp? S T = none) :
    scalarType? S = scalarType? T ∧ S.width = T.width := by
  rw [scalarType?_integer hS, scalarType?_integer hT]
  unfold castOp? at h
  split at h
  · rename_i hs ht
    rw [hs, ht, Prim.width_native hs, Prim.width_native ht]
    exact ⟨rfl, rfl⟩
  · cases h
  · cases h
  · rename_i hs ht
    split at h
    · cases h
    · split at h
      · cases h
      · have hw : S.width = T.width := by omega
        rw [hs, ht, hw]
        exact ⟨rfl, rfl⟩

theorem converts_bits (hS : 0 < S.width) (hT : 0 < T.width) (hx : S.Fits x) :
    Converts S T x (T.reduce (if castOp? S T = some .inttoptr then x % 2 ^ S.width else x)) := by
  intro site s u F B v hu hF hB hv
  obtain ⟨t, ht⟩ : ∃ t, scalarType? T = some t := ⟨_, scalarType?_integer hT⟩
  obtain ⟨u₁, hmodule, hlowers⟩ := convert_lowers site s hu hS hT hv ht
  have hvalue : t.hasValue = true := by
    rw [scalarType?_integer hT] at ht
    cases ht
    split <;> rfl
  have heval : ∀ op ∈ castOp? S T, op.isCast = true ∧ Ssa.evalCast op v.type t (patternOf S.width x) =
      .ok (patternOf T.width (if castOp? S T = some .inttoptr then x % 2 ^ S.width else x)) := by
    intro op hop
    refine ⟨castOp?_isCast hop, ?_⟩
    rw [evalCast_patternOf hS hT hv ht hx hop, hop]
    simp only [Option.some.injEq]
  have hnone : castOp? S T = none → v.type = t ∧ patternOf S.width x =
      patternOf T.width (if castOp? S T = some .inttoptr then x % 2 ^ S.width else x) := by
    intro hnone
    obtain ⟨hcode, hw⟩ := castOp?_eq_none hS hT hnone
    rw [hv, ht] at hcode
    rw [hnone, hw]
    exact ⟨Option.some.inj hcode, rfl⟩
  rw [patternOf_reduce hT]
  obtain ⟨v', ks, u', F', he, rfl, hF', hB', htranslates⟩ := emitOr_translates (hmodule ▸ hF) hB hvalue _ heval hnone
  exact ⟨v', ks, u', F', hlowers v' u' he, ht, hF', hB', htranslates⟩

theorem castOp?_eq_inttoptr (h : castOp? S T = some .inttoptr) : S.isNative = false ∧ T.isNative = true := by
  unfold castOp? at h
  split at h
  · cases h
  · cases h
  · exact ⟨‹_›, ‹_›⟩
  · split at h
    · cases h
    · split at h
      · split at h <;> cases h
      · cases h

/-- An integer keeps its value modulo the width of the type that it is converted to, except for a negative number that
is made a wider native integer. -/
theorem converts_integer (hS : 0 < S.width) (hT : 0 < T.width) (hx : S.Fits x)
    (h : ¬ (T.isNative = true ∧ S.width < T.width ∧ x < 0)) : Converts S T x (T.reduce x) := by
  have hbits := converts_bits hS hT hx
  split at hbits
  · rename_i hop
    obtain ⟨-, htn⟩ := castOp?_eq_inttoptr hop
    by_cases hw : S.width < T.width
    · rwa [Int.emod_eq_of_lt (not_lt.mp fun hneg ↦ h ⟨htn, hw, hneg⟩) (hx.lt hS)] at hbits
    · have hle := S.width_le
      rw [Prim.width_native htn] at hw
      rwa [show S.width = T.width by rw [Prim.width_native htn]; omega, Prim.reduce_emod] at hbits
  · exact hbits

theorem converts_integer_cut : Faithful (getMethod smallWorld returnMethod freshUnit).2 ∧ Prim.Fits .int32 300 ∧
    Prim.Fits .int8 44 ∧ Converts .int32 .int8 300 44 := by
  have hreturn : Found smallWorld returnMethod := rfl
  exact ⟨(CompilationUnit.Reachable.method hreturn freshUnit_reachable).faithful smallWorld_consistent,
    by decide, by decide, converts_integer (S := .int32) (T := .int8) (by decide) (by decide) (by decide) (by decide)⟩

theorem converts_negative (hS : 0 < S.width) (hx : S.Fits x) (hT : T.isNative = true) (hw : S.width < T.width)
    (hneg : x < 0) : Converts S T x (x + 2 ^ S.width) := by
  have hT0 : 0 < T.width := by rw [Prim.width_native hT]; decide
  have hbits := converts_bits hS hT0 hx
  have hop : castOp? S T = some .inttoptr := by
    have hn : S.isNative = false := by
      rw [Bool.eq_false_iff]
      intro hn
      rw [Prim.width_native hn, Prim.width_native hT] at hw
      exact absurd hw (lt_irrefl _)
    rw [castOp?, hn, hT]
  have hlow : -2 ^ S.width ≤ x := by
    unfold Prim.Fits at hx
    split at hx
    · have hpow : (2 : Int) ^ S.width = 2 ^ (S.width - 1) * 2 := by rw [← pow_succ, Nat.sub_add_cancel hS]
      omega
    · omega
  have hmod : x % 2 ^ S.width = x + 2 ^ S.width := by
    rw [← Int.add_emod_right, Int.emod_eq_of_lt] <;> omega
  have hfits : T.Fits (x + 2 ^ S.width) := by
    have h32 : S.width ≤ 32 := by
      rw [Prim.width_native hT] at hw
      cases S <;> first | decide | exact absurd hw (by decide)
    have hpow : (2 : Int) ^ S.width ≤ 2 ^ 32 := pow_le_pow_right₀ (by decide) h32
    unfold Prim.Fits
    rw [Prim.width_native hT]
    split <;> constructor <;> omega
  rwa [if_pos hop, hmod, Prim.reduce_of_fits hT0 hfits] at hbits

end

/-! ### One function -/

def bareSite : Site where
  world := {}
  method := ⟨.defined ⟨0, ""⟩ 0, "", none, [], .void, true, false, none, ⟨0⟩, ⟨0, ""⟩⟩
  spans := []
  top := .const (.null .bytePointer) (.made 0)
  capacity := 0
  compile _ := throw .closed

def bareFunction (t : Ssa.Ty) : Function :=
  { id := ⟨0⟩, name := "cast", signature := .func .void [t], params := [⟨"", t⟩], blocks := #[⟨"entry", []⟩] }

def bareUnit (t : Ssa.Ty) : CompilationUnit :=
  { name := "unit", module := { name := "unit", functions := #[bareFunction t], liveFunctions := [0] } }

section

variable {S T : Prim} {x y y' : Int}

theorem Converts.unique (hS : 0 < S.width) (h : Converts S T x y) (h' : Converts S T x y') :
    patternOf T.width y = patternOf T.width y' := by
  obtain ⟨t, ht⟩ : ∃ t, scalarType? S = some t := ⟨_, scalarType?_integer hS⟩
  obtain ⟨v, ks, u, F, hl, -, hF, hB, hc⟩ := h bareSite { fn := ⟨0⟩ } (bareUnit t) (bareFunction t) ⟨"entry", []⟩
    (.param ⟨0⟩ 0 t) nofun rfl rfl ht
  obtain ⟨v', ks', u', F', hl', -, hF', hB', hc'⟩ := h' bareSite { fn := ⟨0⟩ } (bareUnit t)
    (bareFunction t) ⟨"entry", []⟩ (.param ⟨0⟩ 0 t) nofun rfl rfl ht
  cases hl.symm.trans hl'
  cases hF.symm.trans hF'
  obtain rfl : ks = ks' := by simpa using hB.symm.trans hB'
  have hkept : ∀ k ∈ ks, u.module.instr? ⟨⟨0⟩, k⟩ = F.instrs[k]? := by
    intro k _
    simp only [Module.instr?, hF, Option.bind_some, Function.instr?]
  let fr : Frame := { fn := ⟨0⟩, name := "", args := [patternOf S.width x], block := ⟨⟨0⟩, 0⟩, rest := ks, mark := 0 }
  have hhas : fr.Gives u.module (.param ⟨0⟩ 0 t) (patternOf S.width x) := fun _ _ ↦ rfl
  obtain ⟨values, hv, hsteps⟩ := hc u.module hkept fr [] [] {} rfl (List.append_nil ks).symm hhas
  obtain ⟨values', hv', hsteps'⟩ := hc' u.module hkept fr [] [] {} rfl (List.append_nil ks).symm hhas
  obtain rfl : values = values' := by
    have heq := hsteps.symm.trans hsteps'
    simp only [Option.some.injEq, Prod.mk.injEq, List.cons.injEq, Frame.mk.injEq, true_and, and_true] at heq
    exact heq
  have heq := (hv [] {}).symm.trans (hv' [] {})
  exact Except.ok.inj (Prod.mk.inj heq).1

theorem converts_negative_one : ¬ Converts .int32 .intPtr (-1) (Prim.reduce .intPtr (-1)) := by
  intro h
  have hfour : Converts .int32 .intPtr (-1) (-1 + 2 ^ 32) :=
    converts_negative (by decide) (by decide) rfl (by decide) (by decide)
  exact absurd (h.unique (by decide) hfour) (by decide)

end

end CilSsa.Lowering

