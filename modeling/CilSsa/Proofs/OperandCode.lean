import Mathlib.Data.List.Forall2
import CilSsa.Proofs.Emission
import CilSsa.Proofs.Words

namespace CilSsa.Lowering

open CilSsa.Metadata CilSsa.SlotMachine
open CilSsa.Number (pattern signExtend wordOfInt)
open CilSsa.Ssa (Const FuncId Function Instr Origin Value)

def Has (fn : FuncId) (args : List UInt64) (σ : Store) (v : Value) (d : Datum) : Prop :=
    datum fn args σ (some v) = some d

section

variable {fn : FuncId} {args : List UInt64} {σ σ' : Store} {v : Value} {d : Datum} {k : Nat}

theorem Has.self {t : Ssa.Ty} (hv : σ.values k = some d) (ht : d.fits t = true) :
    Has fn args σ (.instr ⟨fn, k⟩ t) d := by
  unfold Has datum
  rw [Option.filter_eq_some_iff]
  exact ⟨by simp [hv], ht⟩

theorem Has.const {c : Const} {w : UInt64} {o : Origin} (hc : c.bits? = some w)
    (ht : (Datum.word w).fits c.type = true) : Has fn args σ (.const c o) (.word w) := by
  unfold Has datum
  rw [Option.filter_eq_some_iff]
  exact ⟨by simp [hc], ht⟩

theorem Has.mono (h : Has fn args σ v d) (hσ : ∀ j x, σ.values j = some x → σ'.values j = some x) :
    Has fn args σ' v d := by
  unfold Has datum at h ⊢
  rw [Option.filter_eq_some_iff] at h ⊢
  refine ⟨?_, h.2⟩
  cases v with
  | instr id t =>
    have h1 := h.1
    dsimp only at h1 ⊢
    split at h1
    · rename_i hfn
      rw [if_pos hfn]
      exact hσ _ _ h1
    · cases h1
  | param _ _ _ => exact h.1
  | func _ _ => exact h.1
  | const _ _ => exact h.1

theorem pattern_fits (x : Int32) : (Datum.word (pattern x)).fits .i32 = true := by
  simp [Datum.fits, Ssa.Ty.i32]

theorem int32_const (n : Int) (o : Origin) :
    Has fn args σ (.const (.ofInt .i32 (wordOfInt n)) o) (.word (pattern (Int32.ofInt n))) := by
  apply Has.const
  · rw [Const.ofInt, Const.bits?]
    exact congrArg some (Number.signExtend_wordOfInt n)
  · exact pattern_fits _

theorem signExtend_word (w : UInt64) : signExtend w 64 = w := by
  simp [signExtend]

theorem int64_const (w : UInt64) (o : Origin) : Has fn args σ (.const (.ofInt .i64 w) o) (.word w) := by
  apply Has.const
  · rw [Const.ofInt, Const.bits?]
    exact congrArg some (signExtend_word w)
  · simp [Const.ofInt, Const.type, Datum.fits, Ssa.Ty.i64, signExtend_word]

end

/-- A store that goes on from another one: nothing that was computed is lost, and the slots outside `changed` are as
they were. -/
structure Later (changed : List Nat) (σ σ' : Store) : Prop where
  values : ∀ j x, σ.values j = some x → σ'.values j = some x
  slots : ∀ j, j ∉ changed → σ'.slots j = σ.slots j
  height : σ'.height = σ.height

theorem Later.refl (changed : List Nat) (σ : Store) : Later changed σ σ := ⟨fun _ _ h ↦ h, fun _ _ ↦ rfl, rfl⟩

theorem Later.trans {changed : List Nat} {σ σ' σ'' : Store} (h : Later changed σ σ') (h' : Later changed σ' σ'') :
    Later changed σ σ'' :=
  ⟨fun j x hj ↦ h'.values j x (h.values j x hj), fun j hj ↦ (h'.slots j hj).trans (h.slots j hj),
    h'.height.trans h.height⟩

theorem Later.widen {changed changed' : List Nat} {σ σ' : Store} (h : Later changed σ σ')
    (hsub : ∀ j ∈ changed, j ∈ changed') : Later changed' σ σ' :=
  ⟨h.values, fun j hj ↦ h.slots j fun hmem ↦ hj (hsub j hmem), h.height⟩

theorem Later.define {σ : Store} {k : Nat} (h : σ.values k = none) (d : Datum) (changed : List Nat) :
    Later changed σ (σ.define k d) :=
  ⟨fun _ _ hj ↦ define_values h d hj, fun _ _ ↦ rfl, rfl⟩

theorem Later.setSlot (σ : Store) {k : Nat} {changed : List Nat} (h : k ∈ changed) (sl : Slot) :
    Later changed σ (σ.setSlot k sl) := by
  refine ⟨fun _ _ hj ↦ hj, ?_, rfl⟩
  intro j hj
  have hne : j ≠ k := by
    rintro rfl
    exact hj h
  simp only [Store.setSlot, hne, if_false]

section

variable {F : Function} {fill fn : FuncId} {args : List UInt64} {b : Nat} {σ₀ σ : Store} {p v : Value} {d : Datum}

theorem Runs.fresh_value (h : Runs F fill args b σ₀ σ) : σ.values F.instrs.size = none :=
  (h.fresh _ (Nat.le_refl _)).1

theorem Runs.define (h : Runs F fill args b σ₀ σ) (hfn : F.id = fn) {i : Instr} {ds : List Datum}
    (hd : i.operands.mapM (datum fn args σ) = some ds)
    (ha : Act fill i F.instrs.size σ (i.operands.map operandType) ds (σ.define F.instrs.size d))
    (hfit : d.fits i.type = true) :
    ∃ σ', Runs (F.append b i).1 fill args b σ₀ σ' ∧ Later [] σ σ' ∧
    Has fn args σ' (.instr ⟨fn, F.instrs.size⟩ i.type) d := by
  subst hfn
  refine ⟨_, h.append hd ha, .define h.fresh_value d [], .self ?_ hfit⟩
  simp [Store.define]

theorem Has.one (hp : Has fn args σ p d) : [some p].mapM (datum fn args σ) = some [d] := by
  simp [show datum fn args σ (some p) = _ from hp]

theorem Has.two {d' : Datum} (hp : Has fn args σ p d) (hv : Has fn args σ v d') :
    [some p, some v].mapM (datum fn args σ) = some [d, d'] := by
  simp [show datum fn args σ (some p) = _ from hp, show datum fn args σ (some v) = _ from hv]

theorem Has.three {w : Value} {d' d'' : Datum} (hp : Has fn args σ p d) (hv : Has fn args σ v d')
    (hw : Has fn args σ w d'') : [some p, some v, some w].mapM (datum fn args σ) = some [d, d', d''] := by
  simp [show datum fn args σ (some p) = _ from hp, show datum fn args σ (some v) = _ from hv,
    show datum fn args σ (some w) = _ from hw]

end

section

variable {fill fn : FuncId} {u u' : CompilationUnit} {F : Function} {s s' : Stage} {p v w : Value} {x : Unit}

theorem emit_code (h : Coding fill fn u F) {i : Instr} (he : Emits (emit i) s u v s' u') (hs : s.fn = fn)
    (hi : i.callee = none) :
    s' = s ∧ v.type = i.type ∧ ∃ F', Growth fill fn s.block u F u' F' ∧
      ∀ {args σ₀ σ ds d}, Runs F fill args s.block σ₀ σ → i.operands.mapM (datum fn args σ) = some ds →
        computed i (i.operands.map operandType) ds = some d → d.fits i.type = true →
        ∃ σ', Runs F' fill args s.block σ₀ σ' ∧ Later [] σ σ' ∧ Has fn args σ' v d := by
  obtain ⟨rfl, rfl, hg⟩ := emit_growth h he hs hi
  exact ⟨rfl, rfl, _, hg, fun hr hd hc hfit ↦ hr.define h.id hd (.pure hc hr.fresh_value) hfit⟩

theorem load_code (h : Coding fill fn u F) (he : Emits (load p) s u v s' u') (hs : s.fn = fn) :
    s' = s ∧ v.type = p.type.pointee ∧ ∃ F', Growth fill fn s.block u F u' F' ∧
      ∀ {args σ₀ σ k o w sl n d}, Runs F fill args s.block σ₀ σ → Has fn args σ p (.place k o) →
        width? p.type.pointee = some w → σ.cell? k o w = some (sl, n, d) → d.fits p.type.pointee = true →
        ∃ σ', Runs F' fill args s.block σ₀ σ' ∧ Later [] σ σ' ∧ Has fn args σ' v d := by
  obtain ⟨rfl, rfl, hg⟩ := emit_growth h he hs rfl
  exact ⟨rfl, rfl, _, hg, fun hr hp hw hc hfit ↦ hr.define h.id hp.one (.load rfl hw hc hr.fresh_value) hfit⟩

theorem storeAt_code {b : Nat} (h : Coding fill fn u F) (he : Emits (emitAt b (.store v p)) s u w s' u')
    (hs : s.fn = fn) : s' = s ∧ ∃ F', Growth fill fn b u F u' F' ∧
      ∀ {args σ₀ σ k o w sl n d d'}, Runs F fill args b σ₀ σ → Has fn args σ v d → Has fn args σ p (.place k o) →
        width? v.type = some w → σ.cell? k o w = some (sl, n, d') →
        ∃ σ', Runs F' fill args b σ₀ σ' ∧ Later [k] σ σ' ∧ σ'.slots k = some ⟨w, sl.cells.set n d⟩ := by
  obtain ⟨rfl, rfl, hg⟩ := emitAt_growth h he hs rfl
  refine ⟨rfl, _, hg, ?_⟩
  intro args σ₀ σ k o w sl n d d' hr hv hp hw hc
  refine ⟨σ.setSlot k ⟨w, sl.cells.set n d⟩, hr.append ?_ (.store rfl rfl hw hc), .setSlot σ List.mem_cons_self _, ?_⟩
  · rw [h.id]
    exact hv.two hp
  · simp [Store.setSlot]

theorem store_code (h : Coding fill fn u F) (he : Emits (store v p) s u x s' u') (hs : s.fn = fn) :
    s' = s ∧ ∃ F', Growth fill fn s.block u F u' F' ∧
      ∀ {args σ₀ σ k o w sl n d d'}, Runs F fill args s.block σ₀ σ → Has fn args σ v d → Has fn args σ p (.place k o) →
        width? v.type = some w → σ.cell? k o w = some (sl, n, d') →
        ∃ σ', Runs F' fill args s.block σ₀ σ' ∧ Later [k] σ σ' ∧ σ'.slots k = some ⟨w, sl.cells.set n d⟩ := by
  unfold store emit at he
  simp only [Emits.bind_iff, Emits.get_iff, Emits.pure_iff] at he
  obtain ⟨w, _, _, ⟨_, _, _, ⟨rfl, rfl, rfl⟩, he⟩, -, rfl, rfl⟩ := he
  exact storeAt_code h he hs

@[simp] theorem type_ofInt (t : Ssa.Ty) (w : UInt64) (o : Origin) : (Value.const (.ofInt t w) o).type = t := rfl

@[simp] theorem isPointer_pointer (t : Ssa.Ty) : (Ssa.Ty.pointer t).isPointer = true := rfl

@[simp] theorem isPointer_bytePointer : Ssa.Ty.bytePointer.isPointer = true := rfl

theorem advance_code (h : Coding fill fn u F) {delta : Int} (he : Emits (advance p delta) s u v s' u') (hs : s.fn = fn)
    (hp : p.type.isPointer = true) :
    s' = { s with constants := s.constants + 1 } ∧ v.type = .bytePointer ∧ ∃ F', Growth fill fn s.block u F u' F' ∧
      ∀ {args σ₀ σ k o}, Runs F fill args s.block σ₀ σ → Has fn args σ p (.place k o) →
        ∃ σ', Runs F' fill args s.block σ₀ σ' ∧ Later [] σ σ' ∧ Has fn args σ' v (.place k (o + wordOfInt delta)) := by
  unfold advance castTo at he
  simp only [Emits.bind_iff] at he
  obtain ⟨n, _, _, he₁, c, _, _, he₂, sum, _, _, he₃, he₄⟩ := he
  obtain ⟨rfl, hn, F₁, hg₁, hrun₁⟩ := emit_code h he₁ hs rfl
  obtain ⟨rfl, rfl, rfl⟩ := intConst_stage he₂
  obtain ⟨rfl, hsum, F₂, hg₂, hrun₂⟩ := emit_code hg₁.coding he₃ hs rfl
  obtain ⟨rfl, hv, F₃, hg₃, hrun₃⟩ := emit_code hg₂.coding he₄ hs rfl
  refine ⟨rfl, hv, F₃, (hg₁.trans hg₂).trans hg₃, ?_⟩
  intro args σ₀ σ k o hr hd
  have hptr : n.type = .i64 := hn
  obtain ⟨σ₁, hr₁, hl₁, hd₁⟩ := hrun₁ (d := .place k o) hr hd.one (by simp [computed, Instr.cast, operandType, hp]) rfl
  obtain ⟨σ₂, hr₂, hl₂, hd₂⟩ := hrun₂ (d := .place k (o + wordOfInt delta)) hr₁ (hd₁.two (int64_const ..))
    (by simp [computed, Instr.binary, operandType, hptr, SlotMachine.sum])
    (by simp [Instr.binary, hptr, Datum.fits, Ssa.Ty.i64])
  obtain ⟨σ₃, hr₃, hl₃, hd₃⟩ := hrun₃ (d := .place k (o + wordOfInt delta)) hr₂ hd₂.one
    (by simp [computed, Instr.cast, operandType, hsum, Instr.binary, hptr]) rfl
  exact ⟨σ₃, hr₃, (hl₁.trans hl₂).trans hl₃, hd₃⟩

end

/-- Where a body keeps things: the buffer of the run-time stack, the slot of its top, the slots of the arguments and the
locals, and how many 32-bit integers the buffer has room for. -/
structure Plan where
  buffer : Nat
  cursor : Nat
  args : List Nat
  locals : List Nat
  room : Nat
  apart : (buffer :: cursor :: (args ++ locals)).Nodup
  small : 4 * room < 2 ^ 63

namespace Plan

variable (plan : Plan)

def vars : List Nat := plan.args ++ plan.locals

theorem cursor_ne_buffer : plan.cursor ≠ plan.buffer := by
  have h := plan.apart
  simp only [List.nodup_cons, List.mem_cons, not_or] at h
  exact fun heq ↦ h.1.1 heq.symm

theorem buffer_notMem : plan.buffer ∉ plan.vars := by
  have h := plan.apart
  simp only [List.nodup_cons, List.mem_cons, not_or] at h
  exact h.1.2

theorem cursor_notMem : plan.cursor ∉ plan.vars := by
  have h := plan.apart
  simp only [List.nodup_cons] at h
  exact h.2.1

theorem vars_nodup : plan.vars.Nodup := by
  have h := plan.apart
  simp only [List.nodup_cons] at h
  exact h.2.2

end Plan

def Keeps (σ : Store) (k : Nat) (x : Int32) : Prop := σ.slots k = some ⟨4, [.word (pattern x)]⟩

section

variable {σ σ' : Store} {ks : List Nat} {xs : List Int32} {n k : Nat}

theorem keeps_congr (h : List.Forall₂ (Keeps σ) ks xs) (hσ : ∀ k ∈ ks, σ'.slots k = σ.slots k) :
    List.Forall₂ (Keeps σ') ks xs := by
  induction h with
  | nil => exact .nil
  | cons hk _ ih =>
    refine .cons ?_ (ih fun k hk ↦ hσ k (List.mem_cons_of_mem _ hk))
    rw [Keeps, hσ _ List.mem_cons_self]
    exact hk

theorem keeps_get (h : List.Forall₂ (Keeps σ) ks xs) (hk : ks[n]? = some k) : ∃ x, xs[n]? = some x ∧ Keeps σ k x := by
  induction h generalizing n with
  | nil => cases hk
  | cons hx _ ih =>
    cases n with
    | zero =>
      cases hk
      exact ⟨_, rfl, hx⟩
    | succ n => exact ih hk

theorem keeps_set (h : List.Forall₂ (Keeps σ) ks xs) (hnodup : ks.Nodup) (hk : ks[n]? = some k) {x : Int32}
    (hx : Keeps σ' k x) (hσ : ∀ j, j ≠ k → σ'.slots j = σ.slots j) : List.Forall₂ (Keeps σ') ks (xs.set n x) := by
  induction h generalizing n with
  | nil => cases hk
  | cons hy hrest ih =>
    obtain ⟨hnot, hnodup⟩ := List.nodup_cons.mp hnodup
    cases n with
    | zero =>
      cases hk
      refine .cons hx (keeps_congr hrest fun j hj ↦ hσ j ?_)
      rintro rfl
      exact hnot hj
    | succ n =>
      refine .cons ?_ (ih hnodup hk)
      rw [Keeps, hσ]
      · exact hy
      · rintro rfl
        exact hnot (List.mem_of_getElem? hk)

end

/-- What a store holds for a body: `low` is in the buffer, top first. -/
structure Stored (plan : Plan) (σ : Store) (low xs ys : List Int32) : Prop where
  places : ∀ k ∈ plan.buffer :: plan.cursor :: plan.vars, σ.values k = some (.place k 0)
  cursor : σ.slots plan.cursor = some ⟨8, [.place plan.buffer (4 * low.length).toUInt64]⟩
  buffer : ∃ rest, σ.slots plan.buffer = some ⟨4, low.reverse.map (fun x ↦ .word (pattern x)) ++ rest⟩ ∧
    low.length + rest.length = plan.room
  args : List.Forall₂ (Keeps σ) plan.args xs
  locals : List.Forall₂ (Keeps σ) plan.locals ys

theorem cell_single {σ : Store} {k w : Nat} {d : Datum} (h : σ.slots k = some ⟨w, [d]⟩) :
    σ.cell? k 0 w = some (⟨w, [d]⟩, 0, d) := by
  simp [Store.cell?, h]

theorem cell_buffer {σ : Store} {k n : Nat} {cells : List Datum} {d : Datum} (h : σ.slots k = some ⟨4, cells⟩)
    (hn : 4 * n < 2 ^ 63) (hd : cells[n]? = some d) :
    σ.cell? k (4 * n).toUInt64 4 = some (⟨4, cells⟩, n, d) := by
  have ho : ((4 * n).toUInt64).toNat = 4 * n := by
    rw [Nat.toUInt64, UInt64.toNat_ofNat']
    omega
  have hdiv : 4 * n / 4 = n := by omega
  simp only [Store.cell?, h, ho, Nat.mul_mod_right, and_self, if_true, hdiv, hd, Option.map_some]

theorem offset_pop (n : Nat) : (4 * (n + 1)).toUInt64 + wordOfInt (-4) = (4 * n).toUInt64 := by
  apply UInt64.toNat_inj.mp
  simp only [UInt64.toNat_add, Nat.toUInt64, wordOfInt, UInt64.toNat_ofNat']
  omega

theorem offset_push (n : Nat) : (4 * n).toUInt64 + wordOfInt 4 = (4 * (n + 1)).toUInt64 := by
  apply UInt64.toNat_inj.mp
  simp only [UInt64.toNat_add, Nat.toUInt64, wordOfInt, UInt64.toNat_ofNat']
  omega

theorem Stored.later {plan : Plan} {σ σ' : Store} {low xs ys : List Int32} (h : Stored plan σ low xs ys)
    (hσ : Later [] σ σ') : Stored plan σ' low xs ys := by
  have hslots : ∀ j, σ'.slots j = σ.slots j := fun j ↦ hσ.slots j (List.not_mem_nil)
  refine ⟨fun k hk ↦ hσ.values _ _ (h.places k hk), (hslots _).trans h.cursor, ?_,
    keeps_congr h.args fun k _ ↦ hslots k, keeps_congr h.locals fun k _ ↦ hslots k⟩
  obtain ⟨rest, hb, hlen⟩ := h.buffer
  exact ⟨rest, (hslots _).trans hb, hlen⟩

section

variable {fill fn : FuncId} {u u' : CompilationUnit} {F : Function} {s s' : Stage} {p v w : Value} {x : Unit}

theorem pointerTo_code (h : Coding fill fn u F) {t : Ssa.Ty} (he : Emits (pointerTo p (.pointer t)) s u v s' u')
    (hs : s.fn = fn) (hp : p.type = .bytePointer) (ht : t ≠ .i8) :
    s' = s ∧ v.type = .pointer t ∧ ∃ F', Growth fill fn s.block u F u' F' ∧
      ∀ {args σ₀ σ k o}, Runs F fill args s.block σ₀ σ → Has fn args σ p (.place k o) →
        ∃ σ', Runs F' fill args s.block σ₀ σ' ∧ Later [] σ σ' ∧ Has fn args σ' v (.place k o) := by
  have hne : p.type ≠ .pointer t := by
    rw [hp]
    intro heq
    exact ht (Ssa.Ty.pointer.inj heq).symm
  simp only [pointerTo, Instr.pointerCast?, hne, if_false, emitOr] at he
  obtain ⟨rfl, hv, F', hg, hrun⟩ := emit_code h he hs rfl
  refine ⟨rfl, hv, F', hg, ?_⟩
  intro args σ₀ σ k o hr hd
  exact hrun hr hd.one (by simp [computed, Instr.cast, operandType, hp]) rfl

def Plan.top (plan : Plan) (fn : FuncId) : Value := .instr ⟨fn, plan.cursor⟩ (.pointer .bytePointer)

theorem Stored.top {plan : Plan} {σ : Store} {low xs ys : List Int32} (h : Stored plan σ low xs ys) (fn : FuncId)
    (args : List UInt64) : Has fn args σ (plan.top fn) (.place plan.cursor 0) :=
  .self (h.places _ (by simp)) rfl

theorem Stored.move {plan : Plan} {σ σ' : Store} {low low' xs ys : List Int32} {rest : List Datum}
    (h : Stored plan σ low xs ys) (hl : Later [plan.cursor] σ σ')
    (hc : σ'.slots plan.cursor = some ⟨8, [.place plan.buffer (4 * low'.length).toUInt64]⟩)
    (hb : σ.slots plan.buffer = some ⟨4, low'.reverse.map (fun x ↦ .word (pattern x)) ++ rest⟩)
    (hroom : low'.length + rest.length = plan.room) : Stored plan σ' low' xs ys := by
  have hvars : ∀ k ∈ plan.vars, σ'.slots k = σ.slots k := by
    intro k hk
    apply hl.slots
    rw [List.mem_singleton]
    rintro rfl
    exact plan.cursor_notMem hk
  refine ⟨fun k hk ↦ hl.values _ _ (h.places k hk), hc, ⟨rest, ?_, hroom⟩,
    keeps_congr h.args fun k hk ↦ hvars k (List.mem_append_left _ hk),
    keeps_congr h.locals fun k hk ↦ hvars k (List.mem_append_right _ hk)⟩
  rw [hl.slots, hb]
  rw [List.mem_singleton]
  exact plan.cursor_ne_buffer.symm

theorem popBuffer_code (plan : Plan) (h : Coding fill fn u F)
    (he : Emits (popBuffer (plan.top fn) .i32 4) s u v s' u') (hs : s.fn = fn) :
    s' = { s with constants := s.constants + 1 } ∧ v.type = .i32 ∧ ∃ F', Growth fill fn s.block u F u' F' ∧
      ∀ {args σ₀ σ x low xs ys}, Runs F fill args s.block σ₀ σ → Stored plan σ (x :: low) xs ys →
        ∃ σ', Runs F' fill args s.block σ₀ σ' ∧ Later [plan.cursor] σ σ' ∧ Stored plan σ' low xs ys ∧
          Has fn args σ' v (.word (pattern x)) := by
  unfold popBuffer at he
  simp only [Emits.bind_iff] at he
  obtain ⟨old, _, _, he₁, top, _, _, he₂, _, _, _, he₃, q, _, _, he₄, he₅⟩ := he
  obtain ⟨rfl, hold, F₁, hg₁, hrun₁⟩ := load_code h he₁ hs
  have hold : old.type = .bytePointer := hold
  obtain ⟨rfl, htop, F₂, hg₂, hrun₂⟩ := advance_code hg₁.coding he₂ hs (by rw [hold]; rfl)
  obtain ⟨rfl, F₃, hg₃, hrun₃⟩ := store_code hg₂.coding he₃ hs
  obtain ⟨rfl, hq, F₄, hg₄, hrun₄⟩ := pointerTo_code hg₃.coding he₄ hs htop (by decide)
  obtain ⟨rfl, hv, F₅, hg₅, hrun₅⟩ := load_code hg₄.coding he₅ hs
  rw [hq] at hv hrun₅
  refine ⟨rfl, hv, F₅, (((hg₁.trans hg₂).trans hg₃).trans hg₄).trans hg₅, ?_⟩
  intro args σ₀ σ x low xs ys hr hst
  obtain ⟨rest, hb, hroom⟩ := hst.buffer
  have hsmall := plan.small
  rw [List.length_cons] at hroom
  obtain ⟨σ₁, hr₁, hl₁, hd₁⟩ := hrun₁ hr (hst.top fn args) rfl (cell_single hst.cursor) rfl
  obtain ⟨σ₂, hr₂, hl₂, hd₂⟩ := hrun₂ hr₁ hd₁
  rw [List.length_cons, offset_pop] at hd₂
  have hst₂ := hst.later (hl₁.trans hl₂)
  obtain ⟨σ₃, hr₃, hl₃, hcur⟩ := hrun₃ hr₂ hd₂ (hst₂.top fn args) (by rw [htop]; rfl) (cell_single hst₂.cursor)
  have hb₂ : σ₂.slots plan.buffer =
      some ⟨4, low.reverse.map (fun x ↦ .word (pattern x)) ++ (.word (pattern x) :: rest)⟩ := by
    rw [(hl₁.trans hl₂).slots _ List.not_mem_nil, hb]
    simp
  have hst₃ : Stored plan σ₃ low xs ys := hst₂.move hl₃ hcur hb₂ (by simp; omega)
  obtain ⟨σ₄, hr₄, hl₄, hd₄⟩ := hrun₄ hr₃ (hd₂.mono hl₃.values)
  have hcell : (low.reverse.map (fun x ↦ Datum.word (pattern x)) ++ (.word (pattern x) :: rest))[low.length]? =
      some (.word (pattern x)) := by
    rw [List.getElem?_append_right (by simp)]
    simp
  have hb₄ : σ₄.slots plan.buffer =
      some ⟨4, low.reverse.map (fun x ↦ .word (pattern x)) ++ (.word (pattern x) :: rest)⟩ := by
    rw [hl₄.slots _ List.not_mem_nil, hl₃.slots _ (by simpa using plan.cursor_ne_buffer.symm), hb₂]
  obtain ⟨σ₅, hr₅, hl₅, hd₅⟩ := hrun₅ hr₄ hd₄ rfl (cell_buffer hb₄ (by omega) hcell)
    (pattern_fits x)
  refine ⟨σ₅, hr₅, ?_, (hst₃.later hl₄).later hl₅, hd₅⟩
  exact ((((hl₁.trans hl₂).widen nofun).trans hl₃).trans (hl₄.widen nofun)).trans (hl₅.widen nofun)

theorem pushBuffer_code (plan : Plan) (h : Coding fill fn u F)
    (he : Emits (pushBuffer (plan.top fn) v 4) s u x s' u') (hs : s.fn = fn) (hv : v.type = .i32) :
    s' = { s with constants := s.constants + 1 } ∧ ∃ F', Growth fill fn s.block u F u' F' ∧
      ∀ {args σ₀ σ x low xs ys}, Runs F fill args s.block σ₀ σ → Stored plan σ low xs ys →
        Has fn args σ v (.word (pattern x)) → low.length < plan.room →
        ∃ σ', Runs F' fill args s.block σ₀ σ' ∧ Later [plan.cursor, plan.buffer] σ σ' ∧
          Stored plan σ' (x :: low) xs ys := by
  unfold pushBuffer at he
  simp only [Emits.bind_iff] at he
  obtain ⟨top, _, _, he₁, q, _, _, he₂, _, _, _, he₃, next, _, _, he₄, he₅⟩ := he
  obtain ⟨rfl, htop, F₁, hg₁, hrun₁⟩ := load_code h he₁ hs
  have htop : top.type = .bytePointer := htop
  rw [hv] at he₂
  obtain ⟨rfl, hq, F₂, hg₂, hrun₂⟩ := pointerTo_code hg₁.coding he₂ hs htop (by decide)
  obtain ⟨rfl, F₃, hg₃, hrun₃⟩ := store_code hg₂.coding he₃ hs
  obtain ⟨rfl, hnext, F₄, hg₄, hrun₄⟩ := advance_code hg₃.coding he₄ hs (by rw [htop]; rfl)
  obtain ⟨rfl, F₅, hg₅, hrun₅⟩ := store_code hg₄.coding he₅ hs
  refine ⟨rfl, F₅, (((hg₁.trans hg₂).trans hg₃).trans hg₄).trans hg₅, ?_⟩
  intro args σ₀ σ x low xs ys hr hst hx hlow
  obtain ⟨_ | ⟨d, rest⟩, hb, hroom⟩ := hst.buffer
  · rw [List.length_nil] at hroom
    omega
  rw [List.length_cons] at hroom
  have hsmall := plan.small
  obtain ⟨σ₁, hr₁, hl₁, hd₁⟩ := hrun₁ hr (hst.top fn args) rfl (cell_single hst.cursor) rfl
  obtain ⟨σ₂, hr₂, hl₂, hd₂⟩ := hrun₂ hr₁ hd₁
  have hl := hl₁.trans hl₂
  have hst₂ := hst.later hl
  have hb₂ := (hl.slots plan.buffer List.not_mem_nil).trans hb
  have hcell : (low.reverse.map (fun x ↦ Datum.word (pattern x)) ++ d :: rest)[low.length]? = some d := by
    rw [List.getElem?_append_right (by simp)]
    simp
  obtain ⟨σ₃, hr₃, hl₃, hb₃⟩ := hrun₃ hr₂ (hx.mono hl.values) hd₂ (by rw [hv]; rfl) (cell_buffer hb₂ (by omega) hcell)
  obtain ⟨σ₄, hr₄, hl₄, hd₄⟩ := hrun₄ hr₃ ((hd₁.mono hl₂.values).mono hl₃.values)
  rw [offset_push] at hd₄
  have hcur : σ₄.slots plan.cursor = some ⟨8, [.place plan.buffer (4 * low.length).toUInt64]⟩ := by
    rw [hl₄.slots _ List.not_mem_nil, hl₃.slots _ (by simpa using plan.cursor_ne_buffer), hst₂.cursor]
  have hst₄ : Has fn args σ₄ (plan.top fn) (.place plan.cursor 0) :=
    ((hst₂.top fn args).mono hl₃.values).mono hl₄.values
  obtain ⟨σ₅, hr₅, hl₅, hcur₅⟩ := hrun₅ hr₄ hd₄ hst₄ (by rw [hnext]; rfl) (cell_single hcur)
  have hwhole : Later [plan.cursor, plan.buffer] σ σ₅ :=
    (((hl.widen nofun).trans (hl₃.widen (by simp))).trans (hl₄.widen nofun)).trans (hl₅.widen (by simp))
  have hvars : ∀ k ∈ plan.vars, σ₅.slots k = σ.slots k := by
    intro k hk
    apply hwhole.slots
    simp only [List.mem_cons, List.not_mem_nil, or_false, not_or]
    constructor
    · rintro rfl
      exact plan.cursor_notMem hk
    · rintro rfl
      exact plan.buffer_notMem hk
  refine ⟨σ₅, hr₅, hwhole, fun k hk ↦ hwhole.values _ _ (hst.places k hk), hcur₅, ⟨rest, ?_, ?_⟩,
    keeps_congr hst.args fun k hk ↦ hvars k (List.mem_append_left _ hk),
    keeps_congr hst.locals fun k hk ↦ hvars k (List.mem_append_right _ hk)⟩
  · rw [hl₅.slots _ (by simpa using plan.cursor_ne_buffer.symm), hl₄.slots _ List.not_mem_nil, hb₃,
      List.set_append_right _ _ (by simp)]
    simp
  · rw [List.length_cons]
    omega

end

end CilSsa.Lowering

