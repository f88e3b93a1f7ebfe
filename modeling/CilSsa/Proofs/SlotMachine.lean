import CilSsa.Proofs.Memory
import CilSsa.Ssa.Builder
import CilSsa.Ssa.Eval

namespace CilSsa.SlotMachine

open CilSsa.Ssa CilSsa.Number

/-- A run-time value: a pattern, or the address so many bytes into the slot of an instruction. -/
inductive Datum
  | word (v : UInt64)
  | place (slot : Nat) (offset : UInt64)
deriving DecidableEq

/-- A pattern is extended from the width of its type, and an address is a pointer or a 64-bit number. -/
def Datum.fits : Datum → Ty → Bool
  | .word v, .int n => signExtend v n = v
  | .place .., .int n => n = 64
  | .place .., .pointer _ => true
  | _, _ => false

/-- A stack slot: cells of one width side by side. -/
structure Slot where
  width : Nat
  cells : List Datum

def Slot.bytes (s : Slot) : Nat := s.width * s.cells.length

/-- What the instructions so far computed, the slots, and the height of the stack below them all. -/
structure Store where
  values : Nat → Option Datum := fun _ ↦ none
  slots : Nat → Option Slot := fun _ ↦ none
  height : Nat := 0

namespace Store

variable (σ : Store)

def define (k : Nat) (d : Datum) : Store :=
  { σ with values := fun j ↦ if j = k then some d else σ.values j }

def setSlot (k : Nat) (s : Slot) : Store :=
  { σ with slots := fun j ↦ if j = k then some s else σ.slots j }

/-- A new slot at a multiple of `align`; the instruction gives its address. -/
def allocate (k : Nat) (s : Slot) (align : Nat) : Store :=
  { (σ.setSlot k s).define k (.place k 0) with height := Machine.Region.alignUp σ.height align + s.bytes }

/-- The cell of `w` bytes at an offset of a slot: its number and what it holds. -/
def cell? (s : Nat) (o : UInt64) (w : Nat) : Option (Slot × Nat × Datum) :=
  match σ.slots s with
  | none => none
  | some sl =>
    if sl.width = w ∧ o.toNat % w = 0 then (sl.cells[o.toNat / w]?).map fun d ↦ (sl, o.toNat / w, d) else none

def reenter (values : Nat → Option Datum) : Store := { σ with values := values }

end Store

def width? : Ty → Option Nat
  | .int 32 => some 4
  | .pointer _ => some 8
  | _ => none

def sum (t : Ty) : Datum → Datum → Option Datum
  | .word a, .word b => some (.word (signExtend (a + b) t.bits))
  | .place s o, .word b => if t = .i64 then some (.place s (o + b)) else none
  | .word a, .place s o => if t = .i64 then some (.place s (o + a)) else none
  | _, _ => none

/-- What an instruction without effects computes from data of the given types. -/
def computed (i : Instr) (ts : List Ty) (ds : List Datum) : Option Datum :=
  match i.op, ts, ds with
  | .add, [t, t'], [a, b] =>
    if (i.type = .i32 ∨ i.type = .i64) ∧ t = i.type ∧ t' = i.type then sum i.type a b else none
  | .sub, [t, t'], [.word a, .word b] =>
    if (i.type = .i32 ∨ i.type = .i64) ∧ t = i.type ∧ t' = i.type then some (.word (signExtend (a - b) i.type.bits))
    else none
  | .mul, [t, t'], [.word a, .word b] =>
    if (i.type = .i32 ∨ i.type = .i64) ∧ t = i.type ∧ t' = i.type then some (.word (signExtend (a * b) i.type.bits))
    else none
  | .icmp, [t, t'], [.word a, .word b] =>
    if i.type = .i1 ∧ t = .i32 ∧ t' = .i32 ∧ i.pred.isFloat = false then some
      (.word (boolBits (intHolds i.pred 32 a b)))
    else none
  | .select, [c, t, t'], [.word v, a, b] =>
    if i.type.hasValue ∧ c = .i1 ∧ t = i.type ∧ t' = i.type then some (if isTrueBits v then a else b) else none
  | .ptrtoint, [t], [.place s o] => if t.isPointer ∧ i.type = .i64 then some (.place s o) else none
  | .inttoptr, [t], [.place s o] => if t = .i64 ∧ i.type.isPointer then some (.place s o) else none
  | .bitcast, [t], [.place s o] => if t.isPointer ∧ i.type.isPointer then some (.place s o) else none
  | _, _, _ => none

def datum (fn : FuncId) (args : List UInt64) (σ : Store) : Option Value → Option Datum
  | none => none
  | some v =>
    (match v with
      | .instr id _ => if id.fn = fn then σ.values id.index else none
      | .param _ i _ => (args[i]?).map .word
      | .func .. => none
      | .const c _ => c.bits?.map .word).filter (·.fits v.type)

def operandType : Option Value → Ty
  | none => .untyped
  | some v => v.type

/-- Instruction `k` is `i`, and its operands are data `ds` of types `ts`. -/
structure Reads (F : Function) (args : List UInt64) (σ : Store) (k : Nat) (i : Instr) (ts : List Ty) (ds : List Datum) :
    Prop where
  found : F.instrs[k]? = some i
  types : i.operands.map operandType = ts
  data : i.operands.mapM (datum F.id args σ) = some ds

/-- What an instruction other than a terminator does, where `fill` is the function that clears memory. -/
inductive Act (fill : FuncId) (i : Instr) (k : Nat) (σ : Store) : List Ty → List Datum → Store → Prop
  | slot {t : Ty} {w : Nat} : i.op = .alloca → i.type = .pointer t → i.allocated = t → width? t = some w →
      σ.slots k = none → σ.values k = none → Act fill i k σ [] [] (σ.allocate k ⟨w, [.word 0]⟩ w)
  | buffer {t : Ty} {n : Nat} : i.op = .alloca → i.type = .pointer .i8 → i.allocated = .i8 → 0 < n →
      4 * n < 2 ^ 63 → σ.slots k = none → σ.values k = none →
      Act fill i k σ [t] [.word (4 * n).toUInt64] (σ.allocate k ⟨4, List.replicate n (.word 0)⟩ 1)
  | load {t : Ty} {s : Nat} {o : UInt64} {w n : Nat} {sl : Slot} {d : Datum} : i.op = .load → width? i.type = some w →
      σ.cell? s o w = some (sl, n, d) → σ.values k = none → Act fill i k σ [t] [.place s o] (σ.define k d)
  | store {t t' : Ty} {s : Nat} {o : UInt64} {w n : Nat} {sl : Slot} {d d' : Datum} : i.op = .store → i.type = .void →
      width? t = some w → σ.cell? s o w = some (sl, n, d') →
      Act fill i k σ [t, t'] [d, .place s o] (σ.setSlot s ⟨w, sl.cells.set n d⟩)
  | clear {ts : List Ty} {s : Nat} {n : UInt64} {sl : Slot} {x : Datum} : i.op = .call → i.type = .void →
      i.callee = some fill → σ.slots s = some sl → n.toNat = sl.bytes → sl.bytes < 2 ^ 63 →
      Act fill i k σ ts [.place s 0, .word 0, .word n, x]
        (σ.setSlot s ⟨sl.width, List.replicate sl.cells.length (.word 0)⟩)
  | pure {ts : List Ty} {ds : List Datum} {d : Datum} : computed i ts ds = some d → σ.values k = none →
      Act fill i k σ ts ds (σ.define k d)

/-- Where a block leads: to another block, or out of the function. -/
inductive Exit
  | goto (b : Nat)
  | done (d : Datum)

inductive Leaves (fn : FuncId) (i : Instr) : List Datum → Exit → Prop
  | br {b : Nat} : i.op = .br → i.targets[0]? = some (some ⟨fn, b⟩) → Leaves fn i [] (.goto b)
  | condbr {c : UInt64} {b : Nat} : i.op = .condbr →
      i.targets[if isTrueBits c then 0 else 1]? = some (some ⟨fn, b⟩) → Leaves fn i [.word c] (.goto b)
  | ret {d : Datum} : i.op = .ret → Leaves fn i [d] (.done d)

section

variable (F : Function) (fill : FuncId) (args : List UInt64)

/-- Instructions of a block one after the other. -/
inductive Line : List Nat → Store → Store → Prop
  | nil {σ : Store} : Line [] σ σ
  | cons {k : Nat} {ks : List Nat} {σ σ' σ'' : Store} {i : Instr} {ts : List Ty} {ds : List Datum} :
      Reads F args σ k i ts ds → Act fill i k σ ts ds σ' → Line ks σ' σ'' → Line (k :: ks) σ σ''

def Block (ks : List Nat) (σ : Store) (x : Exit) (σ' : Store) : Prop :=
  ∃ line k i ts ds, ks = line ++ [k] ∧ Line F fill args line σ σ' ∧ Reads F args σ' k i ts ds ∧ Leaves F.id i ds x

/-- From block `b` on the function gives `d` after `n` instructions, with a stack of height `h` at its end. -/
inductive Returns (values : Nat → Option Datum) : Nat → Store → Nat → Datum → Nat → Prop
  | done {b : Nat} {B : Ssa.Block} {σ σ' : Store} {d : Datum} : F.blocks[b]? = some B →
      Block F fill args B.instrs (σ.reenter values) (.done d) σ' →
      Returns values b σ B.instrs.length d σ'.height
  | goto {b b' : Nat} {B : Ssa.Block} {σ σ' : Store} {n : Nat} {d : Datum} {h : Nat} : F.blocks[b]? = some B →
      Block F fill args B.instrs (σ.reenter values) (.goto b') σ' → b' ≠ 0 → Returns values b' σ' n d h →
      Returns values b σ (B.instrs.length + n) d h

/-- A whole run: the first block, and then the others with what it computed. -/
def Result (n : Nat) (d : Datum) (h : Nat) : Prop :=
  ∃ B σ b m, F.blocks[0]? = some B ∧ Block F fill args B.instrs {} (.goto b) σ ∧ b ≠ 0 ∧
    Returns F fill args σ.values b σ m d h ∧ n = B.instrs.length + m

end

section

variable {F : Function} {fill : FuncId} {args : List UInt64} {σ σ' : Store}

theorem Line.append {ks ks' : List Nat} {σ'' : Store} (h : Line F fill args ks σ σ')
    (h' : Line F fill args ks' σ' σ'') : Line F fill args (ks ++ ks') σ σ'' := by
  induction h with
  | nil => exact h'
  | cons hr ha _ ih => exact .cons hr ha (ih h')

theorem Act.relabel {i : Instr} {k : Nat} {ts : List Ty} {ds : List Datum} (h : Act fill i k σ ts ds σ') (name : String)
    (home : Option BlockId) (number : Nat) : Act fill { i with name, home, number } k σ ts ds σ' := by
  cases h with
  | slot h1 h2 h3 h4 h5 h6 => exact .slot h1 h2 h3 h4 h5 h6
  | buffer h1 h2 h3 h4 h5 h6 h7 => exact .buffer h1 h2 h3 h4 h5 h6 h7
  | load h1 h2 h3 h4 => exact .load h1 h2 h3 h4
  | store h1 h2 h3 h4 => exact .store h1 h2 h3 h4
  | clear h1 h2 h3 h4 h5 h6 => exact .clear h1 h2 h3 h4 h5 h6
  | pure h1 h2 => exact .pure h1 h2

theorem Act.fresh {i : Instr} {k j : Nat} {ts : List Ty} {ds : List Datum} (h : Act fill i k σ ts ds σ') (hj : j ≠ k)
    (hσ : σ.values j = none ∧ σ.slots j = none) : σ'.values j = none ∧ σ'.slots j = none := by
  have hset : ∀ (s : Nat) (sl sl' : Slot), σ.slots s = some sl → (σ.setSlot s sl').slots j = none := by
    intro s sl sl' hs
    have hne : j ≠ s := by
      rintro rfl
      rw [hσ.2] at hs
      cases hs
    simpa [Store.setSlot, hne] using hσ.2
  have hcell : ∀ (s : Nat) (o : UInt64) (w : Nat) (p : Slot × Nat × Datum), σ.cell? s o w = some p →
      ∃ sl, σ.slots s = some sl := by
    intro s o w p hp
    cases hs : σ.slots s with
    | none => simp [Store.cell?, hs] at hp
    | some sl => exact ⟨sl, rfl⟩
  cases h with
  | slot => simpa [Store.allocate, Store.define, Store.setSlot, hj] using hσ
  | buffer => simpa [Store.allocate, Store.define, Store.setSlot, hj] using hσ
  | load => simpa [Store.define, hj] using hσ
  | store _ _ _ hc =>
    obtain ⟨sl, hs⟩ := hcell _ _ _ _ hc
    exact ⟨hσ.1, hset _ sl _ hs⟩
  | clear _ _ _ hs => exact ⟨hσ.1, hset _ _ _ hs⟩
  | pure => simpa [Store.define, hj] using hσ

theorem Act.height_le {i : Instr} {k : Nat} {ts : List Ty} {ds : List Datum} (h : Act fill i k σ ts ds σ') :
    σ.height ≤ σ'.height := by
  cases h with
  | slot =>
    exact Nat.le_trans (Machine.Region.le_alignUp σ.height _) (Nat.le_add_right _ _)
  | buffer =>
    exact Nat.le_trans (Machine.Region.le_alignUp σ.height _) (Nat.le_add_right _ _)
  | load => exact Nat.le_refl _
  | store => exact Nat.le_refl _
  | clear => exact Nat.le_refl _
  | pure => exact Nat.le_refl _

theorem define_values {k : Nat} (hk : σ.values k = none) (d : Datum) {j : Nat} {x : Datum} (hj : σ.values j = some x) :
    (σ.define k d).values j = some x := by
  have hne : j ≠ k := by
    rintro rfl
    rw [hj] at hk
    cases hk
  simp only [Store.define, hne, if_false, hj]

theorem Act.values {i : Instr} {k : Nat} {ts : List Ty} {ds : List Datum} (h : Act fill i k σ ts ds σ')
    {j : Nat} {x : Datum} (hj : σ.values j = some x) : σ'.values j = some x := by
  cases h with
  | slot _ _ _ _ _ hv => exact define_values hv _ hj
  | buffer _ _ _ _ _ _ hv => exact define_values hv _ hj
  | load _ _ _ hv => exact define_values hv _ hj
  | store => exact hj
  | clear => exact hj
  | pure _ hv => exact define_values hv _ hj

theorem Line.values {ks : List Nat} (h : Line F fill args ks σ σ') {j : Nat} {x : Datum}
    (hj : σ.values j = some x) : σ'.values j = some x := by
  induction h with
  | nil => exact hj
  | cons _ ha _ ih => exact ih (ha.values hj)

theorem Line.height_le {ks : List Nat} (h : Line F fill args ks σ σ') : σ.height ≤ σ'.height := by
  induction h with
  | nil => exact Nat.le_refl _
  | cons _ ha _ ih => exact Nat.le_trans ha.height_le ih

theorem Block.height_le {ks : List Nat} {x : Exit} (h : Block F fill args ks σ x σ') : σ.height ≤ σ'.height := by
  obtain ⟨line, k, i, ts, ds, -, hl, -⟩ := h
  exact hl.height_le

theorem Returns.height_le {values : Nat → Option Datum} {b n h : Nat} {d : Datum}
    (hr : Returns F fill args values b σ n d h) : σ.height ≤ h := by
  induction hr with
  | done _ hb => exact hb.height_le
  | goto _ hb _ _ ih => exact Nat.le_trans hb.height_le ih

theorem Block.values {ks : List Nat} {x : Exit} (h : Block F fill args ks σ x σ') {j : Nat} {d : Datum}
    (hj : σ.values j = some d) : σ'.values j = some d := by
  obtain ⟨line, k, i, ts, ds, -, hl, -⟩ := h
  exact hl.values hj

theorem Returns.block {values : Nat → Option Datum} {b n h : Nat} {d : Datum}
    (hr : Returns F fill args values b σ n d h) : ∃ B, F.blocks[b]? = some B := by
  cases hr with
  | done hb => exact ⟨_, hb⟩
  | goto hb => exact ⟨_, hb⟩

end

end CilSsa.SlotMachine

