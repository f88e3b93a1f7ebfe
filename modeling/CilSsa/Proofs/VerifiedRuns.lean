import CilSsa.Proofs.PassSteps
import CilSsa.Proofs.StructMembers
import CilSsa.Proofs.OptimizedCalls

namespace CilSsa.Ssa

/-- Types of values that the machine can move: integers of the widths of words and of one bit, floating-point numbers,
addresses, and structs of fewer than 2^31 bytes. -/
inductive Ty.Movable (m : Module) : Ty → Prop
  | int {n : Nat} : n ∈ [1, 8, 16, 32, 64] → Movable m (.int n)
  | float : Movable m .float
  | double : Movable m .double
  | pointer (t : Ty) : Movable m (.pointer t)
  | struct {id : Nat} {name : String} {l : Layout} : Layouts.LaidOut m .host (.struct id name) l → l.size < 2 ^ 31 →
      Movable m (.struct id name)

theorem Ty.Movable.laidOut {m : Module} {t : Ty} (h : t.Movable m) : ∃ l, Layouts.LaidOut m .host t l ∧
    l.size < 2 ^ 31 := by
  cases h with
  | int h =>
    refine ⟨_, ⟨1, rfl⟩, ?_⟩
    rw [Layout.size_scalar]
    simp only [List.mem_cons, List.not_mem_nil, or_false] at h
    omega
  | float | double | pointer => exact ⟨_, ⟨1, rfl⟩, by decide⟩
  | struct hl hsize => exact ⟨_, hl, hsize⟩

end CilSsa.Ssa

namespace CilSsa.Machine

open CilSsa.Ssa CilSsa.Number CilSsa.Text

/-- The faults that code may end in although it verifies. -/
inductive Fault.Admissible (f : Fault) : Prop
  | address : f.code = .badAddress → Admissible f
  | stack : f.code = .stackOverflow → Admissible f
  | undefined : f.code = .undefined → Admissible f
  | length {n : Int} : f.code = .badValue → n < 0 → f.detail = "memset length " ++ toString n → Admissible f

def Stop.Admissible : Stop → Prop
  | .fault f => f.Admissible
  | .meaningless => False

/-- Not more is in use than 2⁴⁷ bytes, and there are not more than 2⁴⁸ in all. -/
structure Region.Moderate (r : Region) : Prop where
  top : r.top ≤ 2 ^ 47
  size : r.data.size ≤ 2 ^ 48

theorem Region.Moderate.write {r : Region} (h : r.Moderate) (o : Nat) (bs : Bytes) : (r.write o bs).Moderate :=
  ⟨(Region.top_write ..).trans_le h.top, (Region.size_write ..).trans_le h.size⟩

theorem Region.Moderate.release {r : Region} (h : r.Moderate) (mark : Nat) : (r.release mark).Moderate :=
  ⟨(Nat.min_le_right _ _).trans h.top, h.size⟩

theorem Region.Moderate.grow {r : Region} (h : r.Moderate) {stop : Nat} (hstop : stop ≤ 2 ^ 47) :
    (r.grow stop).Moderate :=
  ⟨hstop, (r.size_grow stop).trans_le ((r.size_backing_le hstop).trans (max_le h.size le_rfl))⟩

/-- An engine that is in use, remembers layouts rightly, and whose memory is of a size that there can be. -/
structure Engine.Moderate (m : Module) (e : Engine) : Prop where
  usable : e.closed = false
  knows : e.Knows m
  stackSize : e.limits.stackSize ≤ 2 ^ 47
  heapSize : e.limits.heapSize ≤ 2 ^ 47
  stack : e.memory.stack.Moderate
  heap : e.memory.heap.Moderate

/-- On a moderate engine a computation gives something with `Q`, or stops as it may; it leaves a moderate engine. -/
def Proceeds {α : Type} (m : Module) (c : Run α) (Q : α → Prop) : Prop :=
  ∀ e, e.Moderate m → ∃ r d, c.run.run e = (r, d) ∧ d.Moderate m ∧ match r with
    | .ok a => Q a
    | .error s => s.Admissible

section

variable {α β : Type} {m : Module} {trace : List String} {t : Ty} {l : Layout} {a v : UInt64} {n : Nat}

namespace Proceeds

variable {c : Run α} {f : α → Run β} {Q Q' : α → Prop} {S : β → Prop} {x : α}

theorem pure (h : Q x) : Proceeds m (pure x) Q := fun e he ↦ ⟨_, e, rfl, he, h⟩

theorem raise {code : FaultCode} {detail : String} (h : Fault.Admissible ⟨code, detail, trace⟩) :
    Proceeds m (raise trace code detail) Q := fun e he ↦ ⟨_, e, rfl, he, h⟩

theorem bind (hc : Proceeds m c Q) (hf : ∀ a, Q a → Proceeds m (f a) S) : Proceeds m (c >>= f) S := by
  intro e he
  obtain ⟨s | a, d, hrun, hd, hr⟩ := hc e he
  · exact ⟨_, d, run_bind_error hrun, hd, hr⟩
  · rw [run_bind_ok hrun]
    exact hf a hr d hd

theorem imp (hc : Proceeds m c Q) (h : ∀ a, Q a → Q' a) : Proceeds m c Q' := by
  intro e he
  obtain ⟨s | a, d, hrun, hd, hr⟩ := hc e he
  · exact ⟨_, d, hrun, hd, hr⟩
  · exact ⟨_, d, hrun, hd, h a hr⟩

theorem of_get {f : Engine → Run β} (hf : ∀ e, e.Moderate m → ∃ r d, (f e).run.run e = (r, d) ∧
    d.Moderate m ∧ match r with
    | .ok b => S b
    | .error s => s.Admissible) : Proceeds m (get >>= f) S := by
  intro e he
  rw [run_bind_ok (run_get (e := e))]
  exact hf e he

theorem mapM {f : α → Run β} {as : List α} {R : α → β → Prop} (hf : ∀ a ∈ as, Proceeds m (f a) (R a)) :
    Proceeds m (as.mapM f) (List.Forall₂ R as) := by
  induction as with
  | nil => exact .pure .nil
  | cons a as ih =>
    rw [List.mapM_cons]
    refine (hf a List.mem_cons_self).bind fun b hb ↦ ?_
    exact (ih fun a ha ↦ hf a (List.mem_cons_of_mem _ ha)).bind fun bs hbs ↦ .pure (.cons hb hbs)

end Proceeds

/-! ### Memory -/

theorem Engine.Moderate.layouts {e : Engine} (h : e.Moderate m) (t : Ty) :
    Engine.Moderate m { e with layouts := (e.layouts.of m t).2 } :=
  ⟨h.usable, (Layouts.of_exact h.knows).1, h.stackSize, h.heapSize, h.stack, h.heap⟩

theorem Engine.Moderate.write {e : Engine} (h : e.Moderate m) (a : UInt64) (bs : Bytes) :
    Engine.Moderate m { e with memory := e.memory.write a bs } := by
  unfold Memory.write
  split
  · exact ⟨h.usable, h.knows, h.stackSize, h.heapSize, h.stack.write _ _, h.heap⟩
  · split
    · exact ⟨h.usable, h.knows, h.stackSize, h.heapSize, h.stack, h.heap.write _ _⟩
    · exact h

theorem Engine.Moderate.release {e : Engine} (h : e.Moderate m) (mark : Nat) : (e.released mark).Moderate m :=
  ⟨h.usable, h.knows, h.stackSize, h.heapSize, h.stack.release mark, h.heap⟩

theorem proceeds_sizeOf (hl : Layouts.LaidOut m .host t l) : Proceeds m (sizeOf m trace t) (· = l.size) := by
  refine .of_get fun e he ↦ ?_
  have hexact := (Layouts.of_exact (t := t) he.knows).2
  have hd := he.layouts t
  unfold Layouts.sizeOf
  generalize e.layouts.of m t = found at hexact hd ⊢
  rcases found with ⟨x | l', s⟩
  · exact absurd hl (hexact l)
  · exact ⟨_, _, rfl, hd, congrArg Layout.size (hl.unique hexact).symm⟩

theorem Region.room_moderate {r : Region} {align : Nat} {limit : Int} (hr : r.Moderate) (hn : n + align < 2 ^ 62) :
    r.room n align limit ≠ .error .wrapped := by
  have htop := hr.top
  have hlt := Region.alignUp_lt r.top align
  have hle := Region.le_alignUp r.top align
  unfold Region.room
  dsimp only
  have hwrap : wrapInt (Region.alignUp r.top align + n) = Region.alignUp r.top align + n := by
    unfold wrapInt
    exact Int.bmod_eq_of_le (by omega) (by omega)
  rw [hwrap]
  split
  · nofun
  · rw [if_neg (by omega)]
    nofun

theorem proceeds_stackAlloc {count : Nat} (hl : Layouts.LaidOut m .host t l) (hsize : l.size < 2 ^ 31)
    (hcount : count < 2 ^ 31) : Proceeds m (stackAlloc m trace t count) fun _ ↦ True := by
  refine (proceeds_sizeOf hl).bind fun size hs ↦ ?_
  subst hs
  have hbytes : l.size * count ≤ (2 ^ 31 - 1) * (2 ^ 31 - 1) := Nat.mul_le_mul (by omega) (by omega)
  have hmodest : l.align ≤ max l.size 1 := hl.modest
  refine .of_get fun e he ↦ ?_
  rw [he.knows.alignOf hl, ← Int.natCast_mul, wrapInt_of_lt (by omega)]
  have hroom : e.memory.stack.room (l.size * count : Nat) l.align e.limits.stackSize ≠ .error .wrapped :=
    Region.room_moderate he.stack (by omega)
  unfold takeStack
  rw [run_bind_ok run_get]
  generalize hr : e.memory.stack.room (l.size * count : Nat) l.align e.limits.stackSize = r at hroom
  rcases r with ⟨_ | _⟩ | ⟨address, stop⟩
  · exact ⟨_, e, rfl, he, .stack rfl⟩
  · exact absurd rfl hroom
  · obtain ⟨-, hgrows, hlimit⟩ := Region.room_above hr
    have := he.stackSize
    exact ⟨_, _, rfl, ⟨he.usable, he.knows, he.stackSize, he.heapSize, he.stack.grow (by omega), he.heap⟩, trivial⟩

theorem badAccess_admissible {n : Int} :
    Fault.Admissible ⟨.badAddress, "access of " ++ toString n ++ " bytes at 0x" ++ hexDigits a.toNat, trace⟩ :=
    .address rfl

theorem proceeds_readBytes : Proceeds m (readBytes trace a n) fun bs ↦ bs.length = n := by
  refine .of_get fun e he ↦ ?_
  split
  · rename_i bs hbs
    exact ⟨_, e, rfl, he, Memory.length_read? hbs⟩
  · exact ⟨_, e, rfl, he, badAccess_admissible⟩

theorem proceeds_needBytes {n : Int} : Proceeds m (needBytes trace a n) fun _ ↦ True := by
  refine .of_get fun e he ↦ ?_
  split
  · exact ⟨_, e, rfl, he, trivial⟩
  · exact ⟨_, e, rfl, he, badAccess_admissible⟩

theorem proceeds_writeBytes {bs : Bytes} : Proceeds m (writeBytes trace a bs) fun _ ↦ True := by
  refine proceeds_needBytes.bind fun _ _ e he ↦ ?_
  exact ⟨_, _, rfl, he.write a bs, trivial⟩

theorem proceeds_readPattern (hn : n ∈ [1, 2, 4, 8]) : Proceeds m (readPattern trace a n) fun _ ↦ True := by
  refine proceeds_readBytes.bind fun bs hbs ↦ ?_
  simp only [List.mem_cons, List.not_mem_nil, or_false] at hn
  obtain ⟨w, hw⟩ : ∃ w, readWord? bs = some w := readWord?_isSome (by omega)
  rw [hw]
  exact .pure trivial

theorem proceeds_writePattern (hn : n ∈ [1, 2, 4, 8]) : Proceeds m (writePattern trace a n v) fun _ ↦ True := by
  refine proceeds_needBytes.bind fun _ _ ↦ ?_
  obtain ⟨bs, hbs⟩ : ∃ bs, wordBytes? n v = some bs := by
    simp only [List.mem_cons, List.not_mem_nil, or_false] at hn
    rcases hn with rfl | rfl | rfl | rfl <;> exact ⟨_, rfl⟩
  rw [hbs]
  exact proceeds_writeBytes

theorem byteWidth_mem (h : n ∈ [1, 8, 16, 32, 64]) : byteWidth n ∈ [1, 2, 4, 8] := by
  simp only [List.mem_cons, List.not_mem_nil, or_false] at h
  rcases h with rfl | rfl | rfl | rfl | rfl <;> decide

theorem proceeds_load (ht : t.Movable m) : Proceeds m (load m trace a t) fun _ ↦ True := by
  unfold load
  cases ht with
  | int hn => exact (proceeds_readPattern (byteWidth_mem hn)).bind fun _ _ ↦ .pure trivial
  | float => exact proceeds_readPattern (by decide)
  | double | pointer => exact proceeds_readPattern (by decide)
  | struct hl hsize =>
    refine (proceeds_sizeOf hl).bind fun size hs ↦ proceeds_readBytes.bind fun bs hbs ↦ ?_
    refine (proceeds_stackAlloc hl hsize (by decide : 1 < 2 ^ 31)).bind fun copy _ ↦ ?_
    exact proceeds_writeBytes.bind fun _ _ ↦ .pure trivial

theorem proceeds_store (ht : t.Movable m) : Proceeds m (store m trace a t v) fun _ ↦ True := by
  unfold store
  cases ht with
  | int hn => exact proceeds_writePattern (byteWidth_mem hn)
  | float => exact proceeds_writePattern (by decide)
  | double | pointer => exact proceeds_writePattern (by decide)
  | struct hl hsize =>
    exact (proceeds_sizeOf hl).bind fun size hs ↦ proceeds_readBytes.bind fun bs hbs ↦ proceeds_writeBytes

end

end CilSsa.Machine

/-!
Code that verifies does not get stuck. On every way that control takes, a frame has computed all that is defined before
its place, and the rules of verification for each instruction give the machine what it needs there.
-/

namespace CilSsa.Ssa

/-- The types that the code of a function mentions, with those that they point to. -/
inductive Function.Mentions (F : Function) : Ty → Prop
  | returned : Mentions F F.ret
  | result {b k : Nat} {i : Instr} : F.Lists b k i → Mentions F i.type
  | operand {b k : Nat} {i : Instr} {v : Value} : F.Lists b k i → some v ∈ i.operands → Mentions F v.type
  | allocated {b k : Nat} {i : Instr} : F.Lists b k i → i.op = .alloca → Mentions F i.allocated
  | pointee {t : Ty} : Mentions F (.pointer t) → Mentions F t

def Ty.Storable (t : Ty) : Prop := t.hasValue = true ∧ t.kind ≠ 7

def Instr.Counted (i : Instr) : Prop :=
  i.operands = [] ∨ ∃ (n : UInt64) (o : Origin), i.operands = [some (.const (.ofInt .i32 n) o)] ∧
    0 ≤ Number.intOfWord (Number.signExtend n 32)

/-- A body that was built and verifies. Its branches lead to blocks that there are, its integers are as wide as words or
one bit, its structs have less than 2^31 bytes, it loads and stores values only, and constants say how large its slots
are. -/
structure Module.Sound (m : Module) (F : Function) : Prop where
  built : F.Built
  verifies : m.verify F = []
  branches : ∀ {b k : Nat} {i : Instr} {t : BlockId}, F.Lists b k i → some t ∈ i.targets → t.fn = F.id →
    t.index < F.blocks.size
  widths : ∀ {n : Nat}, F.Mentions (.int n) → n ∈ [1, 8, 16, 32, 64]
  structs : ∀ {id : Nat} {name : String}, F.Mentions (.struct id name) →
    ∃ l, Layouts.LaidOut m .host (.struct id name) l ∧ l.size < 2 ^ 31
  loads : ∀ {b k : Nat} {i : Instr}, F.Lists b k i → i.op = .load → i.type.Storable
  stores : ∀ {b k : Nat} {i : Instr}, F.Lists b k i → i.op = .store → i.firstType.Storable
  counts : ∀ {b k : Nat} {i : Instr}, F.Lists b k i → i.op = .alloca → i.Counted

/-- A module in which every body is sound, and where what is called like the fill function is declared like it. -/
structure Module.AllSound (m : Module) : Prop where
  ids : ∀ {f : FuncId} {F : Function}, m.function? f = some F → F.id = f
  bodies : ∀ {f : FuncId} {F : Function}, m.function? f = some F → F.isDeclaration = false → m.Sound F
  fills : ∀ {f : FuncId} {F : Function}, m.function? f = some F → F.name = memsetName → F.signature = memsetSignature

section

variable {m : Module} {F : Function} {t : Ty} {b k : Nat} {i : Instr}

theorem Function.Built.arity (h : F.Built) : F.params.length = F.paramTypes.length := by
  induction h with
  | declared id name ret params => exact List.length_map ..
  | @renamed f names _ ih =>
    show (f.renameParams names).params.length = f.paramTypes.length
    rw [← ih, Function.renameParams, List.length_map, List.length_zipIdx]
  | @block f name _ ih =>
    obtain ⟨-, -, -, -, hsig, hparams⟩ := Lowering.uniqueName_kept f (if name = "" then "bb" else name)
    have hsig : (f.addBlock name).1.signature = f.signature := hsig
    have hparams : (f.addBlock name).1.params = f.params := hparams
    rw [hparams, Function.paramTypes, hsig]
    exact ih
  | @instr f b i _ _ _ _ ih =>
    rw [Lowering.append_params, Function.paramTypes, Lowering.append_signature]
    exact ih

theorem Instr.Built.void (h : i.Built) (hop : i.op = .br ∨ i.op = .condbr) (ht : i.targets ≠ []) :
    i.hasValue = false := by
  obtain ⟨j, hj, heq⟩ := h
  rw [heq] at hop ht ⊢
  cases hj with
  | br | condbr => rfl
  | binary hbin =>
    rcases hop with rfl | rfl <;> cases hbin
  | cast => exact absurd rfl ht
  | _ => rcases hop with hop | hop <;> cases hop

theorem Module.Ruled.condbr_targets (h : m.Ruled F i) (hop : i.op = .condbr) : i.targets.length = 2 := by
  have hfits := h.fits
  rw [checkInstr, hop] at hfits
  simpa using when_eq_nil.mp (List.append_eq_nil_iff.mp hfits).1

theorem Module.Valid.instrs_ne_nil {dom : DomTree} (hv : m.Valid dom F) {B : Block} (hB : F.blocks[b]? = some B) :
    B.instrs ≠ [] := by
  obtain ⟨ks, t, hends⟩ := hv.ends hB
  rw [hends.instrs]
  simp

namespace Module.Sound

theorem movable (h : m.Sound F) (ht : F.Mentions t) (hvalue : t.Storable) : t.Movable m := by
  obtain ⟨hvalue, hkind⟩ := hvalue
  cases t with
  | int n => exact .int (h.widths ht)
  | float => exact .float
  | double => exact .double
  | pointer t => exact .pointer t
  | struct id name =>
    obtain ⟨l, hl, hsize⟩ := h.structs ht
    exact .struct hl hsize
  | untyped | void => cases hvalue
  | func => exact absurd rfl hkind

variable (h : m.Sound F) (hm : m.function? F.id = some F) (hbody : F.isDeclaration = false)

include h hm hbody

theorem valid : m.Valid (DomTree.of m F) F := .of_verify h.built.formed hm hbody h.verifies

theorem dominators : DomTree.Sound m F (DomTree.of m F) := DomTree.of_sound ((h.valid hm hbody).confines hm hbody)

theorem entry_of_dominates {a : Nat} (ha : (DomTree.of m F).dominates (F.blockId a) (F.blockId 0) = true) : a = 0 := by
  have hconfines := (h.valid hm hbody).confines hm hbody
  have hlive := (DomTree.of_sound hconfines).entry
  have hmem := DomTree.onEveryPath_of_dominates hconfines (DomTree.reachable_iff_mem.mp hlive) ha _ .refl
  simpa [Function.blockId] using hmem

end Module.Sound

end

end CilSsa.Ssa

namespace CilSsa.Machine

open CilSsa.Ssa CilSsa.Number CilSsa.Text

/-! ### Instructions -/

def Reads (o : Option Value) (p : UInt64) : Prop := ∀ c r, o = some (.const c r) → p = c.bits?.getD 0

section

variable {m : Module} {trace : List String} {F : Function} {b k : Nat} {i : Instr} {ops : List UInt64}

theorem intOfWord_signExtend_lt (n : UInt64) : intOfWord (signExtend n 32) < 2 ^ 31 := by
  rw [signExtend_eq_patternOfBits (by decide) (by decide), intOfWord_patternOfBits (by decide)]
  have := (lowBits 32 n).toInt_lt
  omega

theorem proceeds_alloca (h : m.Sound F) (hr : m.Ruled F i) (hl : F.Lists b k i) (hop : i.op = .alloca)
    (hops : List.Forall₂ Reads i.operands ops) : Proceeds m (compute m trace i ops) fun _ ↦ True := by
  have ht : i.allocated.Storable := by
    have hfits := hr.fits
    rw [Module.checkInstr, hop] at hfits
    simp only [List.append_eq_nil_iff, Module.when_eq_nil, Bool.or_eq_false_iff, Bool.not_eq_false'] at hfits
    exact ⟨hfits.1.1.1, by simpa using hfits.1.1.2⟩
  obtain ⟨l, hlaid, hsize⟩ := (h.movable (.allocated hl hop) ht).laidOut
  have hcount : ops = [] ∨ ∃ p, ∃ count < 2 ^ 31, ops = [p] ∧ intOfWord p = (count : Nat) := by
    rcases h.counts hl hop with ho | ⟨n, o, ho, hn⟩
    · rw [ho] at hops
      cases hops
      exact .inl rfl
    · rw [ho] at hops
      obtain ⟨p, _, hp, hnil, rfl⟩ := List.forall₂_cons_left_iff.mp hops
      cases hnil
      have hlt := intOfWord_signExtend_lt n
      obtain ⟨count, hcount⟩ := Int.eq_ofNat_of_zero_le hn
      exact .inr ⟨p, count, by omega, rfl, hp _ _ rfl ▸ hcount⟩
  unfold compute
  rw [hop]
  rcases hcount with rfl | ⟨p, count, hlt, rfl, hcount⟩
  · exact proceeds_stackAlloc hlaid hsize (by decide : 1 < 2 ^ 31)
  · dsimp only
    rw [hcount, if_neg (by omega)]
    exact proceeds_stackAlloc hlaid hsize hlt

theorem proceeds_gep (h : m.Sound F) (hr : m.Ruled F i) (hl : F.Lists b k i) (hop : i.op = .gep)
    (hops : List.Forall₂ Reads i.operands ops) : Proceeds m (compute m trace i ops) fun _ ↦ True := by
  have hfits := hr.fits
  rw [Module.checkInstr, hop] at hfits
  obtain ⟨vs, hvs, hlen, hcheck⟩ := operands_of_check hfits hr.typed
  obtain ⟨v, rfl⟩ := List.length_eq_one_iff.mp hlen
  rw [hvs] at hops
  obtain ⟨p, _, -, hnil, rfl⟩ := List.forall₂_cons_left_iff.mp hops
  cases hnil
  simp only [List.map_cons, List.map_nil] at hcheck
  split at hcheck
  swap
  · cases hcheck
  rename_i id name ht
  rw [Module.when_eq_nil, Bool.or_eq_false_iff, decide_eq_false_iff_not, decide_eq_false_iff_not] at hcheck
  obtain ⟨hge, hlt⟩ := hcheck
  have hmentions : F.Mentions (.struct id name) :=
    .pointee (ht ▸ .operand hl (by rw [hvs]; exact List.mem_singleton_self _))
  obtain ⟨l, hlaid, -⟩ := h.structs hmentions
  have hoffset : ∃ o, l.offsets[i.index.toNat]? = some o := by
    cases hfields : m.fields? (.struct id name) with
    | none =>
      simp only [hfields] at hlt
      omega
    | some fields =>
      simp only [hfields] at hlt
      obtain ⟨ls, hls, rfl⟩ := hlaid.members hfields
      have hcount := (Layout.lines_ofMembers ls).count
      rw [← hls.length_eq] at hcount
      exact ⟨_, List.getElem?_eq_getElem (by omega)⟩
  obtain ⟨o, ho⟩ := hoffset
  have hfirst : i.firstType = .pointer (.struct id name) := by rw [Instr.firstType, hvs]; exact ht
  unfold compute
  rw [hop, hfirst]
  refine .of_get fun e he ↦ ?_
  have hfield := Layouts.fieldOffset_eq he.knows hlaid ho
  rw [Int.toNat_of_nonneg (by omega)] at hfield
  have hd := he.layouts (.struct id name)
  unfold Layouts.fieldOffset at hfield ⊢
  generalize e.layouts.of m (.struct id name) = found at hfield hd ⊢
  dsimp only at hfield ⊢
  rw [hfield]
  exact ⟨_, _, rfl, hd, trivial⟩

theorem proceeds_compute (h : m.Sound F) (hr : m.Ruled F i) (hl : F.Lists b k i) (hcall : i.op ≠ .call)
    (hend : i.op.isTerminator = false) (hops : List.Forall₂ Reads i.operands ops) :
    Proceeds m (compute m trace i ops) fun _ ↦ True := by
  have hlen := hops.length_eq
  have hpair : (∃ x y : Value, i.operands = [some x, some y]) → ∃ p q, ops = [p, q] := by
    rintro ⟨x, y, ho⟩
    exact List.length_eq_two.mp (by rw [← hlen, ho]; rfl)
  have hone : (∃ x : Value, i.operands = [some x]) → ∃ p, ops = [p] := by
    rintro ⟨x, ho⟩
    exact List.length_eq_one_iff.mp (by rw [← hlen, ho]; rfl)
  generalize hi : i.op = op at hcall hend
  cases op with
  | alloca => exact proceeds_alloca h hr hl hi hops
  | load =>
    obtain ⟨p, ho, -⟩ := hr.load_operands hi
    obtain ⟨w, rfl⟩ := hone ⟨p, ho⟩
    unfold compute
    rw [hi]
    exact proceeds_load (h.movable (.result hl) (h.loads hl hi))
  | store =>
    obtain ⟨v, p, ho, -⟩ := hr.store_operands hi
    obtain ⟨w, w', rfl⟩ := hpair ⟨v, p, ho⟩
    have hfirst : i.firstType = v.type := by rw [Instr.firstType, ho]
    have hmentions : F.Mentions i.firstType := hfirst ▸ .operand hl (by rw [ho]; exact List.mem_cons_self)
    unfold compute
    rw [hi]
    exact (proceeds_store (h.movable hmentions (h.stores hl hi))).bind fun _ _ ↦ .pure trivial
  | gep => exact proceeds_gep h hr hl hi hops
  | icmp =>
    obtain ⟨x, y, ho, -⟩ := hr.icmp_operands hi
    obtain ⟨p, q, rfl⟩ := hpair ⟨x, y, ho⟩
    unfold compute
    rw [hi]
    exact .pure trivial
  | fcmp =>
    obtain ⟨x, y, ho, -⟩ := hr.fcmp_operands hi
    obtain ⟨p, q, rfl⟩ := hpair ⟨x, y, ho⟩
    unfold compute
    rw [hi]
    exact .pure trivial
  | select =>
    obtain ⟨c, x, y, ho, -⟩ := hr.select_operands hi
    obtain ⟨p, q, r, rfl⟩ := List.length_eq_three.mp (show ops.length = 3 by rw [← hlen, ho]; rfl)
    unfold compute
    rw [hi]
    exact .pure trivial
  | other n =>
    have hfits := hr.fits
    rw [Module.checkInstr, hi] at hfits
    cases hfits
  | call => exact absurd rfl hcall
  | br | condbr | ret => cases hend
  | add | sub | mul | fadd | fsub | fmul =>
    obtain ⟨x, y, ho, -⟩ := hr.binary_operands (by rw [hi]; rfl)
    obtain ⟨p, q, rfl⟩ := hpair ⟨x, y, ho⟩
    unfold compute
    rw [hi]
    exact .pure trivial
  | _ =>
    obtain ⟨x, ho, -⟩ := hr.cast_operands (by rw [hi]; rfl)
    obtain ⟨p, rfl⟩ := hone ⟨x, ho⟩
    unfold compute
    rw [hi]
    exact .pure trivial

end

/-! ### Frames -/

/-- A frame behind the instructions `pre` of block `b`, that has computed all that is defined before its place. -/
structure Frame.Ready (m : Module) (F : Function) (b : Nat) (pre : List Nat) (fr : Frame) : Prop where
  fn : fr.fn = F.id
  block : fr.block = F.blockId b
  place : ∃ B, F.blocks[b]? = some B ∧ B.instrs = pre ++ fr.rest
  more : fr.rest ≠ []
  live : (DomTree.of m F).reachable (F.blockId b) = true
  args : fr.args.length = F.paramTypes.length
  here : ∀ {j : Nat} {x : Instr}, j ∈ pre → F.instr? j = some x → x.hasValue = true →
    (fr.values[(⟨F.id, j⟩ : InstrId)]?).isSome = true
  above : ∀ {a j : Nat} {x : Instr}, F.Lists a j x → a ≠ b →
    (DomTree.of m F).dominates (F.blockId a) (F.blockId b) = true → x.hasValue = true →
    (fr.values[(⟨F.id, j⟩ : InstrId)]?).isSome = true

def Frame.Supplies (fr : Frame) : Option Value → Prop
  | none => False
  | some (.instr id _) => (fr.values[id]?).isSome = true
  | some (.param _ k _) => k < fr.args.length
  | some (.func ..) | some (.const ..) => True

section

variable {m : Module} {trace : List String} {F : Function} {b k : Nat} {i : Instr} {fr : Frame} {o : Option Value}
  {pre rest : List Nat} {v : UInt64}

theorem proceeds_addressOf (f : FuncId) : Proceeds m (addressOf f) fun _ ↦ True := by
  refine .of_get fun e he ↦ ?_
  split
  · exact ⟨_, e, rfl, he, trivial⟩
  · exact ⟨_, _, rfl, ⟨he.usable, he.knows, he.stackSize, he.heapSize, he.stack, he.heap⟩, trivial⟩

theorem proceeds_operand (h : fr.Supplies o) : Proceeds m (operand m trace fr o) (Reads o) := by
  unfold operand
  cases o with
  | none => exact h.elim
  | some w =>
    cases w with
    | instr id t =>
      obtain ⟨p, hp⟩ := Option.isSome_iff_exists.mp h
      simp only [hp]
      exact .pure nofun
    | param f k t =>
      have hp : fr.args[k]? = some fr.args[k] := List.getElem?_eq_getElem h
      simp only [hp]
      exact .pure nofun
    | func f t => exact (proceeds_addressOf f).imp fun _ _ ↦ nofun
    | const c r =>
      refine .pure fun c' r' heq ↦ ?_
      cases heq
      rfl

namespace Frame.Ready

theorem lists (h : fr.Ready m F b pre) (hrest : fr.rest = k :: rest) (hi : F.instr? k = some i) : F.Lists b k i := by
  obtain ⟨B, hB, hlist⟩ := h.place
  exact ⟨⟨B, hB, by simp [hlist, hrest]⟩, hi⟩

theorem mem_of_pair {j : Nat} (hnodup : (pre ++ k :: rest).Nodup) (h : [j, k].Sublist (pre ++ k :: rest)) :
    j ∈ pre := by
  obtain ⟨-, hlt⟩ := (pair_sublist_iff hnodup).mp h
  have hk : k ∉ pre := fun hk ↦ (List.nodup_append.mp hnodup).2.2 k hk k List.mem_cons_self rfl
  rw [List.idxOf_append_of_notMem hk, List.idxOf_cons_self, Nat.add_zero] at hlt
  by_contra hj
  rw [List.idxOf_append_of_notMem hj] at hlt
  omega

theorem supplies (h : fr.Ready m F b pre) (hv : m.Valid (DomTree.of m F) F) (hrest : fr.rest = k :: rest)
    (hi : F.instr? k = some i) (ho : o ∈ i.operands) : fr.Supplies o := by
  have hl := h.lists hrest hi
  obtain ⟨w, rfl, htakes⟩ := hv.takes hl ho
  have hoffers := hv.offers hl ho
  cases w with
  | instr id t =>
    obtain ⟨fn, j⟩ := id
    obtain ⟨rfl, x, hx, rfl⟩ := hoffers
    have hvalue : x.hasValue = true := htakes.value _ _ rfl
    cases hv.sees hl h.live ho with
    | inside hB hsub =>
      obtain ⟨B, hB', hlist⟩ := h.place
      cases hB.symm.trans hB'
      have hnodup := hv.once hB
      rw [hlist, hrest] at hsub hnodup
      exact h.here (mem_of_pair hnodup hsub) hx hvalue
    | above hl' hne hdom =>
      cases hx.symm.trans hl'.found
      exact h.above hl' hne hdom hvalue
  | param f n t =>
    show n < fr.args.length
    rw [h.args]
    exact (List.getElem?_eq_some_iff.mp (hoffers (htakes.own _ _ _ rfl))).1
  | func | const => trivial

theorem operands (h : fr.Ready m F b pre) (hv : m.Valid (DomTree.of m F) F) (hrest : fr.rest = k :: rest)
    (hi : F.instr? k = some i) : Proceeds m (i.operands.mapM (operand m trace fr)) (List.Forall₂ Reads i.operands) :=
  .mapM fun _ ho ↦ proceeds_operand (h.supplies hv hrest hi ho)

theorem advance (h : fr.Ready m F b pre) (hv : m.Valid (DomTree.of m F) F) (hrest : fr.rest = k :: rest)
    (hi : F.instr? k = some i) (hend : i.op.isTerminator = false) (v : UInt64) :
    (fr.advance i v).Ready m F b (pre ++ [k]) := by
  obtain ⟨hfn, -, hargs, hblock, -, hrest'⟩ := Frame.advance_same (i := i) (v := v) hrest
  have hfr : fr.block.fn = F.id := congrArg BlockId.fn h.block
  have hold : ∀ {j : Nat}, (fr.values[(⟨F.id, j⟩ : InstrId)]?).isSome = true →
      ((fr.advance i v).values[(⟨F.id, j⟩ : InstrId)]?).isSome = true := by
    intro j hj
    rw [Frame.advance_values hrest]
    split
    · rfl
    · exact hj
  obtain ⟨B, hB, hlist⟩ := h.place
  refine ⟨hfn.trans h.fn, hblock.trans h.block, ?_, ?_, h.live,
    by rw [hargs]; exact h.args, fun {j x} hj hx hvalue ↦ ?_,
    fun hl hne hdom hvalue ↦ hold (h.above hl hne hdom hvalue)⟩
  · exact ⟨B, hB, by rw [hlist, hrest, hrest', List.append_assoc]; rfl⟩
  · rw [hrest']
    rintro rfl
    obtain ⟨ks, t, hends⟩ := hv.ends hB
    rw [hrest] at hlist
    obtain rfl : t = k := by simpa using (List.append_inj' (hends.instrs.symm.trans hlist) rfl).2
    rw [hends.last i hi] at hend
    cases hend
  · rcases List.mem_append.mp hj with hj | hj
    · exact hold (h.here hj hx hvalue)
    · obtain rfl := List.mem_singleton.mp hj
      cases hi.symm.trans hx
      rw [Frame.advance_values hrest, if_pos ⟨hvalue, by rw [hfr]⟩]
      rfl

theorem jump (h : fr.Ready m F b pre) (hd : DomTree.Sound m F (DomTree.of m F)) (hv : m.Valid (DomTree.of m F) F)
    (hrest : fr.rest = [k]) (hi : F.instr? k = some i) (hvoid : i.hasValue = false) {c : Nat} {C : Block}
    (hC : F.blocks[c]? = some C) (hedge : some (F.blockId c) ∈ m.successors (F.blockId b)) :
    Frame.Ready m F c [] { fr with block := F.blockId c, rest := C.instrs } := by
  refine ⟨h.fn, rfl, ⟨C, hC, rfl⟩, hv.instrs_ne_nil hC, hd.next h.live hedge, h.args, nofun,
    fun {a j x} hl hne hdom hvalue ↦ ?_⟩
  have hab := hd.pred h.live hedge hdom (by simpa [Function.blockId] using hne)
  by_cases heq : a = b
  · subst heq
    obtain ⟨B, hB, hlist⟩ := h.place
    obtain ⟨B', hB', hj⟩ := hl.listed
    cases hB.symm.trans hB'
    rw [hlist, hrest] at hj
    rcases List.mem_append.mp hj with hj | hj
    · exact h.here hj hl.found hvalue
    · obtain rfl := List.mem_singleton.mp hj
      cases hi.symm.trans hl.found
      rw [hvoid] at hvalue
      cases hvalue
  · exact h.above hl heq hab hvalue

theorem enter (h : m.Sound F) (hm : m.function? F.id = some F) (hbody : F.isDeclaration = false) {args : List UInt64}
    (hargs : args.length = F.paramTypes.length) {B : Block} (hB : F.blocks[0]? = some B) (mark : Nat) :
    Frame.Ready m F 0 [] { fn := F.id, name := F.name, args, block := ⟨F.id, 0⟩, rest := B.instrs, mark } :=
  ⟨rfl, rfl, ⟨B, hB, rfl⟩, (h.valid hm hbody).instrs_ne_nil hB, (h.dominators hm hbody).entry, hargs, nofun,
    fun _ hne hdom _ ↦ absurd (h.entry_of_dominates hm hbody hdom) hne⟩

theorem branch (h : fr.Ready m F b pre) (hF : m.Sound F) (hm : m.function? F.id = some F)
    (hbody : F.isDeclaration = false) (hrest : fr.rest = k :: rest) (hi : F.instr? k = some i)
    (hop : i.op = .br ∨ i.op = .condbr) {t : Option BlockId} (ht : t ∈ i.targets) :
    ∃ c C, t = some (F.blockId c) ∧ F.blocks[c]? = some C ∧
      Frame.Ready m F c [] { fr with block := F.blockId c, rest := C.instrs } := by
  have hv := hF.valid hm hbody
  have hl := h.lists hrest hi
  obtain ⟨⟨fn, c⟩, rfl, hfn⟩ := Option.map_eq_some_iff.mp (hv.targets hl t ht)
  obtain rfl : fn = F.id := hfn
  have hC := Array.getElem?_eq_getElem (hF.branches hl ht rfl)
  obtain ⟨B, hB, hlist⟩ := h.place
  have hend : i.op.isTerminator = true := by rcases hop with hop | hop <;> rw [hop] <;> rfl
  rw [hrest] at hlist
  obtain rfl := FlowMachine.nil_of_terminator hv (by rw [hB, ← hlist]; rfl) hi hend
  obtain ⟨ks, t, hends⟩ := hv.ends hB
  obtain rfl : t = k := by simpa using (List.append_inj' (hends.instrs.symm.trans hlist) rfl).2
  have hedge : some (F.blockId c) ∈ m.successors (F.blockId b) := by
    rw [Module.successors_own hm, hB, Option.bind_some, Module.terminator?_eq hends hi, Option.map_some,
      Option.getD_some, Instr.successors]
    rcases hop with hop | hop <;> rw [hop] <;> exact ht
  have hvoid := (hF.built.made hi).void hop (List.ne_nil_of_mem ht)
  exact ⟨c, _, rfl, hC, h.jump (hF.dominators hm hbody) hv hrest hi hvoid hC hedge⟩

end Frame.Ready

end

/-! ### Steps -/

/-- Frames that wait for a result of type `t` to go on, until the outermost returns one of type `t₀`. -/
inductive Waits (m : Module) (t₀ : Ty) : Ty → List Frame → Prop
  | outside : Waits m t₀ t₀ []
  | caller {F : Function} {b k : Nat} {pre rest : List Nat} {i : Instr} {fr : Frame} {callers : List Frame} :
      m.function? F.id = some F → F.isDeclaration = false → fr.Ready m F b pre → fr.rest = k :: rest →
      F.instr? k = some i →
      i.op = .call → Waits m t₀ F.ret callers → Waits m t₀ i.type (fr :: callers)

/-- The innermost frame is at work, and the others wait for it. -/
inductive Working (m : Module) (t₀ : Ty) : List Frame → Prop
  | frames {F : Function} {b : Nat} {pre : List Nat} {fr : Frame} {callers : List Frame} :
      m.function? F.id = some F → F.isDeclaration = false → fr.Ready m F b pre → Waits m t₀ F.ret callers →
      Working m t₀ (fr :: callers)

def Returned.Suits (m : Module) (t : Ty) (r : Returned) : Prop :=
  r.aggregate ≠ [] → ∃ l, Layouts.LaidOut m .host t l ∧ l.size < 2 ^ 31 ∧ r.aggregate.length = l.size

def Progress.Suits (m : Module) (t₀ : Ty) : Progress → Prop
  | .running frames => Working m t₀ frames
  | .returned r => r.Suits m t₀

section

variable {m : Module} {trace : List String} {F : Function} {b k : Nat} {i : Instr} {fr : Frame}
  {callers frames : List Frame} {pre rest : List Nat} {v : UInt64} {t t₀ : Ty} {r : Returned}

theorem proceeds_receive (hr : r.Suits m t) : Proceeds m (receive m trace t r) fun _ ↦ True := by
  unfold receive
  split
  · exact .pure trivial
  · rename_i hne
    obtain ⟨l, hl, hsize, -⟩ := hr (by simpa using hne)
    refine (proceeds_stackAlloc hl hsize (by decide : 1 < 2 ^ 31)).bind fun copy _ ↦ ?_
    exact proceeds_writeBytes.bind fun _ _ ↦ .pure trivial

theorem proceeds_resume (hm : m.AllSound) (hw : Waits m t₀ t callers) (hr : r.Suits m t) :
    Proceeds m (resume m callers r) (Progress.Suits m t₀) := by
  unfold resume
  cases hw with
  | outside => exact .pure hr
  | @caller F b k pre rest i fr callers hF hbody hfr hrest hi hop hw =>
    have hv := (hm.bodies hF hbody).valid hF hbody
    have hfound : m.instr? ⟨fr.block.fn, k⟩ = some i := by
      rw [hfr.block, Function.blockId, Module.instr?_own hF]
      exact hi
    dsimp only
    rw [hrest, List.head?_cons, Option.bind_some, hfound]
    refine (proceeds_receive hr).bind fun v _ ↦ .pure ?_
    exact .frames hF hbody (hfr.advance hv hrest hi (by rw [hop]; rfl) v) hw

theorem proceeds_leave (hm : m.AllSound) (hF : m.function? F.id = some F) (hbody : F.isDeclaration = false)
    (hfr : fr.Ready m F b pre) (hw : Waits m t₀ F.ret callers) :
    Proceeds m (leave m trace fr callers v) (Progress.Suits m t₀) := by
  have hret : ((m.function? fr.fn).map (·.ret)).getD .untyped = F.ret := by rw [hfr.fn, hF]; rfl
  unfold leave
  rw [hret]
  have hbytes : Proceeds m (returnedBytes m trace F.ret v) fun bs ↦ ∀ p, Returned.Suits m F.ret ⟨p, bs⟩ := by
    unfold returnedBytes
    split
    swap
    · exact .pure fun _ hne ↦ absurd rfl hne
    cases ht : F.ret with
    | struct id name =>
      have hmentions : F.Mentions (.struct id name) := ht ▸ Function.Mentions.returned
      obtain ⟨l, hl, hsize⟩ := (hm.bodies hF hbody).structs hmentions
      refine (proceeds_sizeOf hl).bind fun size hs ↦ proceeds_readBytes.imp fun bs hbs _ _ ↦ ?_
      exact ⟨l, hl, hsize, hbs.trans hs⟩
    | _ => simp_all [Ty.isStruct]
  refine hbytes.bind fun bs hbs ↦ ?_
  refine Proceeds.bind (Q := fun _ ↦ True) (fun e he ↦ ?_) fun _ _ ↦ proceeds_resume hm hw (hbs _)
  exact ⟨_, _, rfl, he.release _, trivial⟩

theorem proceeds_fill {p w n z : UInt64} : Proceeds m (fill trace [p, w, n, z]) fun _ ↦ True := by
  unfold fill
  dsimp only
  split
  · rename_i hneg
    exact Proceeds.bind (Q := fun _ ↦ True) (.raise (.length rfl hneg rfl)) fun _ _ ↦
      proceeds_needBytes.bind fun _ _ ↦ proceeds_writeBytes
  · exact proceeds_needBytes.bind fun _ _ ↦ proceeds_writeBytes

theorem call_inv (hr : m.Ruled F i) (hop : i.op = .call) : ∃ G, i.callee.bind m.function? = some G ∧
    i.operands.length = G.paramTypes.length ∧ i.type = G.ret := by
  have hfits := hr.fits
  rw [Module.checkInstr, hop] at hfits
  have hfits : m.checkCall i = [] := hfits
  unfold Module.checkCall at hfits
  cases hcallee : i.callee.bind m.function? with
  | none =>
    rw [hcallee] at hfits
    cases hfits
  | some G =>
    rw [hcallee] at hfits
    dsimp only at hfits
    split at hfits
    · cases hfits
    · rename_i hlen
      have htype := (List.append_eq_nil_iff.mp hfits).2
      rw [Module.when_eq_nil, bne_eq_false_iff_eq] at htype
      exact ⟨G, rfl, not_not.mp hlen, htype⟩

theorem proceeds_enter (hm : m.AllSound) (hF : m.function? F.id = some F) {args : List UInt64} {depth : Nat}
    (hargs : F.isDeclaration = false → args.length = F.paramTypes.length) :
    Proceeds m (enter m trace depth F.id args) fun fr ↦
      F.isDeclaration = false ∧ fr.Ready m F 0 [] := by
  unfold enter
  rw [hF]
  refine .of_get fun e he ↦ ?_
  rcases hB : F.blocks[0]? with _ | B <;> dsimp only <;> split
  · exact ⟨_, e, rfl, he, .stack rfl⟩
  · exact ⟨_, e, rfl, he, .undefined rfl⟩
  · exact ⟨_, e, rfl, he, .stack rfl⟩
  · have hbody : F.isDeclaration = false := by
      rw [Function.isDeclaration, Array.isEmpty_eq_false_iff]
      intro hnil
      rw [hnil] at hB
      cases hB
    exact ⟨_, e, rfl, he, hbody, .enter (hm.bodies hF hbody) hF hbody (hargs hbody) hB _⟩

/-- A step of working frames leads to working frames or to a result, or stops as it may. -/
theorem proceeds_step (hm : m.AllSound) (h : Working m t₀ frames) : Proceeds m (step m frames)
    (Progress.Suits m t₀) := by
  cases h with
  | @frames F b pre fr callers hF hbody hfr hw =>
    have hsound := hm.bodies hF hbody
    have hv := hsound.valid hF hbody
    obtain ⟨k, rest, hrest⟩ := List.exists_cons_of_ne_nil hfr.more
    obtain ⟨B, hB, hlist⟩ := hfr.place
    obtain ⟨i, hl⟩ := hv.lists hB (by rw [hlist, hrest]; exact List.mem_append_right _ List.mem_cons_self)
    have hi := hl.found
    have hr := hv.ruled hl
    have hfound : m.instr? ⟨fr.block.fn, k⟩ = some i := by
      rw [hfr.block, Function.blockId, Module.instr?_own hF]
      exact hi
    have hgoto : ∀ t ∈ i.targets, i.op = .br ∨ i.op = .condbr →
        Proceeds m (goto m fr (some t)) fun fr' ↦ ∃ c, fr'.Ready m F c [] := by
      intro t ht hop
      obtain ⟨c, C, rfl, hC, hready⟩ := hfr.branch hsound hF hbody hrest hi hop ht
      unfold goto
      dsimp only
      rw [Module.block?_own hF, hC]
      exact .pure ⟨c, hready⟩
    have hworks : ∀ (v : UInt64), i.op.isTerminator = false → Working m t₀ (fr.advance i v :: callers) :=
      fun v hend ↦ .frames hF hbody (hfr.advance hv hrest hi hend v) hw
    unfold step
    dsimp only
    rw [hrest]
    dsimp only
    rw [hfound]
    refine (hfr.operands hv hrest hi).bind fun ops hops ↦ ?_
    have hlen := hops.length_eq
    have hcompute := fun hcall hend ↦
      show Proceeds m (compute m ((fr :: callers).map (·.name)) i ops) fun _ ↦ True from
        proceeds_compute hsound hr hl hcall hend hops
    generalize hop : i.op = op at hgoto hworks hcompute
    cases op with
    | br =>
      obtain ⟨t, ht⟩ := List.length_eq_one_iff.mp (hr.br_targets hop)
      dsimp only
      rw [ht]
      refine (hgoto t (by rw [ht]; exact List.mem_singleton_self _) (.inl rfl)).bind fun fr' hfr' ↦ .pure ?_
      exact .frames hF hbody hfr'.choose_spec hw
    | condbr =>
      obtain ⟨c, hc⟩ := hr.condbr_operands hop
      obtain ⟨p, rfl⟩ := List.length_eq_one_iff.mp (show ops.length = 1 by rw [← hlen, hc]; rfl)
      have htarget : ∀ j, j < 2 → ∃ t ∈ i.targets, i.targets[j]? = some t := by
        intro j hj
        rw [← hr.condbr_targets hop] at hj
        exact ⟨_, List.getElem_mem hj, List.getElem?_eq_getElem hj⟩
      obtain ⟨t, hmem, ht⟩ := htarget (if isTrueBits p then 0 else 1) (by split <;> decide)
      dsimp only
      rw [ht]
      refine (hgoto t hmem (.inr rfl)).bind fun fr' hfr' ↦ .pure ?_
      exact .frames hF hbody hfr'.choose_spec hw
    | ret => exact proceeds_leave hm hF hbody hfr hw
    | call =>
      obtain ⟨G, hG, hargs, htype⟩ := call_inv hr hop
      have hfoundG : m.function? G.id = some G := by
        obtain ⟨g, -, hg⟩ := Option.bind_eq_some_iff.mp hG
        rw [hm.ids hg]
        exact hg
      dsimp only
      rw [hG]
      dsimp only
      split
      · rename_i hname
        have hparams : G.paramTypes = [.bytePointer, .i8, .i64, .i1] := by
          rw [Function.paramTypes, hm.fills hfoundG hname]
          rfl
        rw [hparams, hlen] at hargs
        obtain ⟨p, w, n, z, rfl⟩ : ∃ p w n z, ops = [p, w, n, z] := by
          rcases ops with _ | ⟨p, _ | ⟨w, _ | ⟨n, _ | ⟨z, _ | ⟨x, ops⟩⟩⟩⟩⟩ <;> cases hargs
          exact ⟨p, w, n, z, rfl⟩
        exact proceeds_fill.bind fun _ _ ↦ .pure (hworks 0 rfl)
      · refine (proceeds_enter hm hfoundG fun _ ↦ hlen.symm.trans hargs).bind fun callee hready ↦ .pure ?_
        exact .frames hfoundG hready.1 hready.2 (htype ▸ .caller hF hbody hfr hrest hi hop hw)
    | _ => exact (hcompute (by simp) rfl).bind fun v _ ↦ .pure (hworks v rfl)

theorem run_suits (hm : m.AllSound) (fuel : Nat) (h : Working m t₀ frames) {e : Engine} (he : e.Moderate m) :
    (run m fuel frames e).2.Moderate m ∧ match (run m fuel frames e).1 with
      | .returned r => r.Suits m t₀
      | .stopped s => s.Admissible
      | .outOfFuel => True := by
  induction fuel generalizing frames e with
  | zero => exact ⟨he, trivial⟩
  | succ fuel ih =>
    obtain ⟨s | pr, d, hrun, hd, hr⟩ := proceeds_step hm h e he <;> rw [run, hrun]
    · exact ⟨hd, hr⟩
    · cases pr with
      | running frames' => exact ih hr hd
      | returned r => exact ⟨hd, hr⟩

/-! ### Calls -/

theorem proceeds_reserveHeap {size align : Nat} (hsize : size + align < 2 ^ 62) :
    Proceeds m (Engine.reserveHeap size align) fun _ ↦ True := by
  refine .of_get fun e he ↦ ?_
  have hroom : e.memory.heap.room size align e.limits.heapSize ≠ .error .wrapped := Region.room_moderate he.heap hsize
  generalize hr : e.memory.heap.room size align e.limits.heapSize = r at hroom
  rcases r with ⟨_ | _⟩ | ⟨address, stop⟩
  · exact ⟨_, e, rfl, he, .address rfl⟩
  · exact absurd rfl hroom
  · obtain ⟨-, hgrows, hlimit⟩ := Region.room_above hr
    have := he.heapSize
    exact ⟨_, _, rfl, ⟨he.usable, he.knows, he.stackSize, he.heapSize, he.stack, he.heap.grow (by omega)⟩, trivial⟩

/-- What may come of a request: a value, a fault that code which verifies may end in, or no end. -/
def Engine.Answered (r : Except EngineError UInt64) : Prop :=
  (∃ v, r = .ok v) ∨ (∃ f : Fault, f.Admissible ∧ r = .error (.fault f)) ∨ r = .error .outOfFuel

theorem request_answered {c : Run UInt64} (hc : Proceeds m c fun _ ↦ True) {e : Engine} (he : e.Moderate m) :
    Engine.Answered (Engine.request c e).1 ∧ (Engine.request c e).2.Moderate m := by
  rw [request_open he.usable]
  obtain ⟨s | v, d, hrun, hd, hr⟩ := hc e he <;> rw [hrun]
  · cases s with
    | fault f => exact ⟨.inr (.inl ⟨f, hr, rfl⟩), hd⟩
    | meaningless => exact hr.elim
  · exact ⟨.inl ⟨v, rfl⟩, hd⟩

theorem keepAggregate_answered (hne : r.aggregate ≠ []) (hr : r.Suits m t) {e : Engine} (he : e.Moderate m) :
    Engine.Answered (Engine.keepAggregate m t r.aggregate e).1 ∧
    (Engine.keepAggregate m t r.aggregate e).2.Moderate m := by
  obtain ⟨l, hl, hsize, hlength⟩ := hr hne
  have hmodest : l.align ≤ max l.size 1 := hl.modest
  have hexact := (Layouts.of_exact (t := t) he.knows).2
  have hd := he.layouts t
  unfold Engine.keepAggregate Layouts.alignOf
  generalize e.layouts.of m t = found at hexact hd ⊢
  rcases found with ⟨x | l', s⟩
  · exact absurd hl (hexact l)
  · obtain rfl := hl.unique hexact
    refine request_answered ?_ hd
    have hsmall : r.aggregate.length + l.align < 2 ^ 62 := by omega
    refine (proceeds_reserveHeap hsmall).bind fun a _ ↦ ?_
    exact proceeds_writeBytes.bind fun _ _ ↦ .pure trivial

/-- A call in a module of sound bodies gives a value, ends in a fault that is no fault of the code, or does not end. -/
theorem calls_answered (hm : m.AllSound) {e : Engine} (he : e.Moderate m) (fuel : Nat) {address : UInt64}
    {args : List UInt64} (hargs : ∀ f, e.functionAt? address = some f → ∃ F, m.function? f = some F ∧
    args.length = F.params.length) : Engine.Answered (Engine.callAddress m fuel address args e).1 ∧
    (Engine.callAddress m fuel address args e).2.Moderate m := by
  have hopen : e.closed = false := he.usable
  unfold Engine.callAddress Engine.ifOpen
  rw [if_neg (by simp [hopen])]
  dsimp only
  cases hf : e.functionAt? address with
  | none => exact ⟨.inr (.inl ⟨_, .address rfl, rfl⟩), he⟩
  | some f =>
    obtain ⟨F, hF, hlen⟩ := hargs f hf
    obtain rfl := hm.ids hF
    dsimp only
    rw [hF]
    dsimp only
    rw [if_neg (not_not.mpr hlen)]
    have hentry : F.isDeclaration = false → args.length = F.paramTypes.length :=
      fun hbody ↦ hlen.trans (hm.bodies hF hbody).built.arity
    have hexec : (Engine.execute m fuel F.id args e).2.Moderate m ∧ match (Engine.execute m fuel F.id args e).1 with
        | .returned r => r.Suits m F.ret
        | .stopped s => s.Admissible
        | .outOfFuel => True := by
      unfold Engine.execute
      have henter : Proceeds m (enter m [] 0 F.id args) fun fr ↦ F.isDeclaration = false ∧ fr.Ready m F 0 [] :=
        proceeds_enter hm hF hentry
      obtain ⟨s | fr, d, hrun, hd, hr⟩ := henter e he <;> rw [hrun]
      · exact ⟨hd, hr⟩
      · exact run_suits hm fuel (.frames hF hr.1 hr.2 .outside) hd
    generalize Engine.execute m fuel F.id args e = found at hexec ⊢
    obtain ⟨out, d⟩ := found
    obtain ⟨hd, hout⟩ := hexec
    have hcleared : Engine.Moderate m { d with memory := d.memory.clearStack } := hd.release 0
    cases out with
    | returned r =>
      unfold Engine.conclude
      dsimp only
      split
      · exact ⟨.inl ⟨_, rfl⟩, hd⟩
      · rename_i hne
        exact keepAggregate_answered (by simpa using hne) hout hd
    | stopped s =>
      cases s with
      | fault f => exact ⟨.inr (.inl ⟨f, hout, rfl⟩), hcleared⟩
      | meaningless => exact hout.elim
    | outOfFuel => exact ⟨.inr (.inr rfl), hcleared⟩

end

open CilSsa.Passes (twice twice_built)
open CilSsa.FlowMachine (twiceModule twiceEngine twiceEngine_idle)

theorem twiceModule_sound : twiceModule.AllSound := by
  have hfound : ∀ {f : FuncId} {F : Function}, twiceModule.function? f = some F → f = ⟨0⟩ ∧ F = twice := by
    rintro ⟨n⟩ F hF
    obtain rfl : n = 0 := by
      have : n < 1 := (Array.getElem?_eq_some_iff.mp hF).1
      omega
    exact ⟨rfl, (Option.some.inj hF).symm⟩
  have htypes : ∀ {t : Ty}, twice.Mentions t → t ∈ [.void, .i32, .pointer .i32] := by
    intro t ht
    induction ht with
    | returned => decide
    | result hl =>
      have hall : ∀ x ∈ twice.instructions, x.2.type ∈ [.void, .i32, .pointer .i32] := by decide
      exact hall _ hl.mem
    | operand hl hv =>
      have hall : ∀ x ∈ twice.instructions, ∀ o ∈ x.2.operands, o.all (·.type ∈ [.void, .i32, .pointer .i32]) = true :=
        by decide
      simpa using hall _ hl.mem _ hv
    | allocated hl hop =>
      have hall : ∀ x ∈ twice.instructions, x.2.op = .alloca → x.2.allocated ∈ [.void, .i32, .pointer .i32] := by decide
      exact hall _ hl.mem hop
    | pointee _ ih =>
      simp only [List.mem_cons, List.not_mem_nil, or_false, Ty.i32, reduceCtorEq, false_or, Ty.pointer.injEq] at ih
      subst ih
      decide
  refine ⟨fun hF ↦ ?_, fun hF _ ↦ ?_, fun hF hname ↦ ?_⟩
  · obtain ⟨rfl, rfl⟩ := hfound hF
    rfl
  · obtain ⟨-, rfl⟩ := hfound hF
    refine ⟨twice_built, List.isEmpty_iff.mp (by decide), fun hl ht _ ↦ ?_, fun ht ↦ ?_, fun ht ↦ ?_, fun hl hop ↦ ?_,
      fun hl hop ↦ ?_, fun hl hop ↦ .inl ?_⟩
    · have hall : ∀ x ∈ twice.instructions, ∀ t ∈ x.2.targets, t.all (·.index < twice.blocks.size) = true := by decide
      simpa using hall _ hl.mem _ ht
    · have := htypes ht
      simp only [List.mem_cons, List.not_mem_nil, or_false, reduceCtorEq, false_or, Ty.i32, Ty.int.injEq] at this
      subst this
      decide
    · have := htypes ht
      simp [Ty.i32] at this
    · have hall : ∀ x ∈ twice.instructions, x.2.op = .load → x.2.type.hasValue = true ∧ x.2.type.kind ≠ 7 := by decide
      exact hall _ hl.mem hop
    · have hall : ∀ x ∈ twice.instructions, x.2.op = .store → x.2.firstType.hasValue = true ∧
          x.2.firstType.kind ≠ 7 := by
        decide
      exact hall _ hl.mem hop
    · have hall : ∀ x ∈ twice.instructions, x.2.op = .alloca → x.2.operands = [] := by decide
      exact hall _ hl.mem hop
  · obtain ⟨-, rfl⟩ := hfound hF
    exact absurd hname (by decide)

/-- A call of that function on a new engine gives a value or a fault. -/
theorem calls_answered_twice : twiceModule.AllSound ∧ twiceEngine.Moderate twiceModule ∧
    Engine.Answered (Engine.callAddress twiceModule 10 (functionAddress 0) [21] twiceEngine).1 := by
  have hmoderate : twiceEngine.Moderate twiceModule :=
    ⟨rfl, ⟨rfl, fun _ _ h ↦ by cases h⟩, by decide, by decide, ⟨by decide, by decide⟩, ⟨by decide, by decide⟩⟩
  refine ⟨twiceModule_sound, hmoderate, (calls_answered twiceModule_sound hmoderate 10 fun f hf ↦ ?_).1⟩
  obtain rfl : f = ⟨0⟩ :=
    (Option.some.inj ((show twiceEngine.functionAt? (functionAddress 0) = some ⟨0⟩ by decide).symm.trans hf)).symm
  exact ⟨twice, rfl, rfl⟩

/-- An engine with a stack up to the greatest integer, all of it in use. -/
def crowdedEngine : Engine :=
  { twiceEngine with
    limits := .ofRequest 0 (2 ^ 63 - 1) 0
    memory :=
      { stack := { base := stackBase, data := zeros (2 ^ 63 - 1), top := 2 ^ 63 - 1, fits := (size_zeros _).ge } } }

theorem stackAlloc_wraps (trace : List String) {e : Engine} (he : e.layouts.Plain)
    (htop : e.memory.stack.top = 2 ^ 63 - 1) (hlimit : e.limits.stackSize = 2 ^ 63 - 1) :
    ∃ d, (stackAlloc twiceModule trace .i32 1).run.run e = (.error .meaningless, d) := by
  have hlayout : scalarLayout? (.i32 : Ty) = some (.scalar 4) := rfl
  obtain ⟨d, hd, hsize⟩ := sizeOf_run twiceModule trace he hlayout
  have halign : (d.layouts.alignOf twiceModule .i32).1.toOption.getD 1 = 4 := by
    simp only [Layouts.alignOf, (hd.layouts.of twiceModule hlayout).1]
    rfl
  have hstop : wrapInt ((Region.alignUp (2 ^ 63 - 1) 4 : Nat) + wrapInt ((Layout.scalar 4).size * 1)) = -(2 ^ 63) + 4 :=
    by decide
  have hroom : d.memory.stack.room (wrapInt ((Layout.scalar 4).size * 1)) 4 d.limits.stackSize = .error .wrapped := by
    rw [Region.room, hd.memory, hd.limits, htop, hlimit, hstop]
    rfl
  refine ⟨d, ?_⟩
  unfold stackAlloc
  rw [run_bind_ok hsize, run_bind_ok run_get, halign]
  unfold takeStack
  rw [run_bind_ok run_get, hroom]
  rfl

/-- An engine that was closed refuses calls, which is no fault; and where the stack ends at the greatest integer, what
is taken of it ends before it begins. -/
theorem calls_unanswered :
    (Engine.callAddress twiceModule 10 (functionAddress 0) [21] { twiceEngine with closed := true }).1 =
    .error .closed ∧
    (Engine.callAddress twiceModule 10 (functionAddress 0) [21] crowdedEngine).1 = .error .meaningless := by
  refine ⟨rfl, ?_⟩
  have hcallee : Engine.callee? twiceModule (functionAddress 0) [21] crowdedEngine = .ok (⟨0⟩, .i32) := by decide
  have hdepth : crowdedEngine.limits.maxDepth = 512 := rfl
  obtain ⟨d, hd⟩ := stackAlloc_wraps ["twice"] (e := crowdedEngine) twiceEngine_idle.layouts rfl rfl
  rw [Engine.callAddress_called hcallee]
  generalize crowdedEngine = e at hd hdepth
  let i : Instr := { Instr.alloca .i32 "slot" with home := some ⟨⟨0⟩, 0⟩ }
  let fr : Frame :=
    { fn := ⟨0⟩, name := "twice", args := [21], block := ⟨⟨0⟩, 0⟩, rest := [0, 1, 2, 3, 4, 5],
      mark := e.memory.stack.top }
  have henter : (enter twiceModule [] 0 ⟨0⟩ [21]).run.run e = (.ok fr, e) := by
    unfold enter
    show (get >>= _ : Run Frame).run.run e = _
    rw [run_bind_ok run_get, hdepth]
    rfl
  have hstep : (step twiceModule [fr]).run.run e = (.error .meaningless, d) := by
    rw [step_perform (i := i) rfl rfl (by decide) rfl]
    exact run_bind_error hd
  unfold Engine.execute
  rw [henter]
  show (Engine.conclude twiceModule .i32 (run twiceModule (9 + 1) [fr] e).1 _).1 = _
  rw [run, hstep]
  rfl

end CilSsa.Machine

