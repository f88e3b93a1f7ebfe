import CilSsa.Proofs.BodyLowering
import CilSsa.Proofs.OtherFunctions

namespace CilSsa.Lowering

open CilSsa.Bytecode CilSsa.Metadata
open CilSsa.Ssa (BlockId Const FuncId Function Instr Value)

/-! ### Settling -/

def ReadsSlot (F : Function) (k : Nat) (p : Value) : Prop :=
  ∃ i, F.instrs[k]? = some i ∧ i.op = .load ∧ i.operands = [some p] ∧ i.type = p.type.pointee

theorem ReadsSlot.mono {F F' : Function} {k : Nat} {p : Value} (h : F.Earlier F') (hk : ReadsSlot F k p) :
    ReadsSlot F' k p := by
  obtain ⟨i, hi, hrest⟩ := hk
  exact ⟨i, h k i hi, hrest⟩

def Operand.readBy (v : Operand) (fn : FuncId) (k : Nat) : Operand :=
  ⟨v.type.elem, .instr ⟨fn, k⟩ v.value.type.pointee, false⟩

/-- What becomes of an operand when it is settled: a slot is read by one of the instructions `ks`. -/
inductive SettledAs (fn : FuncId) (F : Function) (ks : List Nat) (v : Operand) : Operand → Prop
  | kept : v.slot = false → SettledAs fn F ks v v
  | read {k : Nat} : v.slot = true → k ∈ ks → ReadsSlot F k v.value → SettledAs fn F ks v (v.readBy fn k)

section

variable {α β : Type} {fn : FuncId} {F F' : Function} {b : Nat} {ks ks' : List Nat} {v w : Operand} {s s' : Stage}
  {u u' : CompilationUnit} {top x : Value}

theorem SettledAs.mono (h : F.Earlier F') (hks : ∀ k ∈ ks, k ∈ ks') (hv : SettledAs fn F ks v w) :
    SettledAs fn F' ks' v w := by
  cases hv with
  | kept hslot => exact .kept hslot
  | read hslot hk hreads => exact .read hslot (hks _ hk) (hreads.mono h)

theorem materialize_settled (he : Emits (materialize v) s u w s' u') (hF : Houses s.fn F u) : s' = s ∧ ∃ F' ks,
    Houses s.fn F' u' ∧ Appends (Spares s.fn top x) s.block F F' ks ∧ SettledAs s.fn F' ks v w := by
  unfold materialize at he
  split at he
  · rename_i hslot
    obtain ⟨p, s₁, u₁, hload, hpure⟩ := Emits.bind_iff.mp he
    obtain ⟨rfl, rfl, rfl⟩ := Emits.pure_iff.mp hpure
    unfold load emit at hload
    obtain ⟨_, _, _, hget, hemit⟩ := Emits.bind_iff.mp hload
    obtain ⟨rfl, rfl, rfl⟩ := Emits.get_iff.mp hget
    obtain ⟨rfl, rfl, hF'⟩ := emitAt_inv hemit hF
    have hfound := append_found (F := F) (b := s₁.block) (.load v.value "")
    exact ⟨rfl, _, _, hF', appends_emitted (.reads hfound rfl), .read hslot (List.mem_singleton_self _) ⟨_,
      hfound, rfl, rfl, rfl⟩⟩
  · rename_i hslot
    obtain ⟨rfl, rfl, rfl⟩ := Emits.pure_iff.mp he
    exact ⟨rfl, F, [], hF, .refl .., .kept (Bool.not_eq_true _ ▸ hslot)⟩

theorem materialize_all (vs : List Operand) {ws : List Operand} (he : Emits (vs.mapM materialize) s u ws s' u')
    (hF : Houses s.fn F u) : s' = s ∧ ∃ F' ks, Houses s.fn F' u' ∧ Appends (Spares s.fn top x) s.block F F' ks ∧
      List.Forall₂ (SettledAs s.fn F' ks) vs ws := by
  induction vs generalizing u F ws with
  | nil =>
    obtain ⟨rfl, rfl, rfl⟩ := Emits.pure_iff.mp he
    exact ⟨rfl, F, [], hF, .refl .., .nil⟩
  | cons v vs ih =>
    rw [List.mapM_cons] at he
    obtain ⟨w, s₁, u₁, hv, he⟩ := Emits.bind_iff.mp he
    obtain ⟨rest, s₂, u₂, hvs, hpure⟩ := Emits.bind_iff.mp he
    obtain ⟨rfl, rfl, rfl⟩ := Emits.pure_iff.mp hpure
    obtain ⟨rfl, F₁, ks, hF₁, happ, hw⟩ := materialize_settled hv hF
    obtain ⟨rfl, F₂, ks', hF₂, happ', hrest⟩ := ih hvs hF₁
    refine ⟨rfl, F₂, ks ++ ks', hF₂, happ.trans Spares.mono happ', .cons ?_ ?_⟩
    · exact hw.mono happ'.earlier fun k hk ↦ List.mem_append_left _ hk
    · exact hrest.imp fun _ _ h ↦ h.mono (.refl _) fun k hk ↦ List.mem_append_right _ hk

theorem settle_settled (he : Emits settle s u ⟨⟩ s' u') (hF : Houses s.fn F u) : ∃ F' ks ws,
    s' = { s with pending := ws } ∧ Houses s.fn F' u' ∧ Appends (Spares s.fn top x) s.block F F' ks ∧
    List.Forall₂ (SettledAs s.fn F' ks) s.pending ws := by
  unfold settle at he
  obtain ⟨_, _, _, hget, he⟩ := Emits.bind_iff.mp he
  obtain ⟨rfl, rfl, rfl⟩ := Emits.get_iff.mp hget
  obtain ⟨ws, s₁, u₁, hread, hmodify⟩ := Emits.bind_iff.mp he
  obtain ⟨rfl, rfl⟩ := Emits.modify_iff.mp hmodify
  obtain ⟨rfl, F', ks, hF', happ, hws⟩ := materialize_all _ hread hF
  refine ⟨F', ks, ws.reverse, rfl, hF', happ, ?_⟩
  rw [← List.forall₂_reverse_iff, List.reverse_reverse]
  exact hws

end

/-! ### What instructions take -/

section

variable {α β : Type} (site : Site)

/-- Lowering that takes the `n` top operands that are pending, as far as there are so many. -/
def Pops (n : Nat) (c : Lower α) : Prop := ∀ s u a s' u', Lowers c site s u a s' u' →
  s'.fn = s.fn ∧ s'.block = s.block ∧ s'.pending = s.pending.drop n

/-- Lowering that changes nothing of the stage but how many constants were made. -/
def Idle (c : Lower α) : Prop := ∀ s u a s' u', Lowers c site s u a s' u' → ∃ k, s' = { s with constants := k }

def Replaces (n : Nat) (c : Lower α) : Prop := ∀ s u a s' u', Lowers c site s u a s' u' →
  s'.fn = s.fn ∧ s'.block = s.block ∧ ∃ new, s'.pending = new ++ s.pending.drop n

variable {site} {m n : Nat}

theorem Pops.bind {c : Lower α} {f : α → Lower β} (hc : Pops site m c) (hf : ∀ a, Pops site n (f a)) :
    Pops site (m + n) (c >>= f) := by
  intro s u b s' u' h
  obtain ⟨a, s₁, u₁, h₁, h₂⟩ := Lowers.bind_iff.mp h
  obtain ⟨hfn, hb, hp⟩ := hc _ _ _ _ _ h₁
  obtain ⟨hfn', hb', hp'⟩ := hf a _ _ _ _ _ h₂
  exact ⟨hfn'.trans hfn, hb'.trans hb, by rw [hp', hp, List.drop_drop]⟩

theorem Pops.replaces {c : Lower α} {f : α → Lower β} (hc : Pops site m c) (hf : ∀ a, Replaces site n (f a)) :
    Replaces site (m + n) (c >>= f) := by
  intro s u b s' u' h
  obtain ⟨a, s₁, u₁, h₁, h₂⟩ := Lowers.bind_iff.mp h
  obtain ⟨hfn, hb, hp⟩ := hc _ _ _ _ _ h₁
  obtain ⟨hfn', hb', new, hp'⟩ := hf a _ _ _ _ _ h₂
  exact ⟨hfn'.trans hfn, hb'.trans hb, new, by rw [hp', hp, List.drop_drop]⟩

theorem Idle.pops {c : Lower α} (h : Idle site c) : Pops site 0 c := by
  intro s u a s' u' he
  obtain ⟨k, rfl⟩ := h s u a s' u' he
  exact ⟨rfl, rfl, rfl⟩

@[grind ←] theorem Idle.bind {c : Lower α} {f : α → Lower β} (hc : Idle site c) (hf : ∀ a, Idle site (f a)) :
    Idle site (c >>= f) := by
  intro s u b s' u' h
  obtain ⟨a, s₁, u₁, h₁, h₂⟩ := Lowers.bind_iff.mp h
  obtain ⟨k, rfl⟩ := hc _ _ _ _ _ h₁
  obtain ⟨k', rfl⟩ := hf a _ _ _ _ _ h₂
  exact ⟨k', rfl⟩

theorem Pops.then {c : Lower α} {f : α → Lower β} (hc : Pops site n c) (hf : ∀ a, Idle site (f a)) :
    Pops site n (c >>= f) :=
  Pops.bind (n := 0) hc fun a ↦ (hf a).pops

theorem Idle.replaces {c : Lower α} {f : α → Lower β} (hc : Idle site c) (hf : ∀ a, Replaces site n (f a)) :
    Replaces site n (c >>= f) := Nat.zero_add n ▸ hc.pops.replaces hf

theorem Replaces.read_bind {f : Site → Lower β} (h : Replaces site n (f site)) : Replaces site n (read >>= f) := h

@[grind ←] theorem Idle.pure (a : α) : Idle site (pure a) := by
  intro s u a' s' u' h
  obtain ⟨-, rfl, rfl⟩ := Lowers.pure_iff.mp h
  exact ⟨_, rfl⟩

@[grind ←] theorem Idle.throw {e : CompileError} : Idle site (throw e : Lower α) :=
  fun _ _ _ _ _ h ↦ absurd h Lowers.throw_iff

@[grind ←] theorem Idle.read_bind {f : Site → Lower β} (h : Idle site (f site)) : Idle site (read >>= f) := h

@[grind ←] theorem Idle.stage : Idle site (getThe Stage) := by
  intro s u a' s' u' h
  obtain ⟨-, rfl, rfl⟩ := Lowers.getThe_iff.mp h
  exact ⟨_, rfl⟩

@[grind ←] theorem Idle.compile (c : Compile α) : Idle site (liftM c : Lower α) := by
  intro s u a s' u' h
  obtain ⟨rfl, -⟩ := Lowers.compile_iff.mp h
  exact ⟨_, rfl⟩

@[grind ←] theorem Idle.lift_bind {c : Emit α} {f : α → Emit β} (hc : Idle site (liftM c : Lower α))
    (hf : ∀ a, Idle site (liftM (f a) : Lower β)) : Idle site (liftM (c >>= f) : Lower β) := Idle.bind hc hf

@[grind ←] theorem Idle.lift_pure (a : α) : Idle site (liftM (Pure.pure a : Emit α) : Lower α) := Idle.pure a

@[grind ←] theorem Idle.mapM {f : α → Lower β} {as : List α} (h : ∀ a ∈ as, Idle site (f a)) :
    Idle site (as.mapM f) := by
  induction as with
  | nil => exact .pure _
  | cons a as ih =>
    rw [List.mapM_cons]
    refine (h a List.mem_cons_self).bind fun b ↦ ?_
    exact (ih fun a ha ↦ h a (List.mem_cons_of_mem _ ha)).bind fun bs ↦ .pure _

@[grind ←] theorem idle_emitAt (b : Nat) (i : Instr) : Idle site (emitAt b i) := by
  intro s u a s' u' h
  obtain ⟨_, _, _, hget, h⟩ := Emits.bind_iff.mp (Lowers.emit_iff.mp h)
  obtain ⟨rfl, rfl, rfl⟩ := Emits.get_iff.mp hget
  obtain ⟨rfl, -⟩ := Emits.lift_iff.mp h
  exact ⟨_, rfl⟩

@[grind ←] theorem idle_emit (i : Instr) : Idle site (emit i) := by
  exact Idle.lift_bind Idle.stage fun s ↦ idle_emitAt s.block i

@[grind ←] theorem idle_constant (c : Const) : Idle site (constant c) := by
  intro s u a s' u' h
  obtain ⟨hs, rfl⟩ := Emits.modifyGet_iff.mp (Lowers.emit_iff.mp h)
  cases hs
  exact ⟨_, rfl⟩

@[grind ←] theorem idle_intConst (t : Ssa.Ty) (n : Int) : Idle site (intConst t n) := idle_constant _

@[grind ←] theorem idle_emitOr (v : Value) (i : Option Instr) : Idle site (emitOr v i) := by
  cases i with
  | none => exact Idle.pure v
  | some i => exact idle_emit i

@[grind ←] theorem idle_slotFor (t : Ssa.Ty) (name : String) : Idle site (slotFor t name) := idle_emitAt _ _

@[grind ←] theorem idle_clearAt (b : Nat) (p : Value) (n : Int) : Idle site (clearAt b p n) := by
  intro s u a s' u' h
  obtain ⟨_, _, _, hget, h⟩ := Emits.bind_iff.mp (Lowers.emit_iff.mp h)
  obtain ⟨rfl, rfl, rfl⟩ := Emits.get_iff.mp hget
  obtain ⟨_, _, _, hset, h⟩ := Emits.bind_iff.mp h
  obtain ⟨rfl, rfl⟩ := Emits.set_iff.mp hset
  obtain ⟨_, _, _, h, hpure⟩ := Emits.bind_iff.mp h
  obtain ⟨rfl, -⟩ := Emits.lift_iff.mp h
  obtain ⟨-, rfl, -⟩ := Emits.pure_iff.mp hpure
  exact ⟨_, rfl⟩

@[grind ←] theorem idle_load (p : Value) : Idle site (load p) := idle_emit _

@[grind ←] theorem idle_store (v p : Value) : Idle site (store v p) := Idle.lift_bind (idle_emit _) fun _ ↦ .pure _

@[grind ←] theorem idle_castTo (op : Ssa.Op) (v : Value) (t : Ssa.Ty) : Idle site (castTo op v t) := idle_emit _

@[grind ←] theorem idle_pointerTo (v : Value) (t : Ssa.Ty) : Idle site (pointerTo v t) := idle_emitOr _ _

@[grind ←] theorem idle_emitCall (f : FuncId) (args : List Value) : Idle site (emitCall f args) :=
  Idle.lift_bind (Idle.compile _) fun _ ↦ idle_emit _

@[grind ←] theorem idle_materialize (v : Operand) : Idle site (materialize v) := by grind [materialize]

@[grind ←] theorem idle_deref (v : Operand) : Idle site (deref v) := by grind [deref]

@[grind ←] theorem idle_advance (p : Value) (n : Int) : Idle site (advance p n) := by grind [advance]

@[grind ←] theorem idle_popBuffer (c : Value) (t : Ssa.Ty) (n : Int) : Idle site (popBuffer c t n) :=
    by grind [popBuffer]

@[grind ←] theorem idle_counterpart (t : Ty) : Idle site (counterpart t) := Idle.read_bind (.compile _)

@[grind ←] theorem idle_operandSize (t : Ty) : Idle site (operandSize t) := by grind [operandSize]

@[grind ←] theorem idle_unsupported (i : Instruction) (reason : String) :
    Idle site (unsupported i reason : Lower α) := by
  grind [unsupported]

@[grind ←] theorem idle_slotNumbered (what : String) (slots : List Operand) (n : Int) :
    Idle site (slotNumbered what slots n) := by grind [slotNumbered]

@[grind ←] theorem idle_convertByOperator (v : Operand) (t : Ty) : Idle site (convertByOperator v t) := by
  refine .read_bind ?_
  split
  · exact Idle.bind (.compile _) fun f ↦ idle_emitCall f _
  · exact .throw

@[grind ←] theorem idle_convertValue (v : Operand) (t : Ty) (dst : Ssa.Ty) : Idle site (convertValue v t dst) := by
  unfold convertValue
  dsimp only
  split
  · exact .pure _
  split
  · exact idle_convertByOperator v t
  · exact idle_convertByOperator v t
  · exact idle_emitOr _ _
  · exact idle_castTo _ _ _
  · exact idle_castTo _ _ _
  · exact idle_castTo _ _ _
  · exact idle_emitOr _ _
  · exact idle_emitOr _ _
  · exact idle_emitOr _ _
  · exact idle_emitOr _ _
  · exact idle_castTo _ _ _
  · exact idle_castTo _ _ _
  · exact Idle.bind (idle_castTo _ _ _) fun _ ↦ idle_castTo _ _ _
  · exact Idle.bind (idle_castTo _ _ _) fun _ ↦ idle_castTo _ _ _
  · exact idle_pointerTo _ _
  · exact idle_castTo _ _ _
  · exact Idle.bind (idle_castTo _ _ _) fun _ ↦ idle_castTo _ _ _
  · exact Idle.bind (idle_castTo _ _ _) fun _ ↦ idle_castTo _ _ _
  · exact .throw

@[grind ←] theorem idle_convertDirectly (v : Operand) (t : Ty) : Idle site (convertDirectly v t) := by
  grind [convertDirectly]

@[grind ←] theorem idle_convertFrom (target t : Ty) (v : Value) (slot : Bool) :
    Idle site (convertFrom target t v slot) := by
  fun_induction convertFrom target t v slot <;> grind

@[grind ←] theorem idle_convert (v : Operand) (t : Ty) : Idle site (convert v t) :=
    idle_convertFrom t v.type v.value v.slot

@[grind ←] theorem idle_address (v : Operand) (elem : Ty) : Idle site (address v elem) := by
  unfold address
  grind

@[grind ←] theorem idle_lowerWithin {part : Part} {c : Lower α} (h : Idle site c) : Idle site (lowerWithin part c) :=
  fun s u a s' u' he ↦ h s u a s' u' (Compiles.adapt_iff.mp he)

@[grind ←] theorem idle_argument (n : Int) : Idle site (argument n) := .read_bind (idle_slotNumbered _ _ n)

@[grind ←] theorem idle_localSlot (n : Int) : Idle site (localSlot n) := .read_bind (idle_slotNumbered _ _ n)

@[grind ←] theorem idle_typeOperand (i : Instruction) : Idle site (typeOperand i) := .read_bind (.compile _)

@[grind ←] theorem idle_fieldOperand (i : Instruction) : Idle site (fieldOperand i) := by
  grind [fieldOperand]

/-- An operand from below the block is one that was there at its entry, or one that it is found to need. -/
theorem takeEntry_inv {hint : Option Ty} {s s' : Stage} {u u' : CompilationUnit} {t : Ty}
    (he : Emits (takeEntry hint) s u t s' u') : u' = u ∧
    ((∃ rest, s.entry = t :: rest ∧ s' = { s with entry := rest }) ∨
      s.entry = [] ∧ s.inferring = true ∧ s' = { s with inferred := t :: s.inferred }) := by
  have hset : ∀ {v : Stage} {r : Ty}, Emits (do set v; return r) s u t s' u' → s' = v ∧ r = t ∧ u' = u := by
    intro v r he
    obtain ⟨_, _, _, hset, he⟩ := Emits.bind_iff.mp he
    obtain ⟨rfl, rfl⟩ := Emits.set_iff.mp hset
    obtain ⟨rfl, rfl, rfl⟩ := Emits.pure_iff.mp he
    exact ⟨rfl, rfl, rfl⟩
  obtain ⟨s₁, _, _, hget, he⟩ := Emits.bind_iff.mp he
  obtain ⟨rfl, rfl, rfl⟩ := Emits.get_iff.mp hget
  dsimp only at he
  split at he
  · rename_i t' rest hentry
    obtain ⟨rfl, rfl, rfl⟩ := hset he
    exact ⟨rfl, .inl ⟨rest, hentry, rfl⟩⟩
  · rename_i hentry
    split at he
    · rename_i hinferring
      split at he
      · obtain ⟨rfl, rfl, rfl⟩ := hset he
        exact ⟨rfl, .inr ⟨hentry, hinferring, rfl⟩⟩
      · exact absurd he Emits.throw_iff
    · exact absurd he Emits.throw_iff

theorem popRaw_cases {hint : Option Ty} {s s' : Stage} {u u' : CompilationUnit} {w : Operand}
    (he : Lowers (popRaw hint) site s u w s' u') :
    (∃ rest, s.pending = w :: rest ∧ s' = { s with pending := rest } ∧ u' = u) ∨
      s.pending = [] ∧ Lowers (do
        let t ← takeEntry hint
        let code ← counterpart t
        let size ← sizeOf code
        return ⟨t, ← popBuffer (← read).top code size, false⟩) site s u w s' u' := by
  obtain ⟨_, _, _, hget, he⟩ := Lowers.bind_iff.mp he
  obtain ⟨rfl, rfl, rfl⟩ := Lowers.getThe_iff.mp hget
  split at he
  · rename_i v rest hp
    obtain ⟨_, _, _, hset, he⟩ := Lowers.bind_iff.mp he
    obtain ⟨rfl, rfl⟩ := Lowers.set_iff.mp hset
    obtain ⟨rfl, rfl, rfl⟩ := Lowers.pure_iff.mp he
    exact .inl ⟨rest, hp, rfl, rfl⟩
  · exact .inr ⟨‹_›, he⟩

/-- The top operand is the last one that was pushed, or one from below the block. -/
theorem popRaw_inv {hint : Option Ty} {s s' : Stage} {u u' : CompilationUnit} {v : Operand}
    (he : Lowers (popRaw hint) site s u v s' u') : (∃ rest, s.pending = v :: rest ∧ s' = { s with pending := rest } ∧
    u' = u) ∨
      s.pending = [] ∧ ∃ s₁ k, Emits (takeEntry hint) s u v.type s₁ u ∧ s' = { s₁ with constants := k } := by
  rcases popRaw_cases he with hpending | ⟨hp, he⟩
  · exact .inl hpending
  · obtain ⟨t, s₂, u₁, htake, hrest⟩ := Lowers.bind_iff.mp he
    have htake := Lowers.emit_iff.mp htake
    obtain ⟨rfl, -⟩ := takeEntry_inv htake
    obtain ⟨code, s₃, u₂, hcode, hrest⟩ := Lowers.bind_iff.mp hrest
    obtain ⟨size, s₄, u₃, hsize, hrest⟩ := Lowers.bind_iff.mp hrest
    obtain ⟨_, s₅, u₄, hread, hrest⟩ := Lowers.bind_iff.mp hrest
    obtain ⟨rfl, rfl, rfl⟩ := Lowers.read_iff.mp hread
    obtain ⟨w, s₆, u₅, hw, hrest⟩ := Lowers.bind_iff.mp hrest
    obtain ⟨rfl, rfl, rfl⟩ := Lowers.pure_iff.mp hrest
    obtain ⟨k₁, rfl⟩ := idle_counterpart t _ _ _ _ _ hcode
    obtain ⟨k₂, rfl⟩ := Idle.compile (sizeOf code) _ _ _ _ _ hsize
    obtain ⟨k₃, rfl⟩ := idle_popBuffer _ _ _ _ _ _ _ _ hw
    exact .inr ⟨hp, s₂, k₃, htake, rfl⟩

theorem pops_popRaw (hint : Option Ty) : Pops site 1 (popRaw hint) := by
  intro s u a s' u' h
  rcases popRaw_inv h with ⟨rest, hp, rfl, -⟩ | ⟨hp, s₁, k, htake, rfl⟩
  · exact ⟨rfl, rfl, by rw [hp]; rfl⟩
  · obtain ⟨-, ⟨rest, -, rfl⟩ | ⟨-, -, rfl⟩⟩ := takeEntry_inv htake <;>
      exact ⟨rfl, rfl, by rw [hp]; rfl⟩

theorem pops_pop (t : Ty) : Pops site 1 (pop t) := (pops_popRaw _).then fun v ↦ idle_convert v t

theorem pops_operands : Pops site 2 operands :=
  Pops.bind (n := 1) (pops_popRaw none) fun rhs ↦ (pops_popRaw none).then fun lhs ↦
    Idle.bind (idle_deref rhs) fun _ ↦ .bind (idle_deref lhs) fun v ↦ .bind (idle_convert v _) fun _ ↦ .pure _

theorem Pops.mapM {f : α → Lower β} (h : ∀ a, Pops site 1 (f a)) (as : List α) : Pops site as.length (as.mapM f) := by
  induction as with
  | nil => exact (Idle.pure _).pops
  | cons a as ih =>
    rw [List.mapM_cons, List.length_cons, Nat.add_comm]
    exact (h a).bind fun b ↦ ih.then fun bs ↦ Idle.pure _

theorem pops_callArguments (m : Method) : Pops site m.params.length (callArguments m) := by
  have h := Pops.then (@Pops.mapM _ _ site (fun p : Param × Nat ↦ do
      let v ← lowerWithin (.argument p.2 m.text) (pop p.1.type)
      return v.value) (fun p ↦ ?_) (m.params.zipIdx).reverse) fun taken ↦ Idle.pure taken.reverse
  · rw [List.length_reverse, List.length_zipIdx] at h
    exact h
  · refine Pops.then (fun s u a s' u' he ↦ ?_) fun v ↦ Idle.pure _
    exact pops_pop _ s u a s' u' (Compiles.adapt_iff.mp he)

theorem pops_fieldPointer (f : Field) (index : Nat) : Pops site 1 (fieldPointer f index) :=
  (pops_popRaw _).then fun v ↦ Idle.bind (idle_address v _) fun _ ↦ .bind (.compile _) fun _ ↦ idle_emit _

theorem replaces_push (v : Operand) : Replaces site 0 (liftM (push v) : Lower PUnit) := by
  intro s u a s' u' h
  obtain ⟨rfl, rfl⟩ := Emits.modify_iff.mp (Lowers.emit_iff.mp h)
  exact ⟨rfl, rfl, [v], rfl⟩

theorem Idle.push {c : Lower α} {f : α → Operand} (h : Idle site c) :
    Replaces site 0 (c >>= fun a ↦ liftM (Lowering.push (f a))) := h.pops.replaces (n := 0) fun _ ↦ replaces_push _

theorem Pops.leaves {c : Lower α} (h : Pops site n c) : Replaces site n c := by
  intro s u a s' u' he
  obtain ⟨hfn, hb, hp⟩ := h s u a s' u' he
  exact ⟨hfn, hb, [], hp⟩

theorem Pops.push {c : Lower α} {f : α → Operand} (h : Pops site n c) :
    Replaces site n (c >>= fun a ↦ liftM (Lowering.push (f a))) := h.replaces (n := 0) fun _ ↦ replaces_push _

theorem replaces_dup : Replaces site 0 (do
    let v ← popRaw none
    push v
    push v) := by
  intro s u a s' u' h
  obtain ⟨v, s₁, u₁, hv, h⟩ := Lowers.bind_iff.mp h
  obtain ⟨_, _, _, hpush, h⟩ := Lowers.bind_iff.mp h
  obtain ⟨rfl, rfl⟩ := Emits.modify_iff.mp (Lowers.emit_iff.mp hpush)
  obtain ⟨rfl, rfl⟩ := Emits.modify_iff.mp (Lowers.emit_iff.mp h)
  obtain ⟨hfn, hb, hp⟩ := pops_popRaw _ _ _ _ _ _ hv
  refine ⟨hfn, hb, ?_⟩
  cases hs : s.pending with
  | nil => exact ⟨[v, v], by simp [hp, hs]⟩
  | cons w rest =>
    have hw : w = v := by
      obtain ⟨_, _, _, hget, hv⟩ := Lowers.bind_iff.mp hv
      obtain ⟨rfl, rfl, rfl⟩ := Lowers.getThe_iff.mp hget
      simp only [hs] at hv
      obtain ⟨_, _, _, -, hv⟩ := Lowers.bind_iff.mp hv
      exact (Lowers.pure_iff.mp hv).1
    exact ⟨[v], by simp [hp, hs, hw]⟩

/-- How many operands an instruction takes that does not end a block and calls nothing. What is duplicated stays. -/
def Action.takes? : Action → Option Nat
  | .nothing | .loadArg _ | .argAddress _ | .loadLocal _ | .localAddress _ | .int32 _ | .int64 _
    | .float32 _ | .float64 _
  | .sizeOf | .dup => some 0
  | .storeArg _ | .storeLocal _ | .pop | .convert _ | .convertUnsigned | .loadThrough _ | .loadObject | .initObject
  | .loadField | .fieldAddress => some 1
  | .storeThrough _ | .storeObject | .storeField | .arith _ | .compare _ => some 2
  | .newObject | .call | .ret | .jump | .jumpIf _ | .jumpCompare _ | .unsupported => none

theorem replaces_arith (i : Instruction) (op : Arith) : Replaces site 2 (arith i op) := by
  have hemit : ∀ (code : Ssa.Op) (p : Operand × Operand), Replaces site 0 (do
      push ⟨p.2.type, ← emit (.binary code p.1.value p.2.value ""), false⟩) := fun code p ↦ (idle_emit _).push
  refine Pops.replaces (n := 0) pops_operands fun p ↦ ?_
  dsimp only
  split
  on_goal 4 => exact (idle_unsupported i _).replaces fun code ↦ hemit code p
  all_goals exact (Idle.pure _).replaces fun code ↦ hemit code p

theorem pops_compare (i : Instruction) (c : Comparison) : Pops site 2 (compare i c) := by
  refine pops_operands.then fun p ↦ ?_
  dsimp only
  split <;> grind

theorem replaces_convertTop (t : Ty) : Replaces site 1 (convertTop t) := by
  refine Pops.replaces (n := 0) (pops_popRaw none) fun v ↦ ?_
  split
  · exact (idle_counterpart t).replaces fun dst ↦ (idle_convertValue v t dst).push
  · exact (idle_convert v t).push

theorem replaces_convertTopUnsigned : Replaces site 1 convertTopUnsigned := by
  refine Pops.replaces (n := 0) (pops_popRaw none) fun v ↦ (idle_deref v).replaces fun w ↦ ?_
  split
  · exact (idle_castTo _ _ _).push
  · exact (idle_convert _ _).push

theorem replaces_loadObject (t : Ty) : Replaces site 1 (loadObject t) :=
  Pops.replaces (n := 0) (pops_popRaw _) fun v ↦ (idle_address v t).replaces fun p ↦ (idle_load p).push

/-- An instruction that neither settles the pending operands nor ends a block leaves those alone that it does not take.
-/
theorem replaces_lower {start : Nat} {i : Instruction} (hn : (action i).takes? = some n)
    (h : (action i).settles = false) : Replaces site n (lower start i) := by
  unfold lower
  split <;> (rename_i hi; rw [hi] at hn h)
  all_goals first | (cases h; done) | (cases hn; done) | cases hn
  · exact (Idle.pure _).pops.leaves
  · exact (idle_argument _).push
  · refine (idle_argument _).replaces fun a ↦ ?_
    split
    · exact replaces_push _
    · exact (idle_unsupported i _).pops.leaves
  · exact (idle_localSlot _).push
  · exact (idle_localSlot _).push
  · exact (idle_intConst _ _).push
  · exact (idle_intConst _ _).push
  · exact (idle_constant _).push
  · exact (idle_constant _).push
  · exact replaces_dup
  · exact ((pops_popRaw none).then fun _ ↦ Idle.pure _).leaves
  · exact replaces_arith i _
  · refine Pops.replaces (n := 0) (pops_compare i _) fun b ↦ (idle_intConst _ _).replaces fun one ↦ ?_
    exact (idle_intConst _ _).replaces fun zero ↦ (idle_emit _).push
  · exact replaces_convertTop _
  · exact replaces_convertTopUnsigned
  · exact replaces_loadObject _
  · exact (idle_typeOperand i).replaces fun t ↦ replaces_loadObject t
  · refine (idle_typeOperand i).replaces fun t ↦ (idle_operandSize t).replaces fun n ↦ ?_
    exact (idle_intConst _ _).push
  · exact (idle_fieldOperand i).replaces fun p ↦ (pops_fieldPointer p.1 p.2).replaces (n := 0) fun q ↦
      (idle_load q).push
  · exact (idle_fieldOperand i).replaces fun p ↦ (pops_fieldPointer p.1 p.2).push

end

/-! ### Instructions that settle -/

/-- The code `F'` goes on from `F`: each block got more instructions at its end. -/
def Outgrows (F F' : Function) : Prop := ∀ b, ∃ ks, Appends (fun _ _ ↦ True) b F F' ks

/-- Of the unit all that is known is that the code of function `fn` goes on from `F`. -/
def Lengthened (fn : FuncId) (F : Function) (u : CompilationUnit) : Prop := ∃ F', Houses fn F' u ∧ Outgrows F F'

/-- What an instruction does that settles the pending operands: all is read by code that spares the slot, before
anything else is done. -/
structure Settles (fn : FuncId) (b : Nat) (top x : Value) (n : Nat) (s : Stage) (F : Function) (s' : Stage)
    (u' : CompilationUnit) : Prop where
  own : s'.fn = fn
  block : s'.block = b
  read : ∃ F₁ ks ws new, Appends (Spares fn top x) b F F₁ ks ∧ List.Forall₂ (SettledAs fn F₁ ks) s.pending ws ∧
    Lengthened fn F₁ u' ∧ s'.pending = new ++ ws.drop n

section

variable {α β : Type} {fn : FuncId} {b n : Nat} {F F' : Function} {site : Site} {u : CompilationUnit} {ks : List Nat}

theorem Outgrows.refl (F : Function) : Outgrows F F := fun b ↦ ⟨[], .refl _ b F⟩

theorem Outgrows.trans {F'' : Function} (h : Outgrows F F') (h' : Outgrows F' F'') : Outgrows F F'' := by
  intro b
  obtain ⟨ks, hks⟩ := h b
  obtain ⟨ks', hks'⟩ := h' b
  exact ⟨ks ++ ks', hks.trans (fun _ _ ↦ trivial) hks'⟩

theorem Outgrows.earlier (h : Outgrows F F') : F.Earlier F' := (h 0).elim fun _ hks ↦ hks.earlier

theorem outgrows_append (F : Function) (c : Nat) (i : Ssa.Instr) : Outgrows F (F.append c i).1 := by
  intro b
  by_cases hc : c = b
  · subst hc
    exact ⟨_, appends_emitted trivial⟩
  · exact ⟨_, appends_elsewhere hc i⟩

theorem Houses.append (h : Houses fn F u) (c : Nat) (i : Ssa.Instr) :
    Houses fn (F.append c i).1 { u with module := (u.module.append ⟨fn, c⟩ i).1 } := by
  rw [append_eq h.found]
  exact ⟨h.numbered.modify h.found (append_id F c i), function?_modify h.found _⟩

instance growable_lengthened : Growable (Lengthened fn F) (fun _ ↦ True) fn where
  fails _ := trivial
  same := by
    rintro u u' ⟨F', hF', hgrew⟩ hs
    exact ⟨F', (stable_houses (F := F')).same hF' hs, hgrew⟩
  sameFailed _ _ := trivial
  append := by
    rintro u c i ⟨F', hF', hgrew⟩
    exact ⟨_, hF'.append c i, hgrew.trans (outgrows_append F' c i)⟩
  memset := by
    rintro u ⟨F', hF', hgrew⟩
    exact ⟨F', ⟨(memset_spec hF'.numbered fn).1, (memset_spec hF'.numbered fn).2.2.2 _ _ hF'.found⟩, hgrew⟩

theorem Leaves.lengthened {c : Compile α} (h : Leaves fn c) : Spec (Lengthened fn F) c (fun _ ↦ Lengthened fn F)
    fun _ ↦ True := by
  rintro u ⟨F', hF', hgrew⟩
  exact ⟨fun a u' hc ↦ ⟨F', (h F' u hF').1 a u' hc, hgrew⟩, fun _ _ _ ↦ trivial⟩

theorem supports_lengthened (h : site.Leaves fn) : Supports (Lengthened fn F) (fun _ ↦ True) site :=
  ⟨fun t ↦ (h.types t).lengthened, fun id m hm ↦ (h.methods m (h.consistent id m hm)).lengthened⟩

variable (fn b) in
/-- Lowering that first settles the pending operands, and then takes `n` of them. -/
def Settling (site : Site) (n : Nat) (c : Lower Unit) : Prop :=
  ∀ top x s u s' u' F, Lowers c site s u ⟨⟩ s' u' → s.fn = fn → s.block = b → Houses fn F u →
  Settles fn b top x n s F s' u'

theorem settling_then {c : Lower Unit} (hsafe : ∀ F, SafeAt (Lengthened fn F) (fun _ ↦ True) fn site c)
    (hc : Replaces site n c) : Settling fn b site n (do
      settle
      c) := by
  intro top x s u s' u' F he hfn hb hF
  subst hfn hb
  obtain ⟨_, s₁, u₁, hsettle, hrest⟩ := Lowers.bind_iff.mp he
  obtain ⟨F₁, ks, ws, rfl, hF₁, happ, hws⟩ := @settle_settled _ _ _ _ _ top x hsettle hF
  obtain ⟨hfn', hb', new, hnew⟩ := hc _ _ _ _ _ hrest
  have hlong := ((hsafe F₁ { s with pending := ws } rfl u₁ ⟨F₁, hF₁, .refl F₁⟩).1 (⟨⟩, s') u' hrest).2
  exact ⟨hfn', hb', F₁, ks, ws, new, happ, hws, hlong, hnew⟩

variable (fn) in
def Asks (site : Site) (c : Lower α) : Prop := ∀ s u a s' u', Lowers c site s u a s' u' →
  s' = s ∧ ∀ F, Houses fn F u → Houses fn F u'

@[grind ←] theorem Asks.bind {c : Lower α} {f : α → Lower β} (hc : Asks fn site c) (hf : ∀ a, Asks fn site (f a)) :
    Asks fn site (c >>= f) := by
  intro s u b s' u' h
  obtain ⟨a, s₁, u₁, h₁, h₂⟩ := Lowers.bind_iff.mp h
  obtain ⟨rfl, hF₁⟩ := hc _ _ _ _ _ h₁
  obtain ⟨rfl, hF₂⟩ := hf a _ _ _ _ _ h₂
  exact ⟨rfl, fun F hF ↦ hF₂ F (hF₁ F hF)⟩

@[grind ←] theorem Asks.pure (a : α) : Asks fn site (pure a) := by
  intro s u a' s' u' h
  obtain ⟨-, rfl, rfl⟩ := Lowers.pure_iff.mp h
  exact ⟨rfl, fun _ hF ↦ hF⟩

@[grind ←] theorem Asks.throw {e : CompileError} : Asks fn site (throw e : Lower α) :=
  fun _ _ _ _ _ h ↦ absurd h Lowers.throw_iff

@[grind ←] theorem Asks.read_bind {f : Site → Lower β} (h : Asks fn site (f site)) : Asks fn site (read >>= f) := h

@[grind ←] theorem Asks.compile {c : Compile α} (h : Leaves fn c) : Asks fn site (liftM c : Lower α) := by
  intro s u a s' u' he
  obtain ⟨rfl, hc⟩ := Lowers.compile_iff.mp he
  exact ⟨rfl, fun F hF ↦ (h F u hF).1 a u' hc⟩

@[grind ←] theorem asks_unsupported (i : Instruction) (reason : String) :
    Asks fn site (unsupported i reason : Lower α) := by
  grind [unsupported]

@[grind ←] theorem asks_slotNumbered (what : String) (slots : List Operand) (k : Int) :
    Asks fn site (slotNumbered what slots k) := by grind [slotNumbered]

@[grind ←] theorem asks_typeOperand (i : Instruction) : Asks fn site (typeOperand i) := by grind [typeOperand]

@[grind ←] theorem asks_counterpart (hsite : site.Leaves fn) (t : Ty) : Asks fn site (counterpart t) := by
  refine .read_bind (.compile fun F ↦ ?_)
  exact (hsite.types t F).bind fun ct ↦ .pure fun _ hu ↦ hu

@[grind ←] theorem asks_fieldOperand (hsite : site.Leaves fn) (i : Instruction) : Asks fn site (fieldOperand i) := by
  grind [fieldOperand]

@[grind ←] theorem asks_methodOperand (i : Instruction) : Asks fn site (methodOperand i) := by
  refine .read_bind (.bind (.compile (leaves_resolve _)) fun id ↦ ?_)
  split
  · exact .pure _
  · exact .throw

theorem methodOperand_found {i : Instruction} {s s' : Stage} {u' : CompilationUnit} {m : Method}
    (h : Lowers (methodOperand i) site s u m s' u') : ∃ id, site.world.method? id = some m := by
  obtain ⟨_, _, _, hread, h⟩ := Lowers.bind_iff.mp h
  obtain ⟨rfl, rfl, rfl⟩ := Lowers.read_iff.mp hread
  obtain ⟨id, _, _, -, h⟩ := Lowers.bind_iff.mp h
  cases hm : site.world.method? id with
  | none =>
    rw [hm] at h
    exact absurd h Lowers.throw_iff
  | some m' =>
    rw [hm] at h
    obtain ⟨rfl, -, -⟩ := Lowers.pure_iff.mp h
    exact ⟨id, hm⟩

theorem Settling.ask {c : Lower α} {f : α → Lower Unit} (hc : Asks fn site c) (hf : ∀ a, Settling fn b site n (f a)) :
    Settling fn b site n (c >>= f) := by
  intro top x s u s' u' F he hfn hb hF
  obtain ⟨a, s₁, u₁, h₁, h₂⟩ := Lowers.bind_iff.mp he
  obtain ⟨rfl, hF₁⟩ := hc _ _ _ _ _ h₁
  exact hf a top x _ _ _ _ F h₂ hfn hb (hF₁ F hF)

theorem settling_unsupported (i : Instruction) (reason : String) : Settling fn b site n (unsupported i reason) := by
  intro top x s u s' u' F h
  cases h

theorem settling_storeSlot (hsite : site.Leaves fn) (slot : Operand) : Settling fn b site 1 (storeSlot slot) := by
  refine settling_then (fun F ↦ ?_) ((pops_pop _).then fun v ↦ idle_store _ _).leaves
  have := supports_lengthened (F := F) hsite
  exact SafeAt.bind (safe_pop _) fun v ↦ .lift (safe_store v.value _)

theorem settling_storeObject (hsite : site.Leaves fn) (t : Ty) : Settling fn b site 2 (storeObject t) := by
  refine settling_then (fun F ↦ ?_) ?_
  · have := supports_lengthened (F := F) hsite
    exact SafeAt.bind (safe_pop t) fun v ↦ .bind (safe_popRaw _) fun w ↦ .bind (safe_address w t) fun p ↦
    .lift (safe_store v.value p)
  · exact (Pops.bind (n := 1) (pops_pop t) fun v ↦ (pops_popRaw _).then fun w ↦
      Idle.bind (idle_address w t) fun p ↦ idle_store _ p).leaves

theorem settling_clearObject (hsite : site.Leaves fn) (t : Ty) : Settling fn b site 1 (clearObject t) := by
  refine settling_then (fun F ↦ ?_) ?_
  · have := supports_lengthened (F := F) hsite
    exact SafeAt.bind (safe_popRaw _) fun v ↦ .bind (safe_address v t) fun p ↦ .bind (safe_operandSize t) fun size ↦
      .bind .stage fun s ↦ .lift (safe_clearAt s.block p size)
  · exact ((pops_popRaw _).then fun v ↦ Idle.bind (idle_address v t) fun p ↦ .bind (idle_operandSize t) fun size ↦
      .bind .stage fun s ↦ idle_clearAt _ p size).leaves

/-- Apart from calls, an instruction that settles the pending operands takes its own only after that. -/
theorem settling_lower {start : Nat} {i : Instruction} (hsite : site.Leaves fn) (hn : (action i).takes? = some n)
    (h : (action i).settles = true) : Settling fn b site n (lower start i) := by
  unfold lower
  split <;> (rename_i hi; rw [hi] at hn h)
  all_goals first | (cases h; done) | (cases hn; done) | cases hn
  · refine Settling.ask (.read_bind (asks_slotNumbered _ _ _)) fun a ↦ ?_
    split
    · exact settling_storeSlot hsite a
    · exact settling_unsupported i _
  · exact Settling.ask (.read_bind (asks_slotNumbered _ _ _)) fun a ↦ settling_storeSlot hsite a
  · exact settling_storeObject hsite _
  · exact Settling.ask (asks_typeOperand i) fun t ↦ settling_storeObject hsite t
  · exact Settling.ask (asks_typeOperand i) fun t ↦ settling_clearObject hsite t
  · refine Settling.ask (asks_fieldOperand hsite i) fun p ↦ settling_then (fun F ↦ ?_) ?_
    · have := supports_lengthened (F := F) hsite
      exact SafeAt.bind (safe_pop _) fun v ↦ .bind (safe_fieldPointer _ _) fun q ↦ .lift (safe_store v.value q)
    · exact (Pops.bind (n := 1) (pops_pop _) fun v ↦ (pops_fieldPointer _ _).then fun q ↦ idle_store _ q).leaves

/-- Instruction `i` takes `n` operands and does not end the block. -/
inductive Takes (site : Site) (s : Stage) (u : CompilationUnit) (i : Instruction) : Nat → Prop
  | fixed {n : Nat} : (action i).takes? = some n → Takes site s u i n
  | called {m : Method} {s' : Stage} {u' : CompilationUnit} : action i = .call →
      Lowers (methodOperand i) site s u m s' u' → Takes site s u i (m.params.length + if m.isInstance then 1 else 0)
  | made {m : Method} {s' : Stage} {u' : CompilationUnit} : action i = .newObject →
      Lowers (methodOperand i) site s u m s' u' → Takes site s u i m.params.length

/-- The method that an instruction names is looked up first, which leaves the function alone. -/
theorem methodOperand_first {i : Instruction} {s s₁ s' : Stage} {u₁ u' : CompilationUnit} {m : Method}
    {f : Method → Lower Unit} (hsite : site.Leaves fn) (hm : Lowers (methodOperand i) site s u m s₁ u₁)
    (he : Lowers (methodOperand i >>= f) site s u ⟨⟩ s' u') :
    Found site.world m ∧ s₁ = s ∧ (∀ F, Houses fn F u → Houses fn F u₁) ∧ Lowers (f m) site s₁ u₁ ⟨⟩ s' u' := by
  obtain ⟨m', s₂, u₂, hm', hrest⟩ := Lowers.bind_iff.mp he
  cases (hm.symm.trans hm' : (Except.ok (m, s₁), u₁) = _)
  obtain ⟨id, hid⟩ := methodOperand_found hm
  obtain ⟨hs, hF⟩ := (asks_methodOperand i : Asks fn site _) _ _ _ _ _ hm
  exact ⟨hsite.consistent id m hid, hs, hF, hrest⟩

theorem call_settles {i : Instruction} {s s₁ s' : Stage} {u₁ u' : CompilationUnit} {m : Method} {top x : Value}
    (hsite : site.Leaves fn) (hm : Lowers (methodOperand i) site s u m s₁ u₁)
    (he : Lowers (call i) site s u ⟨⟩ s' u') (hfn : s.fn = fn) (hb : s.block = b) (hF : Houses fn F u) :
    Settles fn b top x (m.params.length + if m.isInstance then 1 else 0) s F s' u' := by
  obtain ⟨hfound, rfl, hF₁, hrest⟩ := methodOperand_first hsite hm he
  refine settling_then (fun F ↦ ?_) ?_ top x _ _ _ _ F hrest hfn hb (hF₁ F hF)
  · have := supports_lengthened (F := F) hsite
    refine SafeAt.read_bind (.bind (.compile ((hsite.methods m hfound).lengthened)) fun f ↦ ?_)
    refine SafeAt.bind (safe_callArguments m) fun args ↦ ?_
    grind [safe_lowerWithin]
  · have hcall : ∀ f vs, Replaces site 0 (do
        let r ← emitCall f vs
        if !m.returnType.isVoid then push ⟨m.returnType, r, false⟩) := by
      refine fun f vs ↦ (idle_emitCall f vs).replaces fun r ↦ ?_
      split
      · exact replaces_push _
      · exact (Idle.pure _).pops.leaves
    refine Replaces.read_bind ((Idle.compile (site.compile m)).replaces fun f ↦ ?_)
    refine (pops_callArguments m).replaces fun args ↦ ?_
    split
    · exact Pops.replaces (n := 0) (pops_popRaw _) fun v ↦
        (idle_lowerWithin (idle_address v _)).replaces fun p ↦ hcall f _
    · exact hcall f _

theorem newObject_settles {i : Instruction} {s s₁ s' : Stage} {u₁ u' : CompilationUnit} {m : Method} {top x : Value}
    (hsite : site.Leaves fn) (hm : Lowers (methodOperand i) site s u m s₁ u₁)
    (he : Lowers (newObject i) site s u ⟨⟩ s' u') (hfn : s.fn = fn) (hb : s.block = b) (hF : Houses fn F u) :
    Settles fn b top x m.params.length s F s' u' := by
  obtain ⟨hfound, rfl, hF₁, hrest⟩ := methodOperand_first hsite hm he
  dsimp only at hrest
  split at hrest
  · obtain ⟨_, _, _, hthrow, -⟩ := Lowers.bind_iff.mp hrest
    exact absurd hthrow Lowers.throw_iff
  refine settling_then (fun F ↦ ?_) ?_ top x _ _ _ _ F hrest hfn hb (hF₁ F hF)
  · have := supports_lengthened (F := F) hsite
    refine SafeAt.read_bind (.bind (.compile ((hsite.methods m hfound).lengthened)) fun f ↦ ?_)
    refine SafeAt.bind (safe_counterpart _) fun code ↦ .bind (.compile (spec_sizeOf code)) fun size ↦ ?_
    refine SafeAt.bind (safe_callArguments m) fun args ↦ ?_
    grind
  · refine Replaces.read_bind ((Idle.compile (site.compile m)).replaces fun f ↦ ?_)
    refine (idle_counterpart _).replaces fun code ↦ (Idle.compile (sizeOf code)).replaces fun size ↦ ?_
    refine (pops_callArguments m).replaces (n := 0) fun args ↦ (idle_slotFor _ _).replaces fun object ↦ ?_
    refine Idle.stage.replaces fun s ↦ (idle_clearAt _ _ _).replaces fun _ ↦ ?_
    exact (idle_emitCall f _).replaces fun _ ↦ replaces_push _

end

end CilSsa.Lowering

