import CilSsa.Proofs.BodyLowering

namespace CilSsa.Lowering

open CilSsa.Metadata CilSsa.SlotMachine
open CilSsa.Number (pattern wordOfInt)
open CilSsa.Ssa (Const FuncId Function Instr Value)

theorem alignUp_le (n align : Nat) : Machine.Region.alignUp n align ≤ n + align := by
  unfold Machine.Region.alignUp
  split
  · exact Nat.le_add_right n align
  · have h := Nat.div_mul_le_self (n + align - 1) align
    omega

/-- The height of a stack with so many slots of `w` bytes on top of it. -/
def stacked (w : Nat) : Nat → Nat → Nat
  | 0, h => h
  | n + 1, h => stacked w n (Machine.Region.alignUp h w + w)

theorem stacked_add (w m n h : Nat) : stacked w (m + n) h = stacked w n (stacked w m h) := by
  induction m generalizing h with
  | zero => rw [Nat.zero_add, stacked]
  | succ m ih => rw [Nat.add_right_comm, stacked, stacked, ih]

theorem stacked_le {w : Nat} (hw : w ≤ 8) (n h : Nat) : stacked w n h ≤ h + 16 * n := by
  induction n generalizing h with
  | zero => exact Nat.le_refl h
  | succ n ih =>
    have hnext := ih (Machine.Region.alignUp h w + w)
    have halign := alignUp_le h w
    rw [stacked]
    omega

/-- The height of a frame with a buffer for so many 32-bit integers, the slot of its top, and so many slots of
variables. -/
def frameHeight (room vars : Nat) : Nat := stacked 4 vars (stacked 8 1 (4 * room))

theorem frameHeight_le (room vars : Nat) : frameHeight room vars ≤ 4 * room + 16 + 16 * vars := by
  have hvars := stacked_le (w := 4) (by decide) vars (stacked 8 1 (4 * room))
  have htop := stacked_le (w := 8) (by decide) 1 (4 * room)
  unfold frameHeight
  omega

/-- A store with the slots `ks` of `w` bytes more. -/
structure Adds (w : Nat) (ks : List Nat) (σ σ' : Store) : Prop where
  values : ∀ j x, σ.values j = some x → σ'.values j = some x
  slots : ∀ j, j ∉ ks → σ'.slots j = σ.slots j
  height : σ'.height = stacked w ks.length σ.height

theorem Adds.append {w : Nat} {ks ks' : List Nat} {σ σ' σ'' : Store} (h : Adds w ks σ σ') (h' : Adds w ks' σ' σ'') :
    Adds w (ks ++ ks') σ σ'' := by
  refine ⟨fun j x hj ↦ h'.values j x (h.values j x hj), ?_, ?_⟩
  · intro j hj
    rw [List.mem_append, not_or] at hj
    exact (h'.slots j hj.2).trans (h.slots j hj.1)
  · rw [List.length_append, stacked_add, h'.height, h.height]

theorem Adds.later {w : Nat} {ks changed : List Nat} {σ σ' σ'' : Store} (h : Adds w ks σ σ') (h' : Later changed σ' σ'')
    (hsub : ∀ k ∈ changed, k ∈ ks) : Adds w ks σ σ'' :=
  ⟨fun j x hj ↦ h'.values j x (h.values j x hj),
    fun j hj ↦ (h'.slots j fun hmem ↦ hj (hsub j hmem)).trans (h.slots j hj), by rw [h'.height]; exact h.height⟩

section

variable {fill fn : FuncId} {u u' : CompilationUnit} {F : Function} {s s' : Stage} {v : Value} {args : List UInt64}
  {σ₀ σ : Store}

theorem adds_allocate {k w : Nat} (hk : σ.values k = none ∧ σ.slots k = none) :
    Adds w [k] σ (σ.allocate k ⟨w, [.word 0]⟩ w) := by
  refine ⟨fun j x hj ↦ define_values hk.1 _ hj, ?_, ?_⟩
  · intro j hj
    have hne : j ≠ k := by simpa using hj
    simp [Store.allocate, Store.define, Store.setSlot, hne]
  · simp only [Store.allocate, Slot.bytes, List.length_singleton, Nat.mul_one, stacked]

theorem slotFor_code {t : Ssa.Ty} {name : String} {w : Nat} (h : Coding fill fn u F)
    (he : Emits (slotFor t name) s u v s' u') (hs : s.fn = fn) (hw : width? t = some w) :
    s' = s ∧ v = .instr ⟨fn, F.instrs.size⟩ (.pointer t) ∧ ∃ F', Growth fill fn 0 u F u' F' ∧
      F.instrs.size < F'.instrs.size ∧
      ∀ {args σ₀ σ}, Runs F fill args 0 σ₀ σ → ∃ σ', Runs F' fill args 0 σ₀ σ' ∧ Adds w [F.instrs.size] σ σ' ∧
        σ'.values F.instrs.size = some (.place F.instrs.size 0) ∧
        σ'.slots F.instrs.size = some ⟨w, [.word 0]⟩ := by
  obtain ⟨rfl, rfl, hg⟩ := emitAt_growth h he hs rfl
  refine ⟨rfl, rfl, _, hg, by simp [append_instrs], ?_⟩
  intro args σ₀ σ hr
  have hfresh := hr.fresh _ (Nat.le_refl _)
  refine ⟨_, hr.append rfl (.slot rfl rfl rfl hw hfresh.2 hfresh.1), adds_allocate hfresh, ?_, ?_⟩ <;>
    simp [Store.allocate, Store.define, Store.setSlot]

/-- Block 0 grew by code that makes a slot for a 32-bit integer `y` with `given args y`. -/
def Binds (fill fn : FuncId) (given : List UInt64 → Int32 → Prop) (u : CompilationUnit) (F : Function)
    (u' : CompilationUnit) (v : Operand) : Prop :=
  v = slotOperand fn F.instrs.size ∧ ∃ F', Growth fill fn 0 u F u' F' ∧ F.instrs.size < F'.instrs.size ∧
    ∀ {args σ₀ σ y}, Runs F fill args 0 σ₀ σ → given args y → ∃ σ', Runs F' fill args 0 σ₀ σ' ∧
      Adds 4 [F.instrs.size] σ σ' ∧ σ'.values F.instrs.size = some (.place F.instrs.size 0) ∧ Keeps σ' F.instrs.size y

theorem bindArgument_code {f : Function} {i : Nat} {v : Operand} (h : Coding fill fn u F)
    (he : Emits (bindArgument f int32 i) s u v s' u') (hs : s.fn = fn) (hf : (f.param i).type = .i32) :
    s' = s ∧ Binds fill fn (fun args y ↦ args[i]? = some (pattern y)) u F u' v := by
  have href : ¬ int32.isByRef = true := by decide
  unfold bindArgument at he
  simp only [href, Bool.false_eq_true, if_false, Emits.bind_iff, Emits.pure_iff] at he
  obtain ⟨slot, _, _, he₁, _, _, _, he₂, rfl, rfl, rfl⟩ := he
  rw [hf] at he₁
  obtain ⟨rfl, rfl, F₁, hg₁, hsize, hrun₁⟩ := slotFor_code h he₁ hs (w := 4) rfl
  obtain ⟨rfl, F₂, hg₂, hrun₂⟩ := storeAt_code hg₁.coding he₂ hs
  refine ⟨rfl, rfl, F₂, hg₁.trans hg₂, Nat.lt_of_lt_of_le hsize hg₂.grows.size, ?_⟩
  intro args σ₀ σ y hr hy
  obtain ⟨σ₁, hr₁, hadds, hplace, hslot⟩ := hrun₁ hr
  have hp : Has fn args σ₁ (f.param i) (.word (pattern y)) := by
    unfold Has datum
    rw [Option.filter_eq_some_iff]
    exact ⟨by simp [Function.param, hy], by rw [hf]; exact pattern_fits y⟩
  obtain ⟨σ₂, hr₂, hl, hkeep⟩ := hrun₂ hr₁ hp (.self hplace rfl) (by rw [hf]; rfl) (cell_single hslot)
  exact ⟨σ₂, hr₂, hadds.later hl (fun _ hk ↦ hk), hl.values _ _ hplace, hkeep⟩

theorem Runs.clears {b k : Nat} {q : Value} {d : Datum} (h : Runs F fill args b σ₀ σ) (hfn : F.id = fn)
    (hq : Has fn args σ q (.place k 0)) (hslot : σ.slots k = some ⟨4, [d]⟩) (n : Nat) :
    ∃ σ', Runs (F.append b (clearing fill q (wordOfInt 4) n)).1 fill args b σ₀ σ' ∧ Later [k] σ σ' ∧ Keeps σ' k 0 := by
  subst hfn
  have hdata : (clearing fill q (wordOfInt 4) n).operands.mapM (datum F.id args σ) =
      some [.place k 0, .word 0, .word 4, .word 0] := by
    have hbyte : Has F.id args σ (.const (.ofInt .i8 0) (.made n)) (.word 0) := rfl
    have hfour : Has F.id args σ (.const (.ofInt .i64 (wordOfInt 4)) (.made (n + 1))) (.word 4) := rfl
    have hbit : Has F.id args σ (.const (.ofInt .i1 0) (.made (n + 2))) (.word 0) := rfl
    unfold Has at hq hbyte hfour hbit
    simp [clearing, Instr.call, hq, hbyte, hfour, hbit]
  refine ⟨_, h.append hdata (.clear rfl rfl rfl hslot rfl (by simp [Slot.bytes])), .setSlot σ List.mem_cons_self _, ?_⟩
  simp only [Keeps, Store.setSlot, if_true]
  rfl

theorem clearAt_code {k : Nat} {x : Unit} (h : Coding fill fn u F)
    (he : Emits (clearAt 0 (.instr ⟨fn, k⟩ (.pointer .i32)) 4) s u x s' u') (hs : s.fn = fn) :
    (∃ n, s' = { s with constants := n }) ∧ ∃ F', Growth fill fn 0 u F u' F' ∧
      ∀ {args σ₀ σ d}, Runs F fill args 0 σ₀ σ → σ.values k = some (.place k 0) → σ.slots k = some ⟨4, [d]⟩ →
        ∃ σ', Runs F' fill args 0 σ₀ σ' ∧ Later [k] σ σ' ∧ Keeps σ' k 0 := by
  obtain ⟨hs', n, hg⟩ := clearAt_growth h he hs rfl
  refine ⟨hs', _, hg, ?_⟩
  intro args σ₀ σ d hr hplace hslot
  have hp : Has fn args σ (.instr ⟨fn, k⟩ (.pointer .i32)) (.place k 0) := .self hplace rfl
  obtain ⟨σ₁, hr₁, hl₁, hq⟩ :=
    hr.define h.id (i := .cast .bitcast (some (.instr ⟨fn, k⟩ (.pointer .i32))) .bytePointer "")
    hp.one (.pure rfl hr.fresh_value) rfl
  obtain ⟨σ₂, hr₂, hl₂, hkeep⟩ :=
    hr₁.clears ((append_id ..).trans h.id) hq ((hl₁.slots k List.not_mem_nil).trans hslot) n
  exact ⟨σ₂, hr₂, (hl₁.widen nofun).trans hl₂, hkeep⟩

theorem bindLocal_code {world : Universe} {i : Nat} {v : Operand} (h : Coding fill fn u F)
    (he : Emits (bindLocal world int32 i) s u v s' u') (hs : s.fn = fn) :
    (∃ n, s' = { s with constants := n }) ∧ Binds fill fn (fun _ y ↦ y = 0) u F u' v := by
  have href : int32.isByRef = false := rfl
  unfold bindLocal at he
  simp only [href, Bool.false_eq_true, if_false, Emits.bind_iff, Emits.pure_iff, Emits.lift_iff, within,
    Compiles.adapt_iff] at he
  obtain ⟨t, _, _, ⟨rfl, he₁⟩, n, _, _, ⟨rfl, he₂⟩, slot, _, _, he₃, _, _, _, he₄, rfl, rfl, rfl⟩ := he
  obtain ⟨rfl, hg₁⟩ := codeType_int32 h 0 he₁
  obtain ⟨rfl, hg₂⟩ := sizeOf_int32 hg₁.coding 0 he₂
  obtain ⟨rfl, rfl, F₃, hg₃, hsize, hrun₃⟩ := slotFor_code hg₂.coding he₃ hs (w := 4) rfl
  obtain ⟨hs', F₄, hg₄, hrun₄⟩ := clearAt_code hg₃.coding he₄ hs
  refine ⟨hs', rfl, F₄, ((hg₁.trans hg₂).trans hg₃).trans hg₄, Nat.lt_of_lt_of_le hsize hg₄.grows.size, ?_⟩
  rintro args σ₀ σ y hr rfl
  obtain ⟨σ₁, hr₁, hadds, hplace, hslot⟩ := hrun₃ hr
  obtain ⟨σ₂, hr₂, hl, hkeep⟩ := hrun₄ hr₁ hplace hslot
  exact ⟨σ₂, hr₂, hadds.later hl (fun _ hk ↦ hk), hl.values _ _ hplace, hkeep⟩

theorem bindAll_code {α : Type} (f : α → Emit Operand) (given : α → List UInt64 → Int32 → Prop) {as : List α}
    {vs : List Operand} (h : Coding fill fn u F) (he : Emits (as.mapM f) s u vs s' u') (hs : s.fn = fn)
    (hf : ∀ a ∈ as, ∀ {s u v s' u' F}, Coding fill fn u F → Emits (f a) s u v s' u' → s.fn = fn →
      (∃ n, s' = { s with constants := n }) ∧ Binds fill fn (given a) u F u' v) :
    (∃ n, s' = { s with constants := n }) ∧ ∃ ks F', vs = ks.map (slotOperand fn) ∧ ks.length = as.length ∧ ks.Nodup ∧
      (∀ k ∈ ks, F.instrs.size ≤ k ∧ k < F'.instrs.size) ∧ Growth fill fn 0 u F u' F' ∧
      ∀ {args σ₀ σ ys}, Runs F fill args 0 σ₀ σ → List.Forall₂ (fun a y ↦ given a args y) as ys →
        ∃ σ', Runs F' fill args 0 σ₀ σ' ∧ Adds 4 ks σ σ' ∧ (∀ k ∈ ks, σ'.values k = some (.place k 0)) ∧
          List.Forall₂ (Keeps σ') ks ys := by
  induction as generalizing s u F vs with
  | nil =>
    rw [List.mapM_nil, Emits.pure_iff] at he
    obtain ⟨rfl, rfl, rfl⟩ := he
    refine ⟨⟨_, rfl⟩, [], F, rfl, rfl, List.nodup_nil, nofun, .refl h 0, ?_⟩
    intro args σ₀ σ ys hr hys
    cases hys
    exact ⟨σ, hr, ⟨fun _ _ h ↦ h, fun _ _ ↦ rfl, rfl⟩, nofun, .nil⟩
  | cons a as ih =>
    simp only [List.mapM_cons, Emits.bind_iff, Emits.pure_iff] at he
    obtain ⟨v, _, _, he₁, vs, _, _, he₂, rfl, rfl, rfl⟩ := he
    obtain ⟨⟨n, rfl⟩, rfl, F₁, hg₁, hsize, hrun₁⟩ := hf a List.mem_cons_self h he₁ hs
    obtain ⟨⟨n', rfl⟩, ks, F₂, rfl, hlen, hnodup, hrange, hg₂, hrun₂⟩ :=
      ih hg₁.coding he₂ hs fun a ha ↦ hf a (List.mem_cons_of_mem _ ha)
    have hmem : F.instrs.size ∉ ks := fun hk ↦ by
      have := (hrange _ hk).1
      omega
    refine ⟨⟨n', rfl⟩, F.instrs.size :: ks, F₂, rfl, by rw [List.length_cons, List.length_cons, hlen],
      List.nodup_cons.mpr ⟨hmem, hnodup⟩, ?_, hg₁.trans hg₂, ?_⟩
    · rintro k (_ | ⟨_, hk⟩)
      · exact ⟨Nat.le_refl _, Nat.lt_of_lt_of_le hsize hg₂.grows.size⟩
      · have := hrange k hk
        exact ⟨by omega, this.2⟩
    · intro args σ₀ σ ys hr hys
      cases hys with
      | cons hy hys =>
        obtain ⟨σ₁, hr₁, hadds₁, hplace, hkeep⟩ := hrun₁ hr hy
        obtain ⟨σ₂, hr₂, hadds₂, hplaces, hkeeps⟩ := hrun₂ hr₁ hys
        refine ⟨σ₂, hr₂, hadds₁.append hadds₂, ?_, .cons ?_ hkeeps⟩
        · rintro k (_ | ⟨_, hk⟩)
          · exact hadds₂.values _ _ hplace
          · exact hplaces k hk
        · rw [Keeps, hadds₂.slots _ hmem]
          exact hkeep

theorem pattern_size {n : Nat} (hn : 4 * n < 2 ^ 31) : pattern (Int32.ofInt (4 * n : Nat)) = (4 * n).toUInt64 := by
  rw [← UInt64.toBitVec_inj, Number.toBitVec_pattern]
  apply BitVec.eq_of_toInt_eq
  rw [BitVec.toInt_signExtend_of_le (by decide)]
  rw [Int32.toBitVec_ofInt, Nat.toUInt64, UInt64.toBitVec_ofNat', BitVec.toInt_ofInt, BitVec.toInt_ofNat',
    Int.bmod_def, Int.bmod_def]
  omega

theorem reserve_code {room : Nat} {o : Ssa.Origin} {name : String} (h : Coding fill fn u F)
    (he : Emits (emitAt 0 (.arrayAlloca .i8 (some (.const (.ofInt .i32 (wordOfInt (4 * room : Nat))) o)) name)) s u v s'
    u') (hs : s.fn = fn) (hpos : 0 < room) (hroom : 4 * room < 2 ^ 31) :
    s' = s ∧ v = .instr ⟨fn, F.instrs.size⟩ (.pointer .i8) ∧ ∃ F', Growth fill fn 0 u F u' F' ∧
      F.instrs.size < F'.instrs.size ∧
      ∀ {args σ₀ σ}, Runs F fill args 0 σ₀ σ → ∃ σ', Runs F' fill args 0 σ₀ σ' ∧
        σ'.values F.instrs.size = some (.place F.instrs.size 0) ∧
        σ'.slots F.instrs.size = some ⟨4, List.replicate room (.word 0)⟩ ∧ σ'.height = σ.height + 4 * room := by
  obtain ⟨rfl, rfl, hg⟩ := emitAt_growth h he hs rfl
  refine ⟨rfl, rfl, _, hg, by simp [append_instrs], ?_⟩
  intro args σ₀ σ hr
  have hfresh := hr.fresh _ (Nat.le_refl _)
  have hsize : Has fn args σ (.const (.ofInt .i32 (wordOfInt (4 * room : Nat))) o)
      (.word (pattern (Int32.ofInt (4 * room : Nat)))) := int32_const _ o
  rw [pattern_size hroom, ← h.id] at hsize
  refine ⟨_, hr.append hsize.one (.buffer rfl rfl rfl hpos (by omega) hfresh.2 hfresh.1), ?_, ?_, ?_⟩
  · simp [Store.allocate, Store.define, Store.setSlot]
  · simp [Store.allocate, Store.define, Store.setSlot]
  · simp [Store.allocate, Slot.bytes, Machine.Region.alignUp]

theorem makeBuffer_code {room : Nat} (h : Coding fill fn u F) (he : Emits (makeBuffer (4 * room : Nat)) s u v s' u')
    (hs : s.fn = fn) (hpos : 0 < room) (hroom : 4 * room < 2 ^ 31) :
    (∃ n, s' = { s with constants := n }) ∧ ∃ F' cursor, v = .instr ⟨fn, cursor⟩ (.pointer .bytePointer) ∧
      F.instrs.size < cursor ∧ cursor < F'.instrs.size ∧ Growth fill fn 0 u F u' F' ∧
      ∀ {args σ₀ σ}, Runs F fill args 0 σ₀ σ → ∃ σ', Runs F' fill args 0 σ₀ σ' ∧
        σ'.values F.instrs.size = some (.place F.instrs.size 0) ∧ σ'.values cursor = some (.place cursor 0) ∧
        σ'.slots F.instrs.size = some ⟨4, List.replicate room (.word 0)⟩ ∧
        σ'.slots cursor = some ⟨8, [.place F.instrs.size 0]⟩ ∧ σ'.height = stacked 8 1 (σ.height + 4 * room) := by
  unfold makeBuffer at he
  simp only [Emits.bind_iff, Emits.pure_iff] at he
  obtain ⟨c, _, _, he₁, buffer, _, _, he₂, top, _, _, he₃, _, _, _, he₄, rfl, rfl, rfl⟩ := he
  obtain ⟨rfl, rfl, rfl⟩ := intConst_stage he₁
  obtain ⟨rfl, rfl, F₂, hg₂, hsize₂, hrun₂⟩ := reserve_code h he₂ hs hpos hroom
  obtain ⟨rfl, rfl, F₃, hg₃, hsize₃, hrun₃⟩ := slotFor_code hg₂.coding he₃ hs (w := 8) rfl
  obtain ⟨rfl, F₄, hg₄, hrun₄⟩ := storeAt_code hg₃.coding he₄ hs
  refine ⟨⟨_, rfl⟩, F₄, _, rfl, hsize₂, Nat.lt_of_lt_of_le hsize₃ hg₄.grows.size, (hg₂.trans hg₃).trans hg₄, ?_⟩
  intro args σ₀ σ hr
  obtain ⟨σ₂, hr₂, hplace₂, hslot₂, hheight₂⟩ := hrun₂ hr
  obtain ⟨σ₃, hr₃, hadds, hplace₃, hslot₃⟩ := hrun₃ hr₂
  have hplace₂' := hadds.values _ _ hplace₂
  obtain ⟨σ₄, hr₄, hl, hslot₄⟩ := hrun₄ hr₃ (.self hplace₂' rfl) (.self hplace₃ rfl) rfl (cell_single hslot₃)
  have hne : F.instrs.size ∉ [F₂.instrs.size] := by
    rw [List.mem_singleton]
    omega
  refine ⟨σ₄, hr₄, hl.values _ _ hplace₂', hl.values _ _ hplace₃, ?_, hslot₄, ?_⟩
  · rw [hl.slots _ hne, hadds.slots _ hne, hslot₂]
  · rw [hl.height, hadds.height, List.length_singleton, hheight₂]

theorem bufferSize_room {n : Int} (hfits : bufferSize n < 2 ^ 31) :
    ∃ room : Nat, 0 < room ∧ 4 * room < 2 ^ 31 ∧ bufferSize n = (4 * room : Nat) := by
  have hsize : bufferSize n = max ((n * 8).bmod (2 ^ 64)) 8 := rfl
  have hdvd : (n * 8).bmod (2 ^ 64) % 4 = 0 := by
    rw [Int.bmod_def]
    omega
  exact ⟨(bufferSize n / 4).toNat, by omega, by omega, by omega⟩

/-- Block 0 makes the slots of a plan for so many arguments and locals. -/
structure Frames (plan : Plan) (fill : FuncId) (F : Function) (n l : Nat) : Prop where
  below : ∀ k ∈ plan.slots, k < F.instrs.size
  run : ∀ xs : List Int32, xs.length = n → ∃ σ, Runs F fill (xs.map pattern) 0 {} σ ∧
    Stored plan σ [] xs (List.replicate l 0) ∧ σ.height = frameHeight plan.room (n + l)

theorem forall₂_arguments (ts : List Ty) (xs : List Int32) (hlen : xs.length = ts.length) :
    List.Forall₂ (fun (a : Ty × Nat) y ↦ (xs.map pattern)[a.2]? = some (pattern y)) ts.zipIdx xs := by
  rw [List.forall₂_iff_get]
  refine ⟨by rw [List.length_zipIdx, hlen], fun i h₁ h₂ ↦ ?_⟩
  simp [List.getElem?_eq_getElem h₂]

theorem forall₂_zeros (ts : List Ty) :
    List.Forall₂ (fun (_ : Ty × Nat) (y : Int32) ↦ y = 0) ts.zipIdx (List.replicate ts.length 0) := by
  rw [List.forall₂_iff_get]
  exact ⟨by simp, fun i _ _ ↦ by simp⟩

section

variable {buffer cursor n₁ n₂ n₃ : Nat} {ks ls : List Nat} (hcursor : buffer < cursor) (hle₁ : cursor < n₁)
  (hle₂ : n₁ ≤ n₂) (hle₃ : n₂ ≤ n₃) (hrange : ∀ k ∈ ks, n₁ ≤ k ∧ k < n₂) (hrange' : ∀ k ∈ ls, n₂ ≤ k ∧ k < n₃)

include hcursor hle₁ hle₂ hrange hrange'

theorem nodup_slots (hks : ks.Nodup) (hls : ls.Nodup) : (buffer :: cursor :: (ks ++ ls)).Nodup := by
  refine List.nodup_cons.mpr ⟨?_, List.nodup_cons.mpr ⟨?_, List.nodup_append.mpr ⟨hks, hls, ?_⟩⟩⟩
  · simp only [List.mem_cons, List.mem_append, not_or]
    exact ⟨by omega, fun hk ↦ by have := hrange _ hk; omega, fun hk ↦ by have := hrange' _ hk; omega⟩
  · simp only [List.mem_append, not_or]
    exact ⟨fun hk ↦ by have := hrange _ hk; omega, fun hk ↦ by have := hrange' _ hk; omega⟩
  · intro k hk k' hk'
    have := hrange k hk
    have := hrange' k' hk'
    omega

include hle₃ in
theorem slots_below {k : Nat} (hk : k ∈ buffer :: cursor :: (ks ++ ls)) : k < n₃ := by
  simp only [List.mem_cons, List.mem_append] at hk
  obtain rfl | rfl | hk | hk := hk
  · omega
  · omega
  · have := hrange k hk
    omega
  · exact (hrange' k hk).2

end

theorem setUp_code {world : Universe} {m : Method} {f : Function} {spans : List Bytecode.Span}
    {compile : Method → Compile FuncId} {ts ls : List Ty} {maxStack : Int} {site : Site} (h : Coding fill fn u F)
    (he : Emits (do
      let top ← makeBuffer (bufferSize maxStack)
      let args ← ts.zipIdx.mapM fun (t, i) ↦ bindArgument f t i
      let locals ← ls.zipIdx.mapM fun (t, i) ↦ bindLocal world t i
      return { world, method := m, spans, args, locals, top, capacity := bufferSize maxStack, compile } : Emit Site)
      s u site s' u')
    (hs : s.fn = fn) (hts : ∀ t ∈ ts, t = int32) (hls : ∀ t ∈ ls, t = int32)
    (hf : ∀ i < ts.length, (f.param i).type = .i32) (hret : m.returnType = int32)
    (hfits : bufferSize maxStack < 2 ^ 31) (hempty : ∃ B, F.blocks[0]? = some B ∧ B.instrs = []) :
    (∃ n, s' = { s with constants := n }) ∧ site.spans = spans ∧ ∃ plan F', Planned plan fn site ∧
      Growth fill fn 0 u F u' F' ∧ 4 * plan.room < 2 ^ 31 ∧ bufferSize maxStack = (4 * plan.room : Nat) ∧
      Frames plan fill F' ts.length ls.length := by
  simp only [Emits.bind_iff, Emits.pure_iff] at he
  obtain ⟨top, _, _, he₁, args, _, _, he₂, locals, _, _, he₃, rfl, rfl, rfl⟩ := he
  obtain ⟨room, hpos, hroom, hsize⟩ := bufferSize_room hfits
  rw [hsize] at he₁
  obtain ⟨⟨n₁, rfl⟩, F₁, cursor, rfl, hcursor, hcursor', hg₁, hrun₁⟩ := makeBuffer_code h he₁ hs hpos hroom
  obtain ⟨⟨n₂, rfl⟩, ks, F₂, rfl, hks, hnodup, hrange, hg₂, hrun₂⟩ :=
    bindAll_code (fun a : Ty × Nat ↦ bindArgument f a.1 a.2) (fun a args y ↦ args[a.2]? = some (pattern y))
      hg₁.coding he₂ hs fun a ha {_ _ _ _ _ _} h he hs ↦ by
        obtain ⟨-, hi, -⟩ := List.mem_zipIdx ha
        rw [hts a.1 (List.fst_mem_of_mem_zipIdx ha)] at he
        obtain ⟨rfl, hbinds⟩ := bindArgument_code h he hs (hf a.2 (by omega))
        exact ⟨⟨_, rfl⟩, hbinds⟩
  obtain ⟨⟨n₃, rfl⟩, ls', F₃, rfl, hls', hnodup', hrange', hg₃, hrun₃⟩ :=
    bindAll_code (fun a : Ty × Nat ↦ bindLocal world a.1 a.2) (fun _ _ y ↦ y = 0) hg₂.coding he₃ hs
      fun a ha {_ _ _ _ _ _} h he hs ↦ by
        rw [hls a.1 (List.fst_mem_of_mem_zipIdx ha)] at he
        exact bindLocal_code h he hs
  have hle₂ := hg₂.grows.size
  have hle₃ := hg₃.grows.size
  have hapart : (F.instrs.size :: cursor :: (ks ++ ls')).Nodup :=
    nodup_slots hcursor hcursor' hle₂ hrange hrange' hnodup hnodup'
  refine ⟨⟨n₃, rfl⟩, rfl, ⟨F.instrs.size, cursor, ks, ls', room, hapart, by omega⟩, F₃, ⟨rfl, rfl, rfl, ?_, hret⟩,
    (hg₁.trans hg₂).trans hg₃, hroom, hsize, ?_, ?_⟩
  · simp [hsize]
  · exact fun k hk ↦ slots_below hcursor hcursor' hle₂ hle₃ hrange hrange' hk
  · intro xs hxs
    obtain ⟨B, hB, hBe⟩ := hempty
    have hr : Runs F fill (xs.map pattern) 0 {} {} := ⟨⟨B, hB, by rw [hBe]; exact .nil⟩, fun _ _ ↦ ⟨rfl, rfl⟩⟩
    obtain ⟨σ₁, hr₁, hbuffer, hplace, hcells, htop, hheight₁⟩ := hrun₁ hr
    obtain ⟨σ₂, hr₂, hadds₂, hplaces₂, hkeeps₂⟩ := hrun₂ hr₁ (forall₂_arguments ts xs hxs)
    obtain ⟨σ₃, hr₃, hadds₃, hplaces₃, hkeeps₃⟩ := hrun₃ hr₂ (forall₂_zeros ls)
    have hnew : ∀ k, k < F₁.instrs.size → σ₃.slots k = σ₁.slots k := by
      intro k hk
      rw [hadds₃.slots k fun hmem ↦ ?_, hadds₂.slots k fun hmem ↦ ?_]
      · have := hrange k hmem
        omega
      · have := hrange' k hmem
        omega
    refine ⟨σ₃, hr₃, ⟨?_, (hnew _ hcursor').trans htop, ⟨List.replicate room (.word 0), ?_, ?_⟩, ?_, hkeeps₃⟩, ?_⟩
    · intro k hk
      simp only [Plan.vars, List.mem_cons, List.mem_append] at hk
      obtain rfl | rfl | hk | hk := hk
      · exact hadds₃.values _ _ (hadds₂.values _ _ hbuffer)
      · exact hadds₃.values _ _ (hadds₂.values _ _ hplace)
      · exact hadds₃.values _ _ (hplaces₂ k hk)
      · exact hplaces₃ k hk
    · exact (hnew _ (Nat.lt_trans hcursor hcursor')).trans hcells
    · simp
    · refine keeps_congr hkeeps₂ fun k hk ↦ hadds₃.slots k fun hmem ↦ ?_
      have := hrange k hk
      have := hrange' k hmem
      omega
    · have hzero : ({} : Store).height = 0 := rfl
      rw [hadds₃.height, hadds₂.height, hheight₁, hks, hls', List.length_zipIdx, List.length_zipIdx,
      hzero, Nat.zero_add,
        frameHeight, stacked_add]

end

end CilSsa.Lowering

/-!
The function of a method on 32-bit integers: the set-up of its frame, and a block for every block of the body, each of
which does what the plain stack machine does.
-/

namespace CilSsa.Lowering

open CilSsa.Bytecode CilSsa.Metadata CilSsa.SlotMachine
open CilSsa.Number (pattern)
open CilSsa.Ssa (FuncId Function Module Value)
open CilSsa.StackMachine (State knows)

theorem addBlock_grown (F : Function) (name : String) :
    Grown (fun b ↦ b < F.blocks.size) F (F.addBlock name).1 ∧ (F.addBlock name).1.blocks.size = F.blocks.size + 1 ∧
      ∃ B, (F.addBlock name).1.blocks[F.blocks.size]? = some B ∧ B.instrs = [] := by
  have hkept := uniqueName_kept F (if name = "" then "bb" else name)
  have hblocks : (F.addBlock name).1.blocks =
      F.blocks.push ⟨(F.uniqueName (if name = "" then "bb" else name)).1, []⟩ := by
    simp only [Function.addBlock, hkept.2.1]
  have hinstrs : (F.addBlock name).1.instrs = F.instrs := hkept.1
  refine ⟨⟨hkept.2.2.1, hkept.2.2.2.1, hkept.2.2.2.2.1, hkept.2.2.2.2.2, ?_, ?_, ?_⟩, ?_,
    ⟨(F.uniqueName (if name = "" then "bb" else name)).1, []⟩, ?_, rfl⟩
  · rw [hinstrs]
    exact fun _ _ h ↦ h
  · exact Nat.le_of_eq (congrArg Array.size hinstrs.symm)
  · intro b hb
    rw [hblocks, Array.getElem?_push, if_neg (by omega)]
  · rw [hblocks, Array.size_push]
  · rw [hblocks, Array.getElem?_push, if_pos rfl]

section

variable {fill fn : FuncId} {u u' : CompilationUnit} {F : Function}

theorem addBlock_code {name : String} {r : Ssa.BlockId} (h : Coding fill fn u F)
    (hc : Compiles (onModule fun module ↦ module.addBlock fn name) u r u') :
    Coding fill fn u' (F.addBlock name).1 ∧ Apart fn u u' := by
  unfold onModule at hc
  simp only [Compiles.bind_iff, Compiles.get_iff, Compiles.set_iff, Compiles.pure_iff] at hc
  obtain ⟨_, _, ⟨rfl, rfl⟩, _, _, rfl, rfl, rfl⟩ := hc
  have hkept := uniqueName_kept F (if name = "" then "bb" else name)
  have hmodule : (u.module.addBlock fn name).1 = u.module.modifyFunction fn fun _ ↦ (F.addBlock name).1 := by
    simp only [Module.addBlock, h.found]
  rw [hmodule]
  have hid : (F.addBlock name).1.id = F.id := hkept.2.2.1
  have hname : (F.addBlock name).1.name = F.name := hkept.2.2.2.1
  refine ⟨⟨function?_modify h.found _, hid.trans h.id, h.numbered.modify h.found hid, h.layouts, h.int32,
    (memset_modify h.found hid hname).trans h.filler, ?_⟩, ⟨outside_modify _, rfl, rfl, rfl, rfl, rfl, rfl, rfl⟩⟩
  intro k i f hk hi
  rw [show (F.addBlock name).1.instrs = F.instrs from hkept.1] at hk
  obtain ⟨hf, hfill⟩ := h.callee k i f hk hi
  exact ⟨hf, hfill.modify h.found hid hname⟩

theorem addBlocks_code {names : List String} {x : PUnit} (h : Coding fill fn u F)
    (hc : Compiles (names.forM fun name ↦ do
      let _ ← onModule fun module ↦ module.addBlock fn name : Compile PUnit) u x u') :
    ∃ F', Coding fill fn u' F' ∧ Apart fn u u' ∧ Grown (fun b ↦ b < F.blocks.size) F F' ∧
      ∀ b, F.blocks.size ≤ b → b < F.blocks.size + names.length → ∃ B, F'.blocks[b]? = some B ∧ B.instrs = [] := by
  induction names generalizing u F with
  | nil =>
    rw [List.forM, Compiles.pure_iff] at hc
    obtain ⟨-, rfl⟩ := hc
    refine ⟨F, h, .refl fn u, .refl _ F, fun b hle hlt ↦ ?_⟩
    rw [List.length_nil] at hlt
    omega
  | cons name names ih =>
    simp only [List.forM, Compiles.bind_iff, Compiles.pure_iff] at hc
    obtain ⟨_, _, ⟨_, _, hc₁, -, rfl⟩, hc₂⟩ := hc
    obtain ⟨hcoding, hapart⟩ := addBlock_code h hc₁
    obtain ⟨F', hcoding', hapart', hgrown', hnew⟩ := ih hcoding hc₂
    obtain ⟨hgrown, hsize, B, hB, hBe⟩ := addBlock_grown F name
    rw [hsize] at hgrown' hnew
    refine ⟨F', hcoding', hapart.trans hapart', hgrown.trans hgrown' fun c hc ↦ ⟨hc, by omega⟩, ?_⟩
    intro b hle hlt
    rw [List.length_cons] at hlt
    by_cases heq : b = F.blocks.size
    · subst heq
      exact ⟨B, (hgrown'.blocks _ (by omega)).trans hB, hBe⟩
    · exact hnew b (by omega) (by omega)

end

/-- The code of a body: block 0 sets the frame up for `n` arguments and `l` locals and leads to the first span, and
every span has a block that does what the stack machine does in it. -/
structure Realises (plan : Plan) (base : Nat) (E : List (Nat × List Ty)) (spans : List Bytecode.Span)
    (code : List Instruction) (fill : FuncId) (F : Function) (n l : Nat) : Prop where
  below : ∀ k ∈ plan.slots, k < base
  first : ∀ xs : List Int32, xs.length = n → ∃ B σ sp, F.blocks[0]? = some B ∧
    Block F fill (xs.map pattern) B.instrs {} (.goto 1) σ ∧ spans[0]? = some sp ∧
    Entered plan base E sp σ (State.start xs l) ∧ σ.height = frameHeight plan.room (n + l)
  blocks : ∀ j sp, spans[j]? = some sp → Simulates plan base E spans code fill F (j + 1) sp

section

variable {fill : FuncId} {u u' : CompilationUnit} {f : Function}

theorem lowerBody_code {world : Universe} {compile : Method → Compile FuncId} {m : Method} {body : Body} {ts : List Ty}
    {count : Nat} (h : Coding fill f.id u f) (hc : Compiles (lowerBody world compile m body ts f) u count u')
    (hblocks : f.blocks = #[]) (hparams : ∀ i < ts.length, (f.param i).type = .i32)
    (hts : ∀ t ∈ ts, t = int32) (hls : ∀ t ∈ body.locals, t = int32) (hret : m.returnType = int32)
    (hfits : bufferSize body.maxStack < 2 ^ 31)
    (hknown : ∀ i ∈ (decodeAll body.code).1, knows i.op = true) :
    ∃ F spans, Coding fill f.id u' F ∧ Apart f.id u u' ∧ Grown (fun _ ↦ False) f F ∧ Discovered body.code spans ∧
      ∃ plan base E, 4 * plan.room < 2 ^ 31 ∧ bufferSize body.maxStack = (4 * plan.room : Nat) ∧
        Realises plan base E spans (decodeAll body.code).1 fill F ts.length body.locals.length := by
  unfold lowerBody at hc
  cases hspans : discoverBlocks body.code with
  | error e =>
    simp only [hspans] at hc
    obtain ⟨_, _, hthrow, -⟩ := Compiles.bind_iff.mp hc
    exact absurd hthrow Compiles.throw_iff
  | ok spans =>
    simp only [hspans, pure_bind] at hc
    obtain ⟨_, u₁, hc₁, hc⟩ := Compiles.bind_iff.mp hc
    obtain ⟨⟨_, s₄⟩, _, hc₂, hc⟩ := Compiles.bind_iff.mp hc
    obtain ⟨-, rfl⟩ := Compiles.pure_iff.mp hc
    obtain ⟨site, s₂, u₂, he₁, he⟩ := Emits.bind_iff.mp hc₂
    obtain ⟨_, s₃, u₃, he₂, he⟩ := Emits.bind_iff.mp he
    obtain ⟨_, _, _, he₃, he⟩ := Emits.bind_iff.mp he
    obtain ⟨-, -, rfl⟩ := Emits.pure_iff.mp he
    have hd := discoverBlocks_ok hspans
    obtain ⟨F₁, hcoding₁, hapart₁, hgrown₁, hnew⟩ := addBlocks_code h hc₁
    have hempty : ∀ b, b ≤ spans.length → ∃ B, F₁.blocks[b]? = some B ∧ B.instrs = [] := by
      intro b hb
      refine hnew b (by simp [hblocks]) ?_
      simp only [hblocks, List.length_cons, List.length_map, List.size_toArray, List.length_nil]
      omega
    obtain ⟨⟨n, rfl⟩, rfl, plan, F₂, hplanned, hg₂, hroom, hsize, hframes⟩ :=
      setUp_code hcoding₁ he₁ rfl hts hls hparams hret hfits (hempty 0 (Nat.zero_le _))
    have hmem : ∀ sp ∈ site.spans, ∀ i ∈ sp.instrs, i ∈ (decodeAll body.code).1 := by
      intro sp hsp i hi
      rw [← hd.whole]
      exact List.mem_flatMap.mpr ⟨sp, hsp, hi⟩
    obtain ⟨hE, hfn, F₃, hcoding₃, hapart₃, hgrown, hsim⟩ :=
      lowerBlocks_code hg₂.coding he₂ hplanned ⟨rfl, by simp⟩ hd.tiles (fun sp hsp ↦ jumps_of_discovered hd hknown hsp)
        (fun sp hsp i hi ↦ hknown i (hmem sp hsp i hi)) (fun sp hsp i hi ↦ hd.decoded.find (hmem sp hsp i hi))
        (fun b hlt hle ↦ by
          rw [hg₂.grows.blocks b (by omega)]
          exact hempty b (by omega)) (Nat.le_refl _)
    obtain ⟨-, -, hg₄⟩ := emitAt_growth hcoding₃ he₃ hfn rfl
    refine ⟨_, site.spans, hg₄.coding, ((hapart₁.trans hg₂.apart).trans hapart₃).trans hg₄.apart, ?_, hd,
      plan, F₂.instrs.size, s₃.entries, hroom, hsize, hframes.below, ?_, ?_⟩
    · have hgrown₂ : Grown (fun _ ↦ False) f F₂ := hgrown₁.trans hg₂.grows nofun
      have hgrown₃ : Grown (fun _ ↦ False) f F₃ := hgrown₂.trans hgrown nofun
      exact hgrown₃.trans hg₄.grows nofun
    · intro xs hxs
      obtain ⟨σ, hr, hst, hheight⟩ := hframes.run xs hxs
      obtain ⟨sp, rest, hfirst, hstart⟩ := hd.first
      have hleave : Leaves F₃.id (.br (some ⟨f.id, 1⟩)) [] (.goto 1) := .br rfl (by rw [hcoding₃.id]; rfl)
      obtain ⟨B, hB, hblock⟩ := (hgrown.runs (Nat.le_refl 0) hr).leave rfl hleave
      refine ⟨B, σ, sp, hB, hblock, by rw [hfirst]; rfl, ⟨hstart.symm, hst, ⟨[], ?_, rfl⟩, hr.fresh⟩, hheight⟩
      rw [hstart]
      exact hE s₃.entries (fun _ _ h ↦ h) 0 [] rfl
    · intro j sp hj
      have := hsim (fun _ _ h ↦ h) j sp hj
      rw [Nat.zero_add] at this
      exact hg₄.grows.simulates (Nat.succ_ne_zero j) this

end

end CilSsa.Lowering

