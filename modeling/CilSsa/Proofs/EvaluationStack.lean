import CilSsa.Proofs.OperandCode

/-! The top of the stack of the running body is what the pending operands stand for, and all below it is in the
buffer of the run-time stack. -/

namespace CilSsa.Lowering

open CilSsa.Metadata CilSsa.SlotMachine
open CilSsa.Number (pattern)
open CilSsa.Ssa (FuncId Function Value)

/-- A 32-bit integer that is a value of the code. -/
structure Plain (v : Operand) : Prop where
  type : v.type = int32
  slot : v.slot = false
  code : v.value.type = .i32

def slotOperand (fn : FuncId) (k : Nat) : Operand := ⟨.byref int32, .instr ⟨fn, k⟩ (.pointer .i32), true⟩

/-- The operands of a body on 32-bit integers. -/
inductive Core (plan : Plan) (fn : FuncId) : Operand → Prop
  | value {v : Operand} : Plain v → Core plan fn v
  | slot {k : Nat} : k ∈ plan.vars → Core plan fn (slotOperand fn k)

/-- What an operand stands for. -/
inductive Carries (plan : Plan) (fn : FuncId) (args : List UInt64) (σ : Store) : Operand → Int32 → Prop
  | value {v : Operand} {x : Int32} : Plain v → Has fn args σ v.value (.word (pattern x)) → Carries plan fn args σ v x
  | slot {k : Nat} {x : Int32} : k ∈ plan.vars → Keeps σ k x → Carries plan fn args σ (slotOperand fn k) x

def Plan.carriers (plan : Plan) : List Nat := [plan.cursor, plan.buffer]

theorem Plan.notMem_carriers (plan : Plan) {k : Nat} (hk : k ∈ plan.vars) : k ∉ plan.carriers := by
  simp only [carriers, List.mem_cons, List.not_mem_nil, or_false, not_or]
  constructor
  · rintro rfl
    exact plan.cursor_notMem hk
  · rintro rfl
    exact plan.buffer_notMem hk

section

variable {plan : Plan} {fn : FuncId} {args : List UInt64} {σ σ' : Store} {v : Operand} {x : Int32}

theorem Carries.later (h : Carries plan fn args σ v x) (hl : Later plan.carriers σ σ') :
    Carries plan fn args σ' v x := by
  cases h with
  | value hp hv => exact .value hp (hv.mono hl.values)
  | slot hk hx =>
    refine .slot hk ?_
    rw [Keeps, hl.slots _ (plan.notMem_carriers hk)]
    exact hx

theorem carries_later {vs : List Operand} {xs : List Int32} (h : List.Forall₂ (Carries plan fn args σ) vs xs)
    (hl : Later plan.carriers σ σ') : List.Forall₂ (Carries plan fn args σ') vs xs :=
  h.imp fun _ _ hx ↦ hx.later hl

theorem Carries.of_plain (h : Carries plan fn args σ v x) (hp : Plain v) : Has fn args σ v.value
    (.word (pattern x)) := by
  cases h with
  | value _ hv => exact hv
  | slot => cases hp.slot

theorem Carries.of_slot {k : Nat} (h : Carries plan fn args σ (slotOperand fn k) x) : Keeps σ k x := by
  generalize hv : slotOperand fn k = v at h
  cases h with
  | value hp =>
    subst hv
    cases hp.slot
  | slot _ hx =>
    cases hv
    exact hx

end

/-- What is true of a block while it is lowered: block `b` of function `fn` is code from offset `start` on. -/
structure Tidy (plan : Plan) (fn : FuncId) (b start : Nat) (s : Stage) : Prop where
  own : s.fn = fn
  block : s.block = b
  pending : ∀ v ∈ s.pending, Core plan fn v
  entry : ∀ t ∈ s.entry, t = int32
  inferred : ∀ t ∈ s.inferred, t = int32
  entries : ∀ p ∈ s.entries, ∀ t ∈ p.2, t = int32
  unknown : s.inferring = true → s.entry = [] ∧ s.entries.lookup start = none

/-- The entries of a stage are among the entries `E` known in the end, and what was inferred so far is not too much. -/
structure Before (E : List (Nat × List Ty)) (start : Nat) (s : Stage) : Prop where
  entries : ∀ o ts, s.entries.lookup o = some ts → E.lookup o = some ts
  inferred : s.inferring = true → ∃ ts, E.lookup start = some ts ∧ s.inferred.length ≤ ts.length

def Toward (start : Nat) (s s' : Stage) : Prop := ∀ E, Before E start s' → Before E start s

theorem Toward.refl (start : Nat) (s : Stage) : Toward start s s := fun _ h ↦ h

theorem Toward.trans {start : Nat} {s s' s'' : Stage} (h : Toward start s s') (h' : Toward start s' s'') :
    Toward start s s'' := fun E hE ↦ h E (h' E hE)

def Depth (E : List (Nat × List Ty)) (start : Nat) (s : Stage) (n : Nat) : Prop :=
  if s.inferring then ∃ ts, E.lookup start = some ts ∧ n + s.inferred.length = ts.length else n = s.entry.length

/-- The stack of the running body, its arguments `xs` and its locals `ys` in the store. -/
structure Rep (plan : Plan) (fn : FuncId) (args : List UInt64) (E : List (Nat × List Ty)) (start : Nat) (s : Stage)
    (σ : Store) (stack xs ys : List Int32) : Prop where
  split : ∃ top low, stack = top ++ low ∧ List.Forall₂ (Carries plan fn args σ) s.pending top ∧
    Stored plan σ low xs ys ∧ Depth E start s low.length

/-- The site of a body with a plan, which returns a 32-bit integer. -/
structure Planned (plan : Plan) (fn : FuncId) (site : Site) : Prop where
  top : site.top = plan.top fn
  args : site.args = plan.args.map (slotOperand fn)
  locals : site.locals = plan.locals.map (slotOperand fn)
  capacity : site.capacity = 4 * plan.room
  returns : site.method.returnType = int32

section

variable {plan : Plan} {fill fn : FuncId} {u u' : CompilationUnit} {F : Function} {s s' : Stage} {v w : Operand}
  {b start : Nat}

/-- Block `b` grew by code that gives what the operand `v` stands for as the value `w`. -/
def Fetched (plan : Plan) (fill fn : FuncId) (b : Nat) (u : CompilationUnit) (F : Function) (u' : CompilationUnit)
    (v w : Operand) : Prop :=
  Plain w ∧ ∃ F', Growth fill fn b u F u' F' ∧
    ∀ {args σ₀ σ x low xs ys}, Runs F fill args b σ₀ σ → Stored plan σ low xs ys → Carries plan fn args σ v x →
      ∃ σ', Runs F' fill args b σ₀ σ' ∧ Later [] σ σ' ∧ Has fn args σ' w.value (.word (pattern x))

theorem fetched_self (h : Coding fill fn u F) (hp : Plain v) (b : Nat) : Fetched plan fill fn b u F u v v :=
  ⟨hp, F, .refl h _, fun hr _ hx ↦ ⟨_, hr, .refl _ _, hx.of_plain hp⟩⟩

theorem load_slot {k : Nat} {r : Value} (h : Coding fill fn u F)
    (he : Emits (load (slotOperand fn k).value) s u r s' u') (hs : s.fn = fn) (hk : k ∈ plan.vars) :
    s' = s ∧ Fetched plan fill fn s.block u F u' (slotOperand fn k) ⟨int32, r, false⟩ := by
  obtain ⟨rfl, hr, F', hg, hrun⟩ := load_code h he hs
  refine ⟨rfl, ⟨rfl, rfl, hr⟩, F', hg, ?_⟩
  intro args σ₀ σ x low xs ys hr hst hx
  have hplace : Has fn args σ (slotOperand fn k).value (.place k 0) :=
    .self (hst.places k (List.mem_cons_of_mem _ (List.mem_cons_of_mem _ hk))) rfl
  exact hrun hr hplace rfl (cell_single hx.of_slot) (pattern_fits x)

theorem materialize_code (h : Coding fill fn u F) (he : Emits (materialize v) s u w s' u') (hs : s.fn = fn)
    (hv : Core plan fn v) : s' = s ∧ Fetched plan fill fn s.block u F u' v w := by
  unfold materialize at he
  cases hv with
  | value hp =>
    rw [if_neg (by simp [hp.slot]), Emits.pure_iff] at he
    obtain ⟨rfl, rfl, rfl⟩ := he
    exact ⟨rfl, fetched_self h hp _⟩
  | slot hk =>
    simp only [slotOperand, if_true, Emits.bind_iff, Emits.pure_iff] at he
    obtain ⟨r, _, _, he, rfl, rfl, rfl⟩ := he
    exact load_slot h he hs hk

theorem deref_code (h : Coding fill fn u F) (he : Emits (deref v) s u w s' u') (hs : s.fn = fn) (hv : Core plan fn v) :
    s' = s ∧ Fetched plan fill fn s.block u F u' v w := by
  unfold deref at he
  rw [Emits.bind_iff] at he
  obtain ⟨r, _, _, he, hret⟩ := he
  obtain ⟨rfl, hfetch⟩ := materialize_code h he hs hv
  have href : ¬ r.type.isByRef = true := by
    rw [hfetch.1.type]
    decide
  rw [if_neg href, Emits.pure_iff] at hret
  obtain ⟨rfl, rfl, rfl⟩ := hret
  exact ⟨rfl, hfetch⟩

theorem convert_code {site : Site} (h : Coding fill fn u F) (he : Lowers (convert v int32) site s u w s' u')
    (hs : s.fn = fn) (hv : Core plan fn v) : s' = s ∧ Fetched plan fill fn s.block u F u' v w := by
  unfold convert at he
  cases hv with
  | value hp =>
    obtain ⟨t, c, slot⟩ := v
    obtain rfl : t = int32 := hp.type
    obtain rfl : slot = false := hp.slot
    change Lowers (pure ⟨int32, c, false⟩) site s u w s' u' at he
    rw [Lowers.pure_iff] at he
    obtain ⟨rfl, rfl, rfl⟩ := he
    exact ⟨rfl, fetched_self h hp _⟩
  | slot hk =>
    rename_i k
    have hne : ¬ Ty.byref int32 = int32 := by decide
    simp only [slotOperand, convertFrom, hne, if_false, Bool.not_true, Bool.false_and, Bool.false_eq_true, if_true,
      Lowers.bind_iff, Lowers.pure_iff] at he
    obtain ⟨r, _, _, he, rfl, rfl, rfl⟩ := he
    exact load_slot h he hs hk

theorem materializeAll_code {vs ws : List Operand} (h : Coding fill fn u F)
    (he : Emits (vs.mapM materialize) s u ws s' u') (hs : s.fn = fn) (hvs : ∀ v ∈ vs, Core plan fn v) :
    s' = s ∧ (∀ w ∈ ws, Plain w) ∧ ∃ F', Growth fill fn s.block u F u' F' ∧
      ∀ {args σ₀ σ top low xs ys}, Runs F fill args s.block σ₀ σ → Stored plan σ low xs ys →
        List.Forall₂ (Carries plan fn args σ) vs top →
        ∃ σ', Runs F' fill args s.block σ₀ σ' ∧ Later [] σ σ' ∧ List.Forall₂ (Carries plan fn args σ') ws top := by
  induction vs generalizing u F ws with
  | nil =>
    rw [List.mapM_nil, Emits.pure_iff] at he
    obtain ⟨rfl, rfl, rfl⟩ := he
    refine ⟨rfl, nofun, F, .refl h _, ?_⟩
    intro args σ₀ σ top low xs ys hr _ hx
    cases hx
    exact ⟨_, hr, .refl _ _, .nil⟩
  | cons v vs ih =>
    simp only [List.mapM_cons, Emits.bind_iff, Emits.pure_iff] at he
    obtain ⟨w, _, _, he₁, ws, _, _, he₂, rfl, rfl, rfl⟩ := he
    obtain ⟨rfl, hw, F₁, hg₁, hrun₁⟩ := materialize_code h he₁ hs (hvs v List.mem_cons_self)
    obtain ⟨rfl, hws, F₂, hg₂, hrun₂⟩ := ih hg₁.coding he₂ fun v hv ↦ hvs v (List.mem_cons_of_mem _ hv)
    refine ⟨rfl, List.forall_mem_cons.mpr ⟨hw, hws⟩, F₂, hg₁.trans hg₂, ?_⟩
    intro args σ₀ σ top low xs ys hr hst hx
    cases hx with
    | cons hx hrest =>
      obtain ⟨σ₁, hr₁, hl₁, hd₁⟩ := hrun₁ hr hst hx
      obtain ⟨σ₂, hr₂, hl₂, hd₂⟩ := hrun₂ hr₁ (hst.later hl₁) (carries_later hrest (hl₁.widen nofun))
      exact ⟨σ₂, hr₂, hl₁.trans hl₂, .cons (.value hw (hd₁.mono hl₂.values)) hd₂⟩

theorem Rep.later {args : List UInt64} {E : List (Nat × List Ty)} {σ σ' : Store} {stack xs ys : List Int32}
    (h : Rep plan fn args E start s σ stack xs ys) (hl : Later [] σ σ') : Rep plan fn args E start s σ'
    stack xs ys := by
  obtain ⟨top, low, hstack, htop, hst, hdepth⟩ := h.split
  exact ⟨top, low, hstack, carries_later htop (hl.widen nofun), hst.later hl, hdepth⟩

theorem Tidy.pend (h : Tidy plan fn b start s) (vs : List Operand) (hvs : ∀ v ∈ vs, Core plan fn v) :
    Tidy plan fn b start { s with pending := vs } :=
  ⟨h.own, h.block, hvs, h.entry, h.inferred, h.entries, h.unknown⟩

theorem toward_pend (vs : List Operand) : Toward start s { s with pending := vs } :=
  fun _ hE ↦ ⟨hE.entries, hE.inferred⟩

theorem Tidy.count {n : Nat} (h : Tidy plan fn b start s) : Tidy plan fn b start { s with constants := n } :=
  ⟨h.own, h.block, h.pending, h.entry, h.inferred, h.entries, h.unknown⟩

theorem toward_count (n : Nat) : Toward start s { s with constants := n } :=
  fun _ hE ↦ ⟨hE.entries, hE.inferred⟩

theorem settle_code {x : Unit} (h : Coding fill fn u F) (he : Emits settle s u x s' u') (ht : Tidy plan fn b start s) :
    ∃ ws, s' = { s with pending := ws } ∧ (∀ w ∈ ws, Plain w) ∧ ∃ F', Growth fill fn b u F u' F' ∧
      ∀ {args E σ₀ σ stack xs ys}, Runs F fill args b σ₀ σ → Rep plan fn args E start s σ stack xs ys →
        ∃ σ', Runs F' fill args b σ₀ σ' ∧ Later [] σ σ' ∧ Rep plan fn args E start s' σ' stack xs ys := by
  obtain rfl := ht.block
  unfold settle at he
  simp only [Emits.bind_iff, Emits.get_iff, Emits.modify_iff] at he
  obtain ⟨_, _, _, ⟨rfl, rfl, rfl⟩, ws, _, _, he, rfl, rfl⟩ := he
  obtain ⟨rfl, hws, F', hg, hrun⟩ := materializeAll_code h he ht.own fun v hv ↦ ht.pending v (List.mem_reverse.mp hv)
  refine ⟨ws.reverse, rfl, fun w hw ↦ hws w (List.mem_reverse.mp hw), F', hg, ?_⟩
  intro args E σ₀ σ stack xs ys hr hrep
  obtain ⟨top, low, hstack, htop, hst, hdepth⟩ := hrep.split
  obtain ⟨σ', hr', hl, hx⟩ := hrun hr hst (List.rel_reverse htop)
  refine ⟨σ', hr', hl, top, low, hstack, ?_, hst.later hl, hdepth⟩
  rw [← List.reverse_reverse top]
  exact List.rel_reverse hx

theorem takeEntry_code {hint : Option Ty} {t : Ty} (he : Emits (takeEntry hint) s u t s' u')
    (hhint : ∀ t ∈ hint, t = int32) (ht : Tidy plan fn b start s) :
    t = int32 ∧ u' = u ∧ s'.pending = s.pending ∧ Tidy plan fn b start s' ∧ Toward start s s' ∧
      ∀ {E n}, Before E start s' → Depth E start s n → ∃ n', n = n' + 1 ∧ Depth E start s' n' := by
  unfold takeEntry at he
  simp only [Emits.bind_iff, Emits.get_iff] at he
  obtain ⟨_, _, _, ⟨rfl, rfl, rfl⟩, he⟩ := he
  cases hentry : s.entry with
  | cons e rest =>
    simp only [hentry, Emits.bind_iff, Emits.set_iff, Emits.pure_iff] at he
    obtain ⟨_, _, _, ⟨rfl, rfl⟩, rfl, rfl, rfl⟩ := he
    have hall := ht.entry
    rw [hentry, List.forall_mem_cons] at hall
    have hknown : s.inferring = false := by
      cases hi : s.inferring with
      | false => rfl
      | true => exact absurd (ht.unknown hi).1 (by simp [hentry])
    refine ⟨hall.1, rfl, rfl, ⟨ht.own, ht.block, ht.pending, hall.2, ht.inferred, ht.entries, ?_⟩,
      fun E hE ↦ ⟨hE.entries, hE.inferred⟩, ?_⟩
    · intro hi
      rw [show s.inferring = true from hi] at hknown
      cases hknown
    · intro E n _ hn
      simp only [Depth, hknown, hentry, List.length_cons] at hn
      exact ⟨rest.length, hn, by simp [Depth, hknown]⟩
  | nil =>
    simp only [hentry] at he
    cases hi : s.inferring with
    | false =>
      simp only [hi] at he
      exact absurd he Emits.throw_iff
    | true =>
      simp only [hi, if_true] at he
      cases hint with
      | none => exact absurd he Emits.throw_iff
      | some e =>
        obtain rfl := hhint e rfl
        have hkind : ¬ int32.kind = .valueType := by decide
        simp only [hkind, if_false, Emits.bind_iff, Emits.set_iff, Emits.pure_iff] at he
        obtain ⟨_, _, _, ⟨rfl, rfl⟩, rfl, rfl, rfl⟩ := he
        refine ⟨rfl, rfl, rfl, ⟨ht.own, ht.block, ht.pending, nofun, ?_, ht.entries, ?_⟩, ?_, ?_⟩
        · exact List.forall_mem_cons.mpr ⟨rfl, ht.inferred⟩
        · exact fun _ ↦ ⟨rfl, (ht.unknown hi).2⟩
        · intro E hE
          obtain ⟨ts, hts, hle⟩ := hE.inferred rfl
          exact ⟨hE.entries, fun _ ↦ ⟨ts, hts, by simp at hle; omega⟩⟩
        · intro E n hE hn
          obtain ⟨ts, hts, hle⟩ := hE.inferred rfl
          simp only [Depth, hi, if_true] at hn
          obtain ⟨ts', hts', hn⟩ := hn
          obtain rfl := Option.some.inj (hts.symm.trans hts')
          simp only [List.length_cons] at hle
          refine ⟨n - 1, by omega, ?_⟩
          simp only [Depth, if_true, List.length_cons]
          exact ⟨ts, hts, by omega⟩

theorem counterpart_code {site : Site} {t : Ssa.Ty} (h : Coding fill fn u F)
    (he : Lowers (counterpart int32) site s u t s' u') (b : Nat) :
    s' = s ∧ t = .i32 ∧ Growth fill fn b u F u' F := by
  unfold counterpart at he
  simp only [Lowers.bind_iff, Lowers.read_iff] at he
  obtain ⟨_, _, _, ⟨rfl, rfl, rfl⟩, he⟩ := he
  obtain ⟨rfl, hc⟩ := Lowers.compile_iff.mp he
  exact ⟨rfl, codeType_int32 h b hc⟩

theorem sizeOf_int32 {n : Int} (h : Coding fill fn u F) (b : Nat) (hc : Compiles (sizeOf .i32) u n u') :
    n = 4 ∧ Growth fill fn b u F u' F := sizeOf_scalar (l := .scalar 4) rfl h b hc

theorem popRaw_code {site : Site} {hint : Option Ty} (h : Coding fill fn u F)
    (he : Lowers (popRaw hint) site s u v s' u') (hsite : Planned plan fn site) (hhint : ∀ t ∈ hint, t = int32)
    (ht : Tidy plan fn b start s) :
    Core plan fn v ∧ Tidy plan fn b start s' ∧ Toward start s s' ∧ (∀ w ∈ s'.pending, w ∈ s.pending) ∧
      ∃ F', Growth fill fn b u F u' F' ∧
      ∀ {args E σ₀ σ stack xs ys}, Before E start s' → Runs F fill args b σ₀ σ →
        Rep plan fn args E start s σ stack xs ys →
        ∃ x rest σ', stack = x :: rest ∧ Runs F' fill args b σ₀ σ' ∧ Later plan.carriers σ σ' ∧
          Rep plan fn args E start s' σ' rest xs ys ∧ Carries plan fn args σ' v x := by
  unfold popRaw at he
  simp only [Lowers.bind_iff, Lowers.getThe_iff] at he
  obtain ⟨_, _, _, ⟨rfl, rfl, rfl⟩, he⟩ := he
  cases hp : s.pending with
  | cons p vs =>
    simp only [hp, Lowers.bind_iff, Lowers.set_iff, Lowers.pure_iff] at he
    obtain ⟨_, _, _, ⟨rfl, rfl⟩, rfl, rfl, rfl⟩ := he
    have hall := ht.pending
    rw [hp, List.forall_mem_cons] at hall
    refine ⟨hall.1, ht.pend vs hall.2, toward_pend vs, fun w hw ↦ List.mem_cons_of_mem _ hw, F, .refl h b, ?_⟩
    intro args E σ₀ σ stack xs ys _ hr hrep
    obtain ⟨top, low, rfl, htop, hst, hdepth⟩ := hrep.split
    rw [hp] at htop
    cases htop with
    | cons hx hrest => exact ⟨_, _, σ, rfl, hr, .refl _ _, ⟨_, low, rfl, hrest, hst, hdepth⟩, hx⟩
  | nil =>
    simp only [hp, Lowers.bind_iff, Lowers.read_iff, Lowers.pure_iff] at he
    obtain ⟨t, s₁, _, he₁, code, _, _, he₂, size, _, _, he₃, _, _, _, ⟨rfl, rfl, rfl⟩, c, _, _, he₄, rfl, rfl, rfl⟩ :=
      he
    obtain ⟨rfl, rfl, hpend, ht₁, htoward, hdepth⟩ := takeEntry_code (Lowers.emit_iff.mp he₁) hhint ht
    obtain ⟨rfl, rfl, hg₂⟩ := counterpart_code h he₂ b
    obtain ⟨rfl, hsize⟩ := Lowers.compile_iff.mp he₃
    obtain ⟨rfl, hg₃⟩ := sizeOf_int32 hg₂.coding b hsize
    rw [hsite.top] at he₄
    obtain rfl := ht₁.block
    obtain ⟨rfl, hc, F', hg₄, hrun⟩ := popBuffer_code plan hg₃.coding (Lowers.emit_iff.mp he₄) ht₁.own
    have hplain : Plain ⟨int32, c, false⟩ := ⟨rfl, rfl, hc⟩
    refine ⟨.value hplain, ht₁.count, htoward.trans (toward_count _), ?_, F', (hg₂.trans hg₃).trans hg₄, ?_⟩
    · intro w hw
      rwa [← hp, ← hpend]
    intro args E σ₀ σ stack xs ys hE hr hrep
    obtain ⟨top, low, rfl, htop, hst, hlow⟩ := hrep.split
    rw [hp] at htop
    cases htop
    obtain ⟨n, hn, hdepth'⟩ := hdepth ⟨hE.entries, hE.inferred⟩ hlow
    cases low with
    | nil => cases hn
    | cons x low =>
      obtain rfl : low.length = n := Nat.succ.inj hn
      obtain ⟨σ', hr', hl, hst', hx⟩ := hrun hr hst
      refine ⟨x, low, σ', rfl, hr', hl.widen (by simp [Plan.carriers]), ?_, .value hplain hx⟩
      refine ⟨[], low, rfl, ?_, hst', hdepth'⟩
      simp only [hpend, hp, List.Forall₂.nil]

theorem pop_code {site : Site} (h : Coding fill fn u F) (he : Lowers (pop int32) site s u v s' u')
    (hsite : Planned plan fn site) (ht : Tidy plan fn b start s) :
    Plain v ∧ Tidy plan fn b start s' ∧ Toward start s s' ∧ (∀ w ∈ s'.pending, w ∈ s.pending) ∧
      ∃ F', Growth fill fn b u F u' F' ∧
      ∀ {args E σ₀ σ stack xs ys}, Before E start s' → Runs F fill args b σ₀ σ →
        Rep plan fn args E start s σ stack xs ys →
        ∃ x rest σ', stack = x :: rest ∧ Runs F' fill args b σ₀ σ' ∧ Later plan.carriers σ σ' ∧
          Rep plan fn args E start s' σ' rest xs ys ∧ Has fn args σ' v.value (.word (pattern x)) := by
  unfold pop at he
  rw [Lowers.bind_iff] at he
  obtain ⟨r, _, _, he₁, he₂⟩ := he
  obtain ⟨hr, ht₁, htoward, hpend, F₁, hg₁, hrun₁⟩ := popRaw_code h he₁ hsite (by simp) ht
  obtain ⟨rfl, hv, F₂, hg₂, hrun₂⟩ := convert_code hg₁.coding he₂ ht₁.own hr
  rw [ht₁.block] at hg₂ hrun₂
  refine ⟨hv, ht₁, htoward, hpend, F₂, hg₁.trans hg₂, ?_⟩
  intro args E σ₀ σ stack xs ys hE hr hrep
  obtain ⟨x, rest, σ₁, rfl, hr₁, hl₁, hrep₁, hx⟩ := hrun₁ hE hr hrep
  obtain ⟨top, low, -, -, hst, -⟩ := hrep₁.split
  obtain ⟨σ₂, hr₂, hl₂, hx₂⟩ := hrun₂ hr₁ hst hx
  exact ⟨x, rest, σ₂, rfl, hr₂, hl₁.trans (hl₂.widen nofun), hrep₁.later hl₂, hx₂⟩

theorem operands_code {site : Site} {p : Operand × Operand} (h : Coding fill fn u F)
    (he : Lowers operands site s u p s' u') (hsite : Planned plan fn site) (ht : Tidy plan fn b start s) :
    Plain p.1 ∧ Plain p.2 ∧ Tidy plan fn b start s' ∧ Toward start s s' ∧ ∃ F', Growth fill fn b u F u' F' ∧
      ∀ {args E σ₀ σ stack xs ys}, Before E start s' → Runs F fill args b σ₀ σ →
        Rep plan fn args E start s σ stack xs ys →
        ∃ x y rest σ', stack = y :: x :: rest ∧ Runs F' fill args b σ₀ σ' ∧ Later plan.carriers σ σ' ∧
          Rep plan fn args E start s' σ' rest xs ys ∧ Has fn args σ' p.1.value (.word (pattern x)) ∧
          Has fn args σ' p.2.value (.word (pattern y)) := by
  unfold operands at he
  simp only [Lowers.bind_iff, Lowers.pure_iff] at he
  obtain ⟨r, _, _, he₁, l, _, _, he₂, r', _, _, he₃, l', _, _, he₄, l'', _, _, he₅, rfl, rfl, rfl⟩ := he
  obtain ⟨hr, ht₁, htoward₁, -, F₁, hg₁, hrun₁⟩ := popRaw_code h he₁ hsite (by simp) ht
  obtain ⟨hl, ht₂, htoward₂, -, F₂, hg₂, hrun₂⟩ := popRaw_code hg₁.coding he₂ hsite (by simp) ht₁
  obtain ⟨rfl, hr', F₃, hg₃, hrun₃⟩ := deref_code hg₂.coding (Lowers.emit_iff.mp he₃) ht₂.own hr
  obtain ⟨rfl, hl', F₄, hg₄, hrun₄⟩ := deref_code hg₃.coding (Lowers.emit_iff.mp he₄) ht₂.own hl
  rw [hr'.type] at he₅
  obtain ⟨rfl, hl'', F₅, hg₅, hrun₅⟩ := convert_code hg₄.coding he₅ ht₂.own (.value hl')
  rw [ht₂.block] at hg₃ hrun₃ hg₄ hrun₄ hg₅ hrun₅
  refine ⟨hl'', hr', ht₂, htoward₁.trans htoward₂, F₅, (((hg₁.trans hg₂).trans hg₃).trans hg₄).trans hg₅, ?_⟩
  intro args E σ₀ σ stack xs ys hE hrun hrep
  obtain ⟨y, _, σ₁, rfl, hr₁, hl₁, hrep₁, hy⟩ := hrun₁ (htoward₂ E hE) hrun hrep
  obtain ⟨x, rest, σ₂, rfl, hr₂, hl₂, hrep₂, hx⟩ := hrun₂ hE hr₁ hrep₁
  obtain ⟨top, low, -, -, hst, -⟩ := hrep₂.split
  obtain ⟨σ₃, hr₃, hl₃, hy₃⟩ := hrun₃ hr₂ hst (hy.later hl₂)
  obtain ⟨σ₄, hr₄, hl₄, hx₄⟩ := hrun₄ hr₃ (hst.later hl₃) (hx.later (hl₃.widen nofun))
  obtain ⟨σ₅, hr₅, hl₅, hx₅⟩ := hrun₅ hr₄ ((hst.later hl₃).later hl₄) (.value hl' hx₄)
  have hread := (hl₃.trans hl₄).trans hl₅
  exact ⟨x, y, rest, σ₅, rfl, hr₅, (hl₁.trans hl₂).trans (hread.widen nofun), hrep₂.later hread, hx₅,
    hy₃.mono (hl₄.trans hl₅).values⟩

theorem spilled_code (h : Coding fill fn u F) (he : Emits (spilled v) s u w s' u') (hs : s.fn = fn)
    (hv : Core plan fn v) : s' = s ∧ Fetched plan fill fn s.block u F u' v w := by
  unfold spilled at he
  rw [Emits.bind_iff] at he
  obtain ⟨r, _, _, he, hret⟩ := he
  obtain ⟨rfl, hfetch⟩ := materialize_code h he hs hv
  rw [if_neg (by rw [hfetch.1.code]; decide), Emits.pure_iff] at hret
  obtain ⟨rfl, rfl, rfl⟩ := hret
  exact ⟨rfl, hfetch⟩

theorem pushAll_code {site : Site} {depth : Int} {vs : List Operand} {ts : List Ty} (h : Coding fill fn u F)
    (he : Lowers (pushAll depth vs) site s u ts s' u') (hsite : Planned plan fn site) (hs : s.fn = fn)
    (hb : s.block = b) (hvs : ∀ v ∈ vs, Core plan fn v) :
    (∃ n, s' = { s with constants := n }) ∧ ts = vs.map (fun _ ↦ int32) ∧ ∃ F', Growth fill fn b u F u' F' ∧
      ∀ {args σ₀ σ top low xs ys}, Runs F fill args b σ₀ σ → Stored plan σ low xs ys →
        List.Forall₂ (Carries plan fn args σ) vs top → depth = 4 * low.length →
        ∃ σ', Runs F' fill args b σ₀ σ' ∧ Later plan.carriers σ σ' ∧ Stored plan σ' (top.reverse ++ low) xs ys := by
  induction vs generalizing u F s ts depth with
  | nil =>
    rw [pushAll, Lowers.pure_iff] at he
    obtain ⟨rfl, rfl, rfl⟩ := he
    refine ⟨⟨_, rfl⟩, rfl, F, .refl h _, ?_⟩
    intro args σ₀ σ top low xs ys hr hst hx _
    cases hx
    exact ⟨σ, hr, .refl _ _, hst⟩
  | cons v vs ih =>
    rw [pushAll] at he
    simp only [Lowers.bind_iff, Lowers.read_iff] at he
    obtain ⟨_, _, _, ⟨rfl, rfl, rfl⟩, w, _, _, he₁, size, _, _, he₂, he₃⟩ := he
    obtain ⟨rfl, hw, F₁, hg₁, hrun₁⟩ := spilled_code h (Lowers.emit_iff.mp he₁) hs (hvs v List.mem_cons_self)
    subst hb
    obtain ⟨rfl, hsize⟩ := Lowers.compile_iff.mp he₂
    rw [hw.code] at hsize
    obtain ⟨rfl, hg₂⟩ := sizeOf_int32 hg₁.coding _ hsize
    split at he₃
    · obtain ⟨_, _, _, he₃, -⟩ := Lowers.bind_iff.mp he₃
      exact absurd he₃ Lowers.throw_iff
    · rename_i hcap
      simp only [Lowers.bind_iff, Lowers.pure_iff] at he₃
      obtain ⟨_, _, _, hpush, rest, _, _, he₄, rfl, rfl, rfl⟩ := he₃
      rw [hsite.top] at hpush
      obtain ⟨rfl, F₃, hg₃, hrun₃⟩ := pushBuffer_code plan hg₂.coding (Lowers.emit_iff.mp hpush) hs hw.code
      obtain ⟨⟨n, rfl⟩, rfl, F₄, hg₄, hrun₄⟩ := ih hg₃.coding he₄ hs rfl fun v hv ↦ hvs v (List.mem_cons_of_mem _ hv)
      refine ⟨⟨n, rfl⟩, by rw [hw.type, List.map_cons], F₄, ((hg₁.trans hg₂).trans hg₃).trans hg₄, ?_⟩
      intro args σ₀ σ top low xs ys hr hst hx hdepth
      cases hx with
      | cons hx hrest =>
        rename_i x top
        have hroom : low.length < plan.room := by
          rw [hsite.capacity] at hcap
          omega
        obtain ⟨σ₁, hr₁, hl₁, hx₁⟩ := hrun₁ hr hst hx
        obtain ⟨σ₂, hr₂, hl₂, hst₂⟩ := hrun₃ hr₁ (hst.later hl₁) hx₁ hroom
        have hl := (hl₁.widen nofun).trans hl₂
        obtain ⟨σ₃, hr₃, hl₃, hst₃⟩ := hrun₄ hr₂ hst₂ (carries_later hrest hl)
          (by rw [List.length_cons]; push_cast; omega)
        refine ⟨σ₃, hr₃, hl.trans hl₃, ?_⟩
        rw [List.reverse_cons, List.append_assoc]
        exact hst₃

theorem settleEntry_code {x : Unit} (he : Emits (settleEntry start) s u x s' u') (ht : Tidy plan fn b start s) :
    u' = u ∧ s'.pending = s.pending ∧ s'.entry = s.entry ∧ s'.inferring = false ∧ Tidy plan fn b start s' ∧
      Toward start s s' ∧ ∀ {E n}, Before E start s' → Depth E start s n → n = s.entry.length := by
  unfold settleEntry at he
  rw [Emits.modify_iff] at he
  obtain ⟨rfl, rfl⟩ := he
  cases hi : s.inferring with
  | false =>
    rw [if_neg (by simp)]
    refine ⟨rfl, rfl, rfl, hi, ht, .refl start s, ?_⟩
    intro E n _ hn
    simpa [Depth, hi] using hn
  | true =>
    rw [if_pos rfl]
    obtain ⟨hentry, hnone⟩ := ht.unknown hi
    refine ⟨rfl, rfl, rfl, rfl, ⟨ht.own, ht.block, ht.pending, ht.entry, ht.inferred, ?_, nofun⟩, ?_, ?_⟩
    · exact List.forall_mem_cons.mpr ⟨ht.inferred, ht.entries⟩
    · intro E hE
      refine ⟨fun o ts ho ↦ hE.entries o ts ?_, fun _ ↦ ⟨s.inferred, hE.entries _ _ ?_, Nat.le_refl _⟩⟩
      · have hne : o ≠ start := by
          rintro rfl
          rw [hnone] at ho
          cases ho
        rw [List.lookup_cons, beq_eq_false_iff_ne.mpr hne]
        exact ho
      · simp
    · intro E n hE hn
      simp only [Depth, hi, if_true] at hn
      obtain ⟨ts, hts, hn⟩ := hn
      rw [hE.entries start s.inferred (by simp)] at hts
      cases hts
      rw [hentry, List.length_nil]
      omega

theorem sameShape_code {site : Site} {ts ts' : List Ty} {r : Bool} (h : Coding fill fn u F)
    (he : Lowers (sameShape ts ts') site s u r s' u') (b : Nat) (hts : ∀ t ∈ ts, t = int32)
    (hts' : ∀ t ∈ ts', t = int32) : s' = s ∧ (r = true → ts.length = ts'.length) ∧ Growth fill fn b u F u' F := by
  induction ts generalizing ts' u with
  | nil =>
    cases ts' with
    | nil =>
      rw [sameShape, Lowers.pure_iff] at he
      obtain ⟨rfl, rfl, rfl⟩ := he
      exact ⟨rfl, fun _ ↦ rfl, .refl h b⟩
    | cons =>
      rw [sameShape, Lowers.pure_iff] at he
      · obtain ⟨rfl, rfl, rfl⟩ := he
        exact ⟨rfl, nofun, .refl h b⟩
      all_goals simp
  | cons t ts ih =>
    cases ts' with
    | nil =>
      rw [sameShape, Lowers.pure_iff] at he
      · obtain ⟨rfl, rfl, rfl⟩ := he
        exact ⟨rfl, nofun, .refl h b⟩
      all_goals simp
    | cons t' ts' =>
      rw [List.forall_mem_cons] at hts hts'
      simp only [sameShape, hts.1, hts'.1, Lowers.bind_iff] at he
      obtain ⟨x, _, _, he₁, y, _, _, he₂, he₃⟩ := he
      obtain ⟨rfl, rfl, hg₁⟩ := counterpart_code h he₁ b
      obtain ⟨rfl, rfl, hg₂⟩ := counterpart_code hg₁.coding he₂ b
      rw [if_pos rfl] at he₃
      obtain ⟨rfl, hlen, hg₃⟩ := ih hg₂.coding he₃ hts.2 hts'.2
      exact ⟨rfl, fun hr ↦ congrArg Nat.succ (hlen hr), (hg₁.trans hg₂).trans hg₃⟩

theorem recordEntry_code {site : Site} {shape : List Ty} {o : Nat} {x : Unit} (h : Coding fill fn u F)
    (he : Lowers (recordEntry shape o) site s u x s' u') (ht : Tidy plan fn b start s) (hi : s.inferring = false)
    (hshape : ∀ t ∈ shape, t = int32) :
    s'.pending = s.pending ∧ s'.inferring = false ∧ Tidy plan fn b start s' ∧ Toward start s s' ∧
      Growth fill fn b u F u' F ∧ ∀ {E}, Before E start s' → ∃ ts, E.lookup o = some ts ∧ ts.length = shape.length := by
  unfold recordEntry at he
  simp only [Lowers.bind_iff, Lowers.getThe_iff] at he
  obtain ⟨_, _, _, ⟨rfl, rfl, rfl⟩, he⟩ := he
  cases ho : s.entries.lookup o with
  | none =>
    simp only [ho, Lowers.set_iff] at he
    obtain ⟨rfl, rfl⟩ := he
    refine ⟨rfl, hi, ⟨ht.own, ht.block, ht.pending, ht.entry, ht.inferred, ?_, ?_⟩, ?_, .refl h b, ?_⟩
    · exact List.forall_mem_cons.mpr ⟨hshape, ht.entries⟩
    · intro hi'
      rw [show s.inferring = true from hi'] at hi
      cases hi
    · intro E hE
      refine ⟨fun o' ts ho' ↦ hE.entries o' ts ?_, hE.inferred⟩
      have hne : o' ≠ o := by
        rintro rfl
        rw [ho] at ho'
        cases ho'
      rw [List.lookup_cons, beq_eq_false_iff_ne.mpr hne]
      exact ho'
    · exact fun hE ↦ ⟨shape, hE.entries o shape (by simp), rfl⟩
  | some known =>
    simp only [ho, Lowers.bind_iff] at he
    obtain ⟨r, _, _, he, hret⟩ := he
    have hknown : ∀ t ∈ known, t = int32 := by
      obtain ⟨l₁, l₂, heq, -⟩ := List.lookup_eq_some_iff.mp ho
      exact ht.entries (o, known) (by rw [heq]; simp)
    obtain ⟨rfl, hlen, hg⟩ := sameShape_code h he b hknown hshape
    cases r with
    | false => exact absurd hret Lowers.throw_iff
    | true =>
      simp only [Bool.not_true, Bool.false_eq_true, if_false, Lowers.pure_iff] at hret
      obtain ⟨-, rfl, rfl⟩ := hret
      exact ⟨rfl, hi, ht, .refl start _, hg, fun hE ↦ ⟨known, hE.entries o known ho, hlen rfl⟩⟩

theorem recordEntries_code {site : Site} {shape : List Ty} {os : List Nat} {x : PUnit} (h : Coding fill fn u F)
    (he : Lowers (os.forM (recordEntry shape)) site s u x s' u') (ht : Tidy plan fn b start s)
    (hi : s.inferring = false) (hshape : ∀ t ∈ shape, t = int32) :
    s'.pending = s.pending ∧ Tidy plan fn b start s' ∧ Toward start s s' ∧ Growth fill fn b u F u' F ∧
      ∀ {E}, Before E start s' → ∀ o ∈ os, ∃ ts, E.lookup o = some ts ∧ ts.length = shape.length := by
  induction os generalizing s u with
  | nil =>
    rw [List.forM, Lowers.pure_iff] at he
    obtain ⟨-, rfl, rfl⟩ := he
    exact ⟨rfl, ht, .refl start s, .refl h b, nofun⟩
  | cons o os ih =>
    rw [List.forM, Lowers.bind_iff] at he
    obtain ⟨_, s₁, _, he₁, he₂⟩ := he
    obtain ⟨hp₁, hi₁, ht₁, htoward₁, hg₁, ho⟩ := recordEntry_code h he₁ ht hi hshape
    obtain ⟨hp₂, ht₂, htoward₂, hg₂, hos⟩ := ih hg₁.coding he₂ ht₁ hi₁
    refine ⟨hp₂.trans hp₁, ht₂, htoward₁.trans htoward₂, hg₁.trans hg₂, ?_⟩
    exact fun hE ↦ List.forall_mem_cons.mpr ⟨ho (htoward₂ _ hE), hos hE⟩

theorem operandSizes_code {site : Site} {ts : List Ty} {ns : List Int} (h : Coding fill fn u F)
    (he : Lowers (ts.mapM operandSize) site s u ns s' u') (b : Nat) (hts : ∀ t ∈ ts, t = int32) :
    s' = s ∧ ns.foldr (· + ·) (0 : Int) = 4 * ts.length ∧ Growth fill fn b u F u' F := by
  induction ts generalizing u ns with
  | nil =>
    rw [List.mapM_nil, Lowers.pure_iff] at he
    obtain ⟨rfl, rfl, rfl⟩ := he
    exact ⟨rfl, rfl, .refl h b⟩
  | cons t ts ih =>
    rw [List.forall_mem_cons] at hts
    simp only [List.mapM_cons, hts.1, operandSize, Lowers.bind_iff, Lowers.pure_iff] at he
    obtain ⟨n, _, _, ⟨c, _, _, he₁, he₂⟩, ns, _, _, he₃, rfl, rfl, rfl⟩ := he
    obtain ⟨rfl, rfl, hg₁⟩ := counterpart_code h he₁ b
    obtain ⟨rfl, hsize⟩ := Lowers.compile_iff.mp he₂
    obtain ⟨rfl, hg₂⟩ := sizeOf_int32 hg₁.coding b hsize
    obtain ⟨rfl, hsum, hg₃⟩ := ih hg₂.coding he₃ hts.2
    refine ⟨rfl, ?_, (hg₁.trans hg₂).trans hg₃⟩
    rw [List.foldr_cons, hsum, List.length_cons]
    push_cast
    omega

theorem flush_code {site : Site} {os : List Nat} {x : Unit} (h : Coding fill fn u F)
    (he : Lowers (flush start os) site s u x s' u') (hsite : Planned plan fn site) (ht : Tidy plan fn b start s) :
    Tidy plan fn b start s' ∧ Toward start s s' ∧ ∃ F', Growth fill fn b u F u' F' ∧
      ∀ {args E σ₀ σ stack xs ys}, Before E start s' → Runs F fill args b σ₀ σ →
        Rep plan fn args E start s σ stack xs ys →
        ∃ σ', Runs F' fill args b σ₀ σ' ∧ Later plan.carriers σ σ' ∧ Stored plan σ' stack xs ys ∧
          ∀ o ∈ os, ∃ ts, E.lookup o = some ts ∧ ts.length = stack.length := by
  unfold flush at he
  simp only [Lowers.bind_iff, Lowers.getThe_iff, Lowers.modifyThe_iff] at he
  obtain ⟨_, s₁, _, he₁, _, _, _, ⟨rfl, rfl, rfl⟩, ns, _, _, he₂, above, _, _, he₃, _, _, _, ⟨rfl, rfl⟩, he₄⟩ := he
  obtain ⟨rfl, hpend, hentry, hi, ht₁, htoward₁, hdepth⟩ := settleEntry_code (Lowers.emit_iff.mp he₁) ht
  obtain ⟨rfl, hsum, hg₂⟩ := operandSizes_code h he₂ b fun t hmem ↦ ht₁.entry t (List.mem_reverse.mp hmem)
  obtain ⟨⟨n, rfl⟩, rfl, F', hg₃, hrun⟩ := pushAll_code hg₂.coding he₃ hsite ht₁.own ht₁.block
    fun v hv ↦ ht₁.pending v (List.mem_reverse.mp hv)
  obtain ⟨-, ht₄, htoward₄, hg₄, hos⟩ := recordEntries_code hg₃.coding he₄ (ht₁.pend [] nofun).count hi (by
    intro t hmem
    rcases List.mem_append.mp hmem with hmem | hmem
    · exact ht₁.entry t (List.mem_reverse.mp hmem)
    · obtain ⟨_, -, rfl⟩ := List.mem_map.mp hmem
      rfl)
  have htoward := ((toward_pend []).trans (toward_count n)).trans htoward₄
  refine ⟨ht₄, htoward₁.trans htoward, F', (hg₂.trans hg₃).trans hg₄, ?_⟩
  intro args E σ₀ σ stack xs ys hE hr hrep
  obtain ⟨top, low, rfl, htop, hst, hlow⟩ := hrep.split
  have hlow := hdepth (htoward E hE) hlow
  rw [← hpend] at htop
  obtain ⟨σ', hr', hl, hst'⟩ := hrun hr hst (List.rel_reverse htop) (by rw [hsum, hlow, List.length_reverse, hentry])
  rw [List.reverse_reverse] at hst'
  refine ⟨σ', hr', hl, hst', ?_⟩
  intro o ho
  obtain ⟨ts, hts, hlen⟩ := hos hE o ho
  refine ⟨ts, hts, ?_⟩
  rw [hlen, List.length_append, List.length_append, hlow, ← hentry]
  simp [htop.length_eq, Nat.add_comm]

end

end CilSsa.Lowering

