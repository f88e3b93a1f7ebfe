import CilSsa.Proofs.SlotOperands
import CilSsa.Proofs.FrameSetup

namespace CilSsa.Lowering

open CilSsa.Bytecode CilSsa.Metadata
open CilSsa.Ssa (FuncId Function Value)

def Operand.At (w : Operand) (d : Nat) (pending : List Operand) : Prop :=
  ∃ j, pending[j]? = some w ∧ j + d + 1 = pending.length

/-- Since its code was `F`, block `b` got the instructions `ks`, which spare the slot `p`, and then `rest`. -/
structure Spared (fn : FuncId) (top p : Value) (b : Nat) (F F' : Function) (ks rest : List Nat) : Prop where
  code : Appends (fun _ _ ↦ True) b F F' (ks ++ rest)
  spares : ∀ k ∈ ks, Spares fn top p F' k

/-- What became of an operand for a slot that was pushed when the code was `F`: it waits, or was read by an instruction
until which the slot was spared. -/
inductive Awaits (fn : FuncId) (top : Value) (b : Nat) (F F' : Function) (v : Operand) : Operand → Prop
  | waiting {ks : List Nat} : Spared fn top v.value b F F' ks [] → Awaits fn top b F F' v v
  | read {ks rest : List Nat} {k : Nat} : Spared fn top v.value b F F' ks (k :: rest) → ReadsSlot F' k v.value →
      Awaits fn top b F F' v (v.readBy fn k)

/-- An operand for a slot was read in time: all code spares the slot, or all up to an instruction that reads it. -/
def ReadInTime (fn : FuncId) (top p : Value) (b : Nat) (F F' : Function) : Prop :=
  ∃ ks rest, Spared fn top p b F F' ks rest ∧ ∀ k ∈ rest.head?, ReadsSlot F' k p

section

variable {fn : FuncId} {top p : Value} {b d n : Nat} {F F' F'' : Function} {ks ks' rest : List Nat} {v w : Operand}
  {site : Site} {s s' : Stage} {u u' : CompilationUnit}

theorem Operand.At.replaced {pending new : List Operand} (h : w.At d pending) (hn : d + n < pending.length) :
    w.At d (new ++ pending.drop n) := by
  obtain ⟨j, hj, hd⟩ := h
  refine ⟨new.length + (j - n), ?_, ?_⟩
  · rw [List.getElem?_append_right (by omega), List.getElem?_drop, ← hj]
    congr 1
    omega
  · rw [List.length_append, List.length_drop]
    omega

theorem Operand.At.related {R : Operand → Operand → Prop} {vs ws : List Operand} (h : v.At d vs)
    (hR : List.Forall₂ R vs ws) : ∃ w, R v w ∧ w.At d ws := by
  obtain ⟨j, hj, hd⟩ := h
  obtain ⟨hlt, rfl⟩ := List.getElem?_eq_some_iff.mp hj
  have hlt' : j < ws.length := hR.length_eq ▸ hlt
  exact ⟨ws[j], hR.get hlt hlt', j, List.getElem?_eq_getElem hlt', hR.length_eq ▸ hd⟩

theorem Spared.refl : Spared fn top p b F F [] [] := ⟨.refl _ b F, nofun⟩

theorem Spared.more (h : Spared fn top p b F F' ks []) (hmore : Appends (Spares fn top p) b F' F'' ks') :
    Spared fn top p b F F'' (ks ++ ks') [] := by
  have hcode := h.code
  rw [List.append_nil] at hcode
  refine ⟨?_, List.forall_mem_append.mpr ⟨fun k hk ↦ (h.spares k hk).mono hmore.earlier, hmore.each⟩⟩
  rw [List.append_nil]
  exact hcode.trans (fun _ _ ↦ trivial) ⟨hmore.earlier, hmore.block, fun _ _ ↦ trivial⟩

theorem Spared.then (h : Spared fn top p b F F' ks rest) (hmore : Appends (fun _ _ ↦ True) b F' F'' ks') :
    Spared fn top p b F F'' ks (rest ++ ks') := by
  refine ⟨?_, fun k hk ↦ (h.spares k hk).mono hmore.earlier⟩
  rw [← List.append_assoc]
  exact h.code.trans (fun _ _ ↦ trivial) hmore

theorem Appends.weaken {Q : Function → Nat → Prop} (h : Appends Q b F F' ks) : Appends (fun _ _ ↦ True) b F F' ks :=
  ⟨h.earlier, h.block, fun _ _ ↦ trivial⟩

theorem Awaits.quiet (h : Awaits fn top b F F' v w) (hmore : Appends (Spares fn top v.value) b F' F'' ks') :
    Awaits fn top b F F'' v w := by
  cases h with
  | waiting hs => exact .waiting (hs.more hmore)
  | read hs hread => exact .read (hs.then hmore.weaken) (hread.mono hmore.earlier)

theorem Awaits.settled {w' : Operand} (hslot : v.slot = true) (h : Awaits fn top b F F' v w)
    (hmore : Appends (Spares fn top v.value) b F' F'' ks') (hw : SettledAs fn F'' ks' w w') :
    ∃ ks k rest, w' = v.readBy fn k ∧ Spared fn top v.value b F F'' ks (k :: rest) ∧ ReadsSlot F'' k v.value := by
  cases h with
  | @waiting ks hs =>
    cases hw with
    | kept hno =>
      rw [hslot] at hno
      cases hno
    | @read k _ hk hread =>
      obtain ⟨before, after, rfl⟩ := List.append_of_mem hk
      have hcode := (hs.more hmore).code
      rw [List.append_nil, ← List.append_assoc] at hcode
      refine ⟨ks ++ before, k, after, rfl, ⟨hcode, ?_⟩, hread⟩
      refine List.forall_mem_append.mpr ⟨fun j hj ↦ (hs.spares j hj).mono hmore.earlier, fun j hj ↦ ?_⟩
      exact hmore.each j (List.mem_append_left _ hj)
  | @read ks rest k hs hread =>
    cases hw with
    | kept => exact ⟨ks, k, rest ++ ks', rfl, hs.then hmore.weaken, hread.mono hmore.earlier⟩
    | read hslot' => cases hslot'

theorem Awaits.inTime (h : Awaits fn top b F F' v w) : ReadInTime fn top v.value b F F' := by
  cases h with
  | waiting hs => exact ⟨_, _, hs, nofun⟩
  | read hs hread =>
    refine ⟨_, _, hs, ?_⟩
    rintro k ⟨⟩
    exact hread

end

/-! ### From the push to the instruction that takes the operand -/

/-- Instruction `i` pushes the operand `v` for the slot of a local or an argument. -/
def LoadsSlot (site : Site) (i : Instruction) (v : Operand) : Prop := v.slot = true ∧ ∃ n : Int, 0 ≤ n ∧
  (action i = .loadLocal n ∧ site.locals[n.toNat]? = some v ∨ action i = .loadArg n ∧ site.args[n.toNat]? = some v)

/-- At the stage `s₀` an instruction pushed the operand `v` for a slot, and none that was lowered since then took it or
ended the block. -/
inductive Pends (site : Site) (start : Nat) (s₀ : Stage) (u₀ : CompilationUnit) (v : Operand) :
    Stage → CompilationUnit → Prop
  | pushed {i : Instruction} {s : Stage} {u : CompilationUnit} : LoadsSlot site i v →
      Lowers (lower start i) site s₀ u₀ ⟨⟩ s u → Pends site start s₀ u₀ v s u
  | passed {i : Instruction} {n : Nat} {s s' : Stage} {u u' : CompilationUnit} : Pends site start s₀ u₀ v s u →
      Takes site s u i n → s₀.pending.length + n < s.pending.length → Lowers (lower start i) site s u ⟨⟩ s' u' →
      Pends site start s₀ u₀ v s' u'

section

variable {fn : FuncId} {b n start : Nat} {F : Function} {v w : Operand} {i : Instruction} {site : Site}
  {s₀ s s' : Stage} {u₀ u u' : CompilationUnit}

theorem loadsSlot_pushes (h : LoadsSlot site i v) (he : Lowers (lower start i) site s u ⟨⟩ s' u') :
    s' = { s with pending := v :: s.pending } ∧ u' = u := by
  obtain ⟨-, n, -, ⟨hi, hv⟩ | ⟨hi, hv⟩⟩ := h
  all_goals
    unfold lower at he
    rw [hi] at he
    obtain ⟨w, s₁, u₁, hslot, hpush⟩ := Lowers.bind_iff.mp he
    obtain ⟨_, _, _, hread, hslot⟩ := Lowers.bind_iff.mp hslot
    obtain ⟨rfl, rfl, rfl⟩ := Lowers.read_iff.mp hread
    obtain ⟨rfl, rfl, -, hw⟩ := slotNumbered_code hslot
    obtain ⟨rfl, rfl⟩ := Emits.modify_iff.mp (Lowers.emit_iff.mp hpush)
    cases hv.symm.trans hw
    exact ⟨rfl, rfl⟩

theorem Takes.settles_or (hsite : site.Leaves fn) (ht : Takes site s u i n)
    (he : Lowers (lower start i) site s u ⟨⟩ s' u') (hfn : s.fn = fn) (hb : s.block = b) (hF : Houses fn F u) :
    (∀ top x, Settles fn b top x n s F s' u') ∨ (action i).settles = false ∧ Replaces site n (lower start i) := by
  cases ht with
  | fixed htakes =>
    cases hset : (action i).settles with
    | false => exact .inr ⟨rfl, replaces_lower htakes hset⟩
    | true => exact .inl fun top x ↦ settling_lower hsite htakes hset _ _ _ _ _ _ F he hfn hb hF
  | called hi hm =>
    unfold lower at he
    rw [hi] at he
    exact .inl fun top x ↦ call_settles hsite hm he hfn hb hF
  | made hi hm =>
    unfold lower at he
    rw [hi] at he
    exact .inl fun top x ↦ newObject_settles hsite hm he hfn hb hF

theorem Takes.keeps (hsite : site.Leaves fn) (ht : Takes site s u i n) (he : Lowers (lower start i) site s u ⟨⟩ s' u')
    (hfn : s.fn = fn) (hb : s.block = b) (hF : Houses fn F u) : s'.fn = fn ∧ s'.block = b := by
  rcases ht.settles_or hsite he hfn hb hF with h | ⟨-, h⟩
  · exact ⟨(h site.top site.top).own, (h site.top site.top).block⟩
  · obtain ⟨hfn', hb', -⟩ := h _ _ _ _ _ he
    exact ⟨hfn'.trans hfn, hb'.trans hb⟩

theorem Awaits.lower (hsite : site.Leaves fn) (hslot : v.slot = true) {F₀ : Function} {d : Nat} (hb0 : b ≠ 0)
    (hfit : Fitted fn site.top v.value F) (hfn : s.fn = fn) (hb : s.block = b) (hF : Houses fn F u)
    (h : Awaits fn site.top b F₀ F v w) (hat : w.At d s.pending) (ht : Takes site s u i n)
    (hn : d + n < s.pending.length) (he : Lowers (lower start i) site s u ⟨⟩ s' u') :
    ∃ F' w', Houses fn F' u' ∧ F.Earlier F' ∧ Awaits fn site.top b F₀ F' v w' ∧ w'.At d s'.pending := by
  rcases ht.settles_or hsite he hfn hb hF with hsettles | ⟨hset, hreplaces⟩
  · obtain ⟨-, -, F₁, ks, ws, new, happ, hws, ⟨F', hF', hgrew⟩, hnew⟩ := hsettles site.top v.value
    obtain ⟨ks', hmore⟩ := hgrew b
    obtain ⟨w', hw, hat'⟩ := hat.related hws
    obtain ⟨ks₁, k, rest, rfl, hspared, hread⟩ := h.settled hslot happ hw
    refine ⟨F', _, hF', happ.earlier.trans hmore.earlier, .read (hspared.then hmore) (hread.mono hmore.earlier), ?_⟩
    rw [hnew]
    exact hat'.replaced (hws.length_eq ▸ hn)
  · obtain ⟨-, -, new, hnew⟩ := hreplaces _ _ _ _ _ he
    obtain ⟨-, -, F', ks, hF', happ, -⟩ := sparing_lower hsite start i hset _ _ _ _ _ F he hfn hb hb0 hF hfit trivial
    refine ⟨F', w, hF', happ.earlier, h.quiet happ, ?_⟩
    rw [hnew]
    exact hat.replaced hn

theorem Pends.awaits (hsite : site.Leaves fn) (hslot : v.slot = true) (hb0 : b ≠ 0) (hfn : s₀.fn = fn)
    (hb : s₀.block = b) (hF : Houses fn F u₀) (hfit : Fitted fn site.top v.value F) (h : Pends site start s₀ u₀ v s u) :
    s.fn = fn ∧ s.block = b ∧ ∃ F' w, Houses fn F' u ∧ F.Earlier F' ∧ Awaits fn site.top b F F' v w ∧
      w.At s₀.pending.length s.pending := by
  induction h with
  | pushed hload he =>
    obtain ⟨rfl, rfl⟩ := loadsSlot_pushes hload he
    exact ⟨hfn, hb, F, v, hF, .refl F, .waiting .refl, 0, rfl, by rw [Nat.zero_add]; rfl⟩
  | passed _ ht hn he ih =>
    obtain ⟨hfn₁, hb₁, F₁, w, hF₁, hearlier, hw, hat⟩ := ih
    obtain ⟨hfn₂, hb₂⟩ := ht.keeps hsite he hfn₁ hb₁ hF₁
    obtain ⟨F₂, w', hF₂, hearlier', hw', hat'⟩ := hw.lower hsite hslot hb0 (hfit.mono hearlier) hfn₁ hb₁
      hF₁ hat ht hn he
    exact ⟨hfn₂, hb₂, F₂, w', hF₂, hearlier.trans hearlier', hw', hat'⟩

theorem lower_settles {top x : Value} (hsite : site.Leaves fn) (h : (action i).settles = true)
    (he : Lowers (lower start i) site s u ⟨⟩ s' u') (hfn : s.fn = fn) (hb : s.block = b) (hF : Houses fn F u) :
    ∃ n, Settles fn b top x n s F s' u' := by
  cases htakes : (action i).takes? with
  | some n => exact ⟨n, settling_lower hsite htakes h _ _ _ _ _ _ F he hfn hb hF⟩
  | none =>
    unfold lower at he
    cases hi : action i with
    | call =>
      rw [hi] at he
      obtain ⟨m, s₁, u₁, hm, -⟩ := Lowers.bind_iff.mp he
      exact ⟨_, call_settles hsite hm he hfn hb hF⟩
    | newObject =>
      rw [hi] at he
      obtain ⟨m, s₁, u₁, hm, -⟩ := Lowers.bind_iff.mp he
      exact ⟨_, newObject_settles hsite hm he hfn hb hF⟩
    | _ =>
      rw [hi] at h htakes
      first | cases h; done | cases htakes

/-- What takes an operand: an instruction, or the end of a block that falls through. -/
inductive Taking (site : Site) (start : Nat) (s : Stage) (u : CompilationUnit) (s' : Stage)
    (u' : CompilationUnit) : Prop
  | instruction {i : Instruction} : Lowers (lower start i) site s u ⟨⟩ s' u' → Taking site start s u s' u'
  | flush {successors : List Nat} : Lowers (flush start successors) site s u ⟨⟩ s' u' → Taking site start s u s' u'

theorem Pends.inTime (hsite : site.Leaves fn) (hb0 : b ≠ 0) (hslot : v.slot = true) (hfn : s₀.fn = fn)
    (hb : s₀.block = b) (hF : Houses fn F u₀) (hfit : Fitted fn site.top v.value F) (h : Pends site start s₀ u₀ v s u)
    (ht : Taking site start s u s' u') : ∃ F', Houses fn F' u' ∧ ReadInTime fn site.top v.value b F F' := by
  obtain ⟨hfn₁, hb₁, F₁, w, hF₁, hearlier, hw, hat⟩ := h.awaits hsite hslot hb0 hfn hb hF hfit
  have hquiet : ∀ {c : Lower Unit}, SparingAt fn v.value b site c → Lowers c site s u ⟨⟩ s' u' →
      ∃ F', Houses fn F' u' ∧ ReadInTime fn site.top v.value b F F' := by
    intro c hc he
    obtain ⟨-, -, F', ks, hF', happ, -⟩ := hc _ _ _ _ _ F₁ he hfn₁ hb₁ hb0 hF₁ (hfit.mono hearlier) trivial
    exact ⟨F', hF', (hw.quiet happ).inTime⟩
  cases ht with
  | flush he => exact hquiet (sparing_flush hsite _ _) he
  | @instruction i he =>
    cases hset : (action i).settles with
    | false => exact hquiet (sparing_lower hsite start i hset) he
    | true =>
      obtain ⟨n, hsettles⟩ := @lower_settles _ _ _ _ _ _ _ _ _ _ site.top v.value hsite hset he hfn₁ hb₁ hF₁
      obtain ⟨F₂, ks, ws, new, happ, hws, ⟨F', hF', hgrew⟩, -⟩ := hsettles.read
      obtain ⟨ks', hmore⟩ := hgrew b
      obtain ⟨w', hw', -⟩ := hat.related hws
      obtain ⟨ks₁, k, rest, rfl, hspared, hread⟩ := hw.settled hslot happ hw'
      exact ⟨F', hF', (Awaits.read (hspared.then hmore) (hread.mono hmore.earlier)).inTime⟩

end

end CilSsa.Lowering

/-!
The stages that the lowering of a body goes through. The block before all others gives each local, and each argument
that is no reference, a slot of its own, apart from that of the top of the run-time stack; and so it is at every later
stage.
-/

namespace CilSsa.Lowering

open CilSsa.Bytecode CilSsa.Metadata
open CilSsa.Ssa (FuncId Function Value)

def prepare (world : Universe) (compile : Method → Compile FuncId) (m : Method) (body : Body)
    (args : List Ty) (f : Function) (spans : List Bytecode.Span) : Emit Site := do
  let top ← makeBuffer (bufferSize body.maxStack)
  let args ← args.zipIdx.mapM fun (t, i) ↦ bindArgument f t i
  let locals ← body.locals.zipIdx.mapM fun (t, i) ↦ bindLocal world t i
  return { world, method := m, spans, args, locals, top, capacity := bufferSize body.maxStack, compile }

def addBlocks (fn : FuncId) (names : List String) : Compile PUnit := names.forM fun name ↦ do
  let _ ← onModule fun module ↦ module.addBlock fn name

section

variable (world : Universe) (compile : Method → Compile FuncId) (m : Method) (body : Body)
  (args : List Ty) (f : Function) (u : CompilationUnit)

/-- The stages between the blocks, from the one after the set-up on. -/
inductive Between : Site → Stage → CompilationUnit → Prop
  | prepared {spans : List Bytecode.Span} {site : Site} {s : Stage} {u₁ u₂ : CompilationUnit} :
      discoverBlocks body.code = .ok spans →
      Compiles (addBlocks f.id ("init" :: spans.map fun sp ↦ offsetLabel sp.start)) u ⟨⟩ u₁ →
      Emits (prepare world compile m body args f spans) { fn := f.id } u₁ site s u₂ → Between site s u₂
  | block {site : Site} {s s' : Stage} {u₁ u₂ : CompilationUnit} {k : Nat} {sp : Bytecode.Span} : Between site s u₁ →
      site.spans[k]? = some sp → Lowers (lowerTraced (k + 1) sp) site s u₁ ⟨⟩ s' u₂ → Between site s' u₂

/-- The stages in the block of span number `k`, when so many of its instructions are lowered and none of them ended it.
-/
inductive Midway (site : Site) (k : Nat) (sp : Bytecode.Span) : Nat → Stage → CompilationUnit → Prop
  | opened {s : Stage} {u₁ : CompilationUnit} {t : Trace.Tracing} : Between world compile m body args f u site s u₁ →
      site.spans[k]? = some sp → Midway site k sp 0 (opened s (k + 1) sp.start) { u₁ with tracing := t }
  | instruction {n c : Nat} {i : Instruction} {s s' : Stage} {u₁ u₂ : CompilationUnit} : Midway site k sp n s u₁ →
      sp.instrs[n]? = some i → Takes site s u₁ i c → Lowers (lower sp.start i) site s u₁ ⟨⟩ s' u₂ →
      Midway site k sp (n + 1) s' u₂

end

/-! ### Setting up -/

section

variable {α β : Type} {fn : FuncId} {P : Function → Prop} {R : α → Function → Prop} {S : β → Function → Prop}
  {F F' : Function} {top : Value}

variable (fn) in
/-- In code with `P` something is set up that makes the code grow, and gives a value as `R` has it. -/
def Setting (P : Function → Prop) (c : Emit α) (R : α → Function → Prop) : Prop :=
  ∀ s u a s' u' F, Emits c s u a s' u' → s.fn = fn → Houses fn F u → P F →
    s'.fn = fn ∧ ∃ F', Houses fn F' u' ∧ Outgrows F F' ∧ R a F'

theorem Setting.bind {c : Emit α} {f : α → Emit β} (hc : Setting fn P c R) (hf : ∀ a, Setting fn (R a) (f a) S) :
    Setting fn P (c >>= f) S := by
  intro s u b s' u' F he hfn hF hP
  obtain ⟨a, s₁, u₁, h₁, h₂⟩ := Emits.bind_iff.mp he
  obtain ⟨hfn₁, F₁, hF₁, hgrew, hR⟩ := hc _ _ _ _ _ F h₁ hfn hF hP
  obtain ⟨hfn₂, F₂, hF₂, hgrew', hS⟩ := hf a _ _ _ _ _ F₁ h₂ hfn₁ hF₁ hR
  exact ⟨hfn₂, F₂, hF₂, hgrew.trans hgrew', hS⟩

theorem Setting.pure {a : α} (h : ∀ F, P F → R a F) : Setting fn P (pure a) R := by
  intro s u a' s' u' F he hfn hF hP
  obtain ⟨rfl, rfl, rfl⟩ := Emits.pure_iff.mp he
  exact ⟨hfn, F, hF, .refl F, h F hP⟩

theorem Setting.safe {c : Emit α} (hP : ∀ {F F'}, Outgrows F F' → P F → P F')
    (hc : ∀ F, Safe (Lengthened fn F) (fun _ ↦ True) fn c) : Setting fn P c fun _ ↦ P := by
  intro s u a s' u' F he hfn hF hPF
  obtain ⟨hfn', F', hF', hgrew⟩ := (hc F s hfn u ⟨F, hF, .refl F⟩).1 (a, s') u' he
  exact ⟨hfn', F', hF', hgrew, hP hgrew hPF⟩

theorem Setting.mapM {f : α → Emit β} (as : List α) (hS : ∀ {b F F'}, Outgrows F F' → S b F → S b F')
    (hf : ∀ a, Setting fn P (f a) fun b F ↦ P F ∧ S b F) :
    Setting fn P (as.mapM f) fun bs F ↦ P F ∧ ∀ b ∈ bs, S b F := by
  induction as with
  | nil => exact .pure fun F hF ↦ ⟨hF, nofun⟩
  | cons a as ih =>
    rw [List.mapM_cons]
    intro s u bs s' u' F he hfn hF hPF
    obtain ⟨b, s₁, u₁, h₁, he⟩ := Emits.bind_iff.mp he
    obtain ⟨bs', s₂, u₂, h₂, he⟩ := Emits.bind_iff.mp he
    obtain ⟨rfl, rfl, rfl⟩ := Emits.pure_iff.mp he
    obtain ⟨hfn₁, F₁, hF₁, hgrew, hP₁, hb⟩ := hf a _ _ _ _ _ F h₁ hfn hF hPF
    obtain ⟨hfn₂, F₂, hF₂, hgrew', hP₂, hbs⟩ := ih _ _ _ _ _ F₁ h₂ hfn₁ hF₁ hP₁
    exact ⟨hfn₂, F₂, hF₂, hgrew.trans hgrew', hP₂, List.forall_mem_cons.mpr ⟨hS hgrew' hb, hbs⟩⟩

theorem Fitted.outgrows {p : Value} (hF : Outgrows F F') (h : Fitted fn top p F) : Fitted fn top p F' :=
    h.mono hF.earlier

theorem setting_slotFor (t : Ssa.Ty) (name : String) : Setting fn (fun F ↦ IsSlot fn F top .bytePointer)
    (slotFor t name) fun p F ↦ IsSlot fn F top .bytePointer ∧ Fitted fn top p F := by
  intro s u p s' u' F he hfn hF htop
  subst hfn
  obtain ⟨rfl, rfl, hF'⟩ := emitAt_inv he hF
  have hgrew := outgrows_append F 0 (.alloca t name)
  have hcursor := htop.mono hgrew.earlier
  refine ⟨rfl, _, hF', hgrew, hcursor, ⟨⟨t, _, _, rfl, append_found _, rfl, rfl, rfl⟩, hcursor, ?_⟩⟩
  obtain ⟨k, i, rfl, hi, -⟩ := htop
  intro heq
  cases heq
  have := (Array.getElem?_eq_some_iff.mp hi).1
  omega

theorem setting_makeBuffer (n : Int) : Setting fn (fun _ ↦ True) (makeBuffer n) fun p F ↦
    IsSlot fn F p .bytePointer := by
  refine Setting.bind (.safe (fun _ h ↦ h) fun F ↦ by grind) fun c ↦
    .bind (.safe (fun _ h ↦ h) fun F ↦ Growable.safe_emitAt 0 _) fun b ↦ ?_
  refine Setting.bind (R := fun p F ↦ IsSlot fn F p .bytePointer) ?_ fun p ↦ ?_
  · intro s u p s' u' F he hfn hF _
    subst hfn
    obtain ⟨rfl, rfl, hF'⟩ := emitAt_inv he hF
    exact ⟨rfl, _, hF', outgrows_append F 0 _, _, _, rfl, append_found _, rfl, rfl, rfl⟩
  · refine Setting.bind (.safe (fun hF h ↦ h.mono hF.earlier) fun F ↦ by grind) fun _ ↦ .pure fun F h ↦ h

def SlotIn (fn : FuncId) (top : Value) (v : Operand) (F : Function) : Prop := v.slot = true → Fitted fn top v.value F

theorem setting_bindArgument (f : Function) (t : Ty) (i : Nat) : Setting fn (fun F ↦ IsSlot fn F top .bytePointer)
    (bindArgument f t i) fun v F ↦ IsSlot fn F top .bytePointer ∧ SlotIn fn top v F := by
  unfold bindArgument
  dsimp only
  split
  · exact .pure fun F h ↦ ⟨h, nofun⟩
  refine (setting_slotFor _ _).bind fun p ↦ .bind (.safe ?_ fun F ↦ by grind) fun _ ↦ .pure fun F h ↦ ⟨h.1, fun _ ↦ h.2⟩
  exact fun hF h ↦ ⟨h.1.mono hF.earlier, h.2.outgrows hF⟩

theorem setting_bindLocal {world : Universe} (hworld : ∀ t, Leaves fn (codeType world t)) (t : Ty) (i : Nat) :
    Setting fn (fun F ↦ IsSlot fn F top .bytePointer) (bindLocal world t i)
      fun v F ↦ IsSlot fn F top .bytePointer ∧ SlotIn fn top v F := by
  have hkeep : ∀ {F F'}, Outgrows F F' → IsSlot fn F top .bytePointer → IsSlot fn F' top .bytePointer :=
    fun hF h ↦ h.mono hF.earlier
  unfold bindLocal
  refine Setting.bind (.safe hkeep fun F ↦ .lift (Spec.adapt ?_)) fun c ↦ ?_
  · split
    · exact (hworld t.elem).lengthened.bind fun _ ↦ .pure fun _ hu ↦ hu
    · exact (hworld t).lengthened
  refine Setting.bind (.safe hkeep fun F ↦ .lift (Spec.adapt (spec_sizeOf c))) fun n ↦ ?_
  refine (setting_slotFor _ _).bind fun p ↦ .bind (.safe ?_ fun F ↦ by grind) fun _ ↦ .pure fun F h ↦ ⟨h.1, fun _ ↦ h.2⟩
  exact fun hF h ↦ ⟨h.1.mono hF.earlier, h.2.outgrows hF⟩

theorem setting_prepare {world : Universe} (hworld : ∀ t, Leaves fn (codeType world t))
    (compile : Method → Compile FuncId) (m : Method) (body : Body) (args : List Ty) (f : Function)
    (spans : List Bytecode.Span) : Setting fn (fun _ ↦ True) (prepare world compile m body args f spans) fun site F ↦
    site.world = world ∧
      site.compile = compile ∧ site.spans = spans ∧ ∀ v ∈ site.args ++ site.locals, SlotIn fn site.top v F := by
  unfold prepare
  refine (setting_makeBuffer _).bind fun top ↦ ?_
  have hmono : ∀ {v F F'}, Outgrows F F' → SlotIn fn top v F → SlotIn fn top v F' := fun hF h hv ↦ (h hv).outgrows hF
  refine Setting.bind (Setting.mapM (S := SlotIn fn top) _ hmono fun ⟨t, i⟩ ↦ setting_bindArgument f t i) fun vs ↦ ?_
  refine Setting.bind (R := fun ws F ↦ (IsSlot fn F top .bytePointer ∧ ∀ w ∈ ws, SlotIn fn top w F) ∧ ∀ v ∈ vs,
    SlotIn fn top v F) ?_ fun ws ↦ .pure fun F h ↦ ⟨rfl, rfl, rfl, List.forall_mem_append.mpr ⟨h.2, h.1.2⟩⟩
  intro s u ws s' u' F he hfn hF h
  obtain ⟨hfn', F', hF', hgrew, hws⟩ :=
    Setting.mapM (S := SlotIn fn top) _ hmono (fun ⟨t, i⟩ ↦ setting_bindLocal hworld t i) _ _ _ _ _ F he hfn hF h.1
  exact ⟨hfn', F', hF', hgrew, hws, fun v hv ↦ hmono hgrew (h.2 v hv)⟩

end

/-! ### What is known at every stage -/

/-- There may be blocks, but there is no instruction yet. -/
structure Blank (F : Function) : Prop where
  instrs : F.instrs = #[]
  blocks : ∀ (b : Nat) (B : Ssa.Block), F.blocks[b]? = some B → B.instrs = []

theorem Blank.of_empty {F : Function} (hinstrs : F.instrs = #[]) (hblocks : F.blocks = #[]) : Blank F := by
  refine ⟨hinstrs, fun b B hB ↦ ?_⟩
  rw [hblocks] at hB
  cases hB

theorem Blank.addBlock {F : Function} (h : Blank F) (name : String) : Blank (F.addBlock name).1 := by
  obtain ⟨hinstrs, hblocks, -⟩ := uniqueName_kept F (if name = "" then "bb" else name)
  refine ⟨hinstrs.trans h.instrs, fun b B hB ↦ ?_⟩
  simp only [Function.addBlock, hblocks, Array.getElem?_push] at hB
  split at hB
  · cases hB
    rfl
  · exact h.blocks b B hB

section

variable {fn : FuncId} {F F' : Function} {u u' u₁ : CompilationUnit} {world : Universe}
  {compile : Method → Compile FuncId} {m : Method} {body : Body} {args : List Ty} {f : Function} {site : Site}
  {s : Stage} {k n : Nat} {sp : Bytecode.Span}

theorem addBlocks_houses {names : List String} {x : PUnit} (h : Houses fn F u)
    (hc : Compiles (addBlocks fn names) u x u') :
    ∃ F', Houses fn F' u' ∧ F'.blocks.size = F.blocks.size + names.length ∧
      ∀ P : Function → Prop, (∀ G name, P G → P (G.addBlock name).1) → P F → P F' := by
  induction names generalizing u F with
  | nil =>
    obtain ⟨-, rfl⟩ := Compiles.pure_iff.mp hc
    exact ⟨F, h, rfl, fun _ _ ↦ id⟩
  | cons name names ih =>
    obtain ⟨_, u₁, hname, hrest⟩ := Compiles.bind_iff.mp hc
    obtain ⟨_, _, hadd, hpure⟩ := Compiles.bind_iff.mp hname
    obtain ⟨-, rfl⟩ := Compiles.pure_iff.mp hpure
    unfold onModule at hadd
    simp only [Compiles.bind_iff, Compiles.get_iff, Compiles.set_iff, Compiles.pure_iff] at hadd
    obtain ⟨_, _, ⟨rfl, rfl⟩, _, _, rfl, -, rfl⟩ := hadd
    obtain ⟨hgrown, hsize, -⟩ := addBlock_grown F name
    have hmodule : (u.module.addBlock fn name).1 = u.module.modifyFunction fn fun _ ↦ (F.addBlock name).1 := by
      simp only [Ssa.Module.addBlock, h.found]
    rw [hmodule] at hrest
    obtain ⟨F', hF', hsize', hkept⟩ := ih ⟨h.numbered.modify h.found hgrown.id, function?_modify h.found _⟩ hrest
    exact ⟨F', hF', by rw [hsize', hsize, List.length_cons]; omega, fun P hP hF ↦ hkept P hP (hP F name hF)⟩

/-- What is known of the code and of the site at every stage: the slots are set up, and there is a block for every span.
-/
structure Furnished (fn : FuncId) (site : Site) (F : Function) : Prop where
  leaves : site.Leaves fn
  slots : ∀ v ∈ site.args ++ site.locals, SlotIn fn site.top v F
  blocks : ∀ k < site.spans.length, ∃ B, F.blocks[k + 1]? = some B

theorem Furnished.outgrows (h : Furnished fn site F) (hF : Outgrows F F') : Furnished fn site F' := by
  refine ⟨h.leaves, fun v hv hslot ↦ (h.slots v hv hslot).outgrows hF, fun k hk ↦ ?_⟩
  obtain ⟨B, hB⟩ := h.blocks k hk
  obtain ⟨ks, happ⟩ := hF (k + 1)
  exact ⟨_, happ.block B hB⟩

variable (hf : Houses f.id f u) (hworld : Consistent world) {fuel : Nat}

include hf hworld

theorem Between.furnished (h : Between world (compileMethod world fuel) m body args f u site s u₁) :
    s.fn = f.id ∧ ∃ F, Houses f.id F u₁ ∧ Furnished f.id site F := by
  induction h with
  | @prepared spans site s u₁ u₂ hspans hblocks hprepare =>
    obtain ⟨F₁, hF₁, hsize, -⟩ := addBlocks_houses hf hblocks
    obtain ⟨hfn, F₂, hF₂, hgrew, hsame, hcompile, hspans', hslots⟩ :=
      setting_prepare (fun t ↦ leaves_codeType t) _ m body args f spans _ _ _ _ _ F₁ hprepare rfl hF₁ trivial
    refine ⟨hfn, F₂, hF₂, ⟨hsame ▸ hworld, fun t ↦ leaves_compileType _ _ t, fun m hm ↦ ?_⟩, hslots, fun k hk ↦ ?_⟩
    · rw [hcompile]
      exact leaves_compileMethod world fuel m
    · have hlt : k + 1 < F₁.blocks.size := by
        rw [hsize, List.length_cons, List.length_map]
        rw [hspans'] at hk
        omega
      obtain ⟨ks, happ⟩ := hgrew (k + 1)
      exact ⟨_, happ.block _ (Array.getElem?_eq_getElem hlt)⟩
  | @block site s s' u₁ u₂ k sp _ hsp hlower ih =>
    obtain ⟨hfn, F, hF, hfurnished⟩ := ih
    have := supports_lengthened (F := F) hfurnished.leaves
    obtain ⟨hfn', F', hF', hgrew⟩ := (safe_lowerTraced (J := Lengthened f.id F) (E := fun _ ↦ True) (k + 1) sp s hfn u₁
      ⟨F, hF, .refl F⟩).1 (⟨⟩, s') u₂ hlower
    exact ⟨hfn', F', hF', hfurnished.outgrows hgrew⟩

theorem Midway.furnished (h : Midway world (compileMethod world fuel) m body args f u site k sp n s u₁) :
    s.fn = f.id ∧ s.block = k + 1 ∧ k < site.spans.length ∧ ∃ F, Houses f.id F u₁ ∧ Furnished f.id site F := by
  induction h with
  | opened hbetween hsp =>
    obtain ⟨hfn, F, hF, hfurnished⟩ := hbetween.furnished hf hworld
    exact ⟨hfn, rfl, (List.getElem?_eq_some_iff.mp hsp).1, F, hF.of_functions rfl rfl, hfurnished⟩
  | @instruction n c i s s' u₁ u₂ _ _ htakes hlower ih =>
    obtain ⟨hfn, hb, hk, F, hF, hfurnished⟩ := ih
    obtain ⟨hfn', hb'⟩ := htakes.keeps hfurnished.leaves hlower hfn hb hF
    have := supports_lengthened (F := F) hfurnished.leaves
    obtain ⟨-, F', hF', hgrew⟩ := (safe_lower (J := Lengthened f.id F) (E := fun _ ↦ True) sp.start i s hfn u₁
      ⟨F, hF, .refl F⟩).1 (⟨⟩, s') u₂ hlower
    exact ⟨hfn', hb', hk, F', hF', hfurnished.outgrows hgrew⟩

end

/-! ### A whole body -/

def Continues (fn : FuncId) (u u' : CompilationUnit) : Prop := ∀ F, Houses fn F u → Lengthened fn F u'

section

variable {α : Type} {fn : FuncId} {u u' u'' : CompilationUnit} {s s' : Stage} {site : Site} {start : Nat}
  {i : Instruction}

theorem Continues.trans (h : Continues fn u u') (h' : Continues fn u' u'') : Continues fn u u'' := by
  intro F hF
  obtain ⟨F', hF', hgrew⟩ := h F hF
  obtain ⟨F'', hF'', hgrew'⟩ := h' F' hF'
  exact ⟨F'', hF'', hgrew.trans hgrew'⟩

theorem Continues.of_functions (hf : u'.module.functions = u.module.functions)
    (hl : u'.module.liveFunctions = u.module.liveFunctions) : Continues fn u u' :=
  fun F hF ↦ ⟨F, hF.of_functions hf hl, .refl F⟩

theorem continues_of_safe {c : Emit α} {a : α} {F : Function} (hF : Houses fn F u)
    (hc : ∀ F, Safe (Lengthened fn F) (fun _ ↦ True) fn c) (he : Emits c s u a s' u') (hfn : s.fn = fn) :
    s'.fn = fn ∧ Continues fn u u' := by
  have h := fun F hF ↦ (hc F s hfn u ⟨F, hF, .refl F⟩).1 (a, s') u' he
  exact ⟨(h F hF).1, fun F hF ↦ (h F hF).2⟩

theorem endsBlock_of_takes?_eq_none (h : (action i).takes? = none) :
    action i = .call ∨ action i = .newObject ∨ action i = .unsupported ∨ i.endsBlock = true := by
  obtain ⟨offset, op, size, operand⟩ := i
  cases op <;>
    first
    | exact .inr (.inr (.inl rfl))
    | exact .inr (.inr (.inr rfl))
    | exact .inl rfl
    | exact .inr (.inl rfl)
    | cases h

theorem takes_of_lowers {x : PUnit} (hends : i.endsBlock = false) (he : Lowers (lower start i) site s u x s' u') :
    ∃ n, Takes site s u i n := by
  cases htakes : (action i).takes? with
  | some n => exact ⟨n, .fixed htakes⟩
  | none =>
    unfold lower at he
    rcases endsBlock_of_takes?_eq_none htakes with hi | hi | hi | hi
    · rw [hi] at he
      obtain ⟨m, s₁, u₁, hm, -⟩ := Lowers.bind_iff.mp he
      exact ⟨_, .called hi hm⟩
    · rw [hi] at he
      obtain ⟨m, s₁, u₁, hm, -⟩ := Lowers.bind_iff.mp he
      exact ⟨_, .made hi hm⟩
    · rw [hi] at he
      cases he
    · rw [hends] at hi
      cases hi

end

section

variable {world : Universe} {fuel : Nat} {m : Method} {body : Body} {args : List Ty} {f : Function}
  {u u₁ u₂ : CompilationUnit} {site : Site} {s s' : Stage} {k n : Nat} {sp : Bytecode.Span}

variable (world fuel m body args f u site k sp) in
/-- At the stage where `n` instructions of the span are lowered `next` is, and the code in `u₂` goes on from what comes
of it. -/
def Lowered (n : Nat) (next : Lower Unit) (u₂ : CompilationUnit) : Prop :=
  ∃ s₀ u₀ s₁ u₁, Midway world (compileMethod world fuel) m body args f u site k sp n s₀ u₀ ∧
    Lowers next site s₀ u₀ ⟨⟩ s₁ u₁ ∧ Continues f.id u₁ u₂

theorem Lowered.later {next : Lower Unit} (h : Lowered world fuel m body args f u site k sp n next u₁)
    (hu : Continues f.id u₁ u₂) : Lowered world fuel m body args f u site k sp n next u₂ := by
  obtain ⟨s₀, u₀, s₁, u', hmidway, hnext, hu'⟩ := h
  exact ⟨s₀, u₀, s₁, u', hmidway, hnext, hu'.trans hu⟩

variable (hf : Houses f.id f u) (hworld : Consistent world)

include hf hworld

/-- The instructions of a span from number `n` on are lowered at one stage after the other. -/
theorem Midway.line {is : List Instruction} {x : PUnit}
    (h : Midway world (compileMethod world fuel) m body args f u site k sp n s u₁)
    (his : sp.instrs.drop n = is) (hquiet : ∀ i ∈ is.dropLast, i.endsBlock = false)
    (he : Lowers (is.forM fun i ↦ during i (lower sp.start i)) site s u₁ x s' u₂) :
    (∀ j i, is[j]? = some i → Lowered world fuel m body args f u site k sp (n + j) (lower sp.start i) u₂) ∧
      s'.fn = f.id ∧ (∃ F, Houses f.id F u₂) ∧ ((∀ i ∈ is, i.endsBlock = false) →
        Midway world (compileMethod world fuel) m body args f u site k sp (n + is.length) s' u₂) := by
  induction is generalizing n s u₁ with
  | nil =>
    obtain ⟨-, rfl, rfl⟩ := Lowers.pure_iff.mp he
    obtain ⟨hfn, -, -, F, hF, -⟩ := h.furnished hf hworld
    exact ⟨by simp, hfn, ⟨F, hF⟩, fun _ ↦ h⟩
  | cons i is ih =>
    obtain ⟨_, s₁, u', he₁, he₂⟩ := Lowers.bind_iff.mp he
    have he₁ := Lowers.during_iff.mp he₁
    obtain ⟨hfn, hb, hk, F, hF, hfurnished⟩ := h.furnished hf hworld
    have hi : sp.instrs[n]? = some i := by
      have := congrArg (·[0]?) his
      simpa [List.getElem?_drop] using this
    have hnext : i.endsBlock = false → Midway world (compileMethod world fuel) m body args f u site k sp
      (n + 1) s₁ u' :=
      fun hends ↦ (takes_of_lowers hends he₁).elim fun c hc ↦ .instruction h hi hc he₁
    have his' : sp.instrs.drop (n + 1) = is := by
      rw [← List.drop_drop, his, List.drop_one, List.tail_cons]
    have hsafe : ∀ i F, SafeAt (Lengthened f.id F) (fun _ ↦ True) f.id site (lower sp.start i) := by
      intro i F
      have := supports_lengthened (F := F) hfurnished.leaves
      exact safe_lower _ i
    obtain ⟨hfn₁, hfirst⟩ := continues_of_safe (s := s) (c := (lower sp.start i).run site) hF (hsafe i) he₁ hfn
    obtain ⟨F₁, hF₁, -⟩ := hfirst F hF
    obtain ⟨-, hcontinues⟩ := continues_of_safe (s := s₁) (c := (is.forM fun i ↦ during i (lower sp.start i)).run site)
      hF₁ (fun F ↦ SafeAt.forM fun i _ ↦ safe_during (hsafe i F)) he₂ hfn₁
    cases is with
    | nil =>
      obtain ⟨-, rfl, rfl⟩ := Lowers.pure_iff.mp he₂
      refine ⟨fun j j' hj ↦ ?_, hfn₁, ⟨F₁, hF₁⟩, fun hquiet ↦ hnext (hquiet i List.mem_cons_self)⟩
      cases j with
      | zero =>
        cases hj
        exact ⟨s, u₁, _, _, h, he₁, hcontinues⟩
      | succ j => cases hj
    | cons c is =>
      rw [List.dropLast_cons_cons, List.forall_mem_cons] at hquiet
      obtain ⟨hline, hfn₂, hF₂, hall⟩ := ih (hnext hquiet.1) his' hquiet.2 he₂
      refine ⟨fun j j' hj ↦ ?_, hfn₂, hF₂, fun hquiet ↦ ?_⟩
      · cases j with
        | zero =>
          cases hj
          exact ⟨s, u₁, _, _, h, he₁, hcontinues⟩
        | succ j =>
          have := hline j j' hj
          rwa [Nat.add_right_comm] at this
      · have := hall fun i hi ↦ hquiet i (List.mem_cons_of_mem _ hi)
        rwa [Nat.add_right_comm] at this

theorem Between.lowersBlock {x : Unit} (h : Between world (compileMethod world fuel) m body args f u site s u₁)
    (hsp : site.spans[k]? = some sp) (htiles : Tiles site.spans sp)
    (he : Lowers (lowerTraced (k + 1) sp) site s u₁ x s' u₂) :
    (∀ n i, sp.instrs[n]? = some i → Lowered world fuel m body args f u site k sp n (lower sp.start i) u₂) ∧
      (sp.fallsThrough = true → Lowered world fuel m body args f u site k sp sp.instrs.length
      (flush sp.start [sp.stop]) u₂) := by
  obtain ⟨t, _, t', hblock, rfl⟩ := lowerBlock_of_traced he
  have hopened : Midway world (compileMethod world fuel) m body args f u site k sp 0 _ _ := .opened (t := t) h hsp
  obtain ⟨-, -, -, _, -, hfurnished⟩ := hopened.furnished hf hworld
  unfold lowerBlock at hblock
  simp only [Lowers.bind_iff, Lowers.modifyThe_iff] at hblock
  obtain ⟨_, _, _, ⟨rfl, rfl⟩, _, s₁, u', he₁, he₂⟩ := hblock
  obtain ⟨init, last, hinstrs, hinit, hlast⟩ := htiles.ends
  obtain ⟨hline, hfn, ⟨F, hF⟩, hall⟩ :=
    hopened.line hf hworld rfl (by rw [List.drop_zero, hinstrs, List.dropLast_concat]; exact hinit) he₁
  simp only [List.drop_zero, Nat.zero_add] at hline hall
  have hlast? : sp.instrs.getLast? = some last := by
    rw [hinstrs, List.getLast?_append]
    rfl
  have hsafe : ∀ F, SafeAt (Lengthened f.id F) (fun _ ↦ True) f.id site (flush sp.start [sp.stop]) ∧
      SafeAt (Lengthened f.id F) (fun _ ↦ True) f.id site (settleEntry sp.start) ∧
      SafeAt (Lengthened f.id F) (fun _ ↦ True) f.id site (do
        let _ ← emit (.br (some (← blockAt sp.stop)))
        settleEntry sp.start) := by
    intro F
    have := supports_lengthened (F := F) hfurnished.leaves
    exact ⟨safe_flush _ _, safe_settleEntry _, by grind⟩
  have htrace : ∀ v t, Continues f.id v { v with tracing := t } := fun v t ↦ .of_functions rfl rfl
  cases hfalls : sp.fallsThrough with
  | false =>
    simp only [hfalls] at he₂
    obtain ⟨-, hrest⟩ := continues_of_safe hF (fun F ↦ (hsafe F).2.1) he₂ hfn
    exact ⟨fun n i hi ↦ (hline n i hi).later (hrest.trans (htrace _ _)), nofun⟩
  | true =>
    simp only [hfalls, hlast?] at he₂
    obtain ⟨_, s₂, u₂, hflush, he₂⟩ := Lowers.bind_iff.mp he₂
    have hflush := Lowers.during_iff.mp hflush
    obtain ⟨hfn₂, hrest⟩ := continues_of_safe (c := (flush sp.start [sp.stop]).run site) hF
      (fun F ↦ (hsafe F).1) hflush hfn
    obtain ⟨F₂, hF₂, -⟩ := hrest F hF
    obtain ⟨-, hrest'⟩ := continues_of_safe (s := s₂) hF₂ (fun F ↦ (hsafe F).2.2) he₂ hfn₂
    have hrest' := hrest'.trans (htrace _ t')
    refine ⟨fun n i hi ↦ (hline n i hi).later (hrest.trans hrest'), fun _ ↦ ⟨s₁, u', s₂, u₂, hall ?_, hflush, hrest'⟩⟩
    rw [hinstrs]
    refine List.forall_mem_append.mpr ⟨hinit, List.forall_mem_singleton.mpr ?_⟩
    rw [hlast, hfalls]
    rfl

theorem Between.lowersBlocks {rest : List Bytecode.Span} {x : PUnit}
    (h : Between world (compileMethod world fuel) m body args f u site s u₁) (hrest : site.spans.drop k = rest)
    (htiles : ∀ sp ∈ site.spans, Tiles site.spans sp)
    (he : Emits ((rest.zipIdx k).forM fun p ↦ lowerTraced (p.2 + 1) p.1 site) s u₁ x s' u₂) :
    s'.fn = f.id ∧ (∃ F, Houses f.id F u₂) ∧ ∀ j sp, rest[j]? = some sp →
      (∀ n i, sp.instrs[n]? = some i → Lowered world fuel m body args f u site (k + j) sp n (lower sp.start i) u₂) ∧
      (sp.fallsThrough = true →
        Lowered world fuel m body args f u site (k + j) sp sp.instrs.length (flush sp.start [sp.stop]) u₂) := by
  induction rest generalizing k s u₁ with
  | nil =>
    obtain ⟨-, rfl, rfl⟩ := Emits.pure_iff.mp he
    obtain ⟨hfn, F, hF, -⟩ := h.furnished hf hworld
    exact ⟨hfn, ⟨F, hF⟩, nofun⟩
  | cons sp rest ih =>
    rw [List.zipIdx_cons, List.forM] at he
    obtain ⟨_, s₁, u', he₁, he₂⟩ := Emits.bind_iff.mp he
    have hsp : site.spans[k]? = some sp := by
      have := congrArg (·[0]?) hrest
      simpa [List.getElem?_drop] using this
    have hrest' : site.spans.drop (k + 1) = rest := by
      rw [← List.drop_drop, hrest, List.drop_one, List.tail_cons]
    have hnext : Between world (compileMethod world fuel) m body args f u site s₁ u' := .block h hsp he₁
    obtain ⟨hfn, F, hF, hfurnished⟩ := hnext.furnished hf hworld
    obtain ⟨hfn₂, hF₂, hlater⟩ := ih hnext hrest' he₂
    have hcontinues : Continues f.id u' u₂ := by
      refine (continues_of_safe hF (fun F ↦ ?_) he₂ hfn).2
      have := supports_lengthened (F := F) hfurnished.leaves
      exact Safe.forM fun p _ ↦ safe_lowerTraced _ _
    obtain ⟨hline, hend⟩ := h.lowersBlock hf hworld hsp (htiles sp (List.mem_of_getElem? hsp)) he₁
    refine ⟨hfn₂, hF₂, fun j sp' hj ↦ ?_⟩
    cases j with
    | zero =>
      cases hj
      exact ⟨fun n i hi ↦ (hline n i hi).later hcontinues, fun hfalls ↦ (hend hfalls).later hcontinues⟩
    | succ j =>
      have hnum : k + (j + 1) = k + 1 + j := by omega
      rw [hnum]
      exact hlater j sp' hj

omit hf hworld in
theorem lowerBody_inv {compile : Method → Compile FuncId} {count : Nat}
    (hc : Compiles (lowerBody world compile m body args f) u count u₂) :
    ∃ spans u₀ site s u₁ s' u' v s'', discoverBlocks body.code = .ok spans ∧
      Compiles (addBlocks f.id ("init" :: spans.map fun sp ↦ offsetLabel sp.start)) u ⟨⟩ u₀ ∧
      Emits (prepare world compile m body args f spans) { fn := f.id } u₀ site s u₁ ∧
      Emits (spans.zipIdx.forM fun p ↦ lowerTraced (p.2 + 1) p.1 site) s u₁ ⟨⟩ s' u' ∧
      Emits (emitAt 0 (.br (some ⟨f.id, 1⟩))) s' u' v s'' u₂ := by
  unfold lowerBody at hc
  cases hspans : discoverBlocks body.code with
  | error e =>
    simp only [hspans] at hc
    obtain ⟨_, _, hthrow, -⟩ := Compiles.bind_iff.mp hc
    exact absurd hthrow Compiles.throw_iff
  | ok spans =>
    simp only [hspans, pure_bind] at hc
    obtain ⟨_, u₀, hblocks, hc⟩ := Compiles.bind_iff.mp hc
    obtain ⟨⟨_, s''⟩, _, hrun, hc⟩ := Compiles.bind_iff.mp hc
    obtain ⟨-, rfl⟩ := Compiles.pure_iff.mp hc
    obtain ⟨site, s, u₁, hprepare, he⟩ := Emits.bind_iff.mp hrun
    obtain ⟨_, s', u', hlower, he⟩ := Emits.bind_iff.mp he
    obtain ⟨v, _, _, hbranch, he⟩ := Emits.bind_iff.mp he
    obtain ⟨-, rfl, rfl⟩ := Emits.pure_iff.mp he
    exact ⟨spans, u₀, site, s, u₁, s', u', v, _, rfl, hblocks, hprepare, hlower, hbranch⟩

/-- Every instruction of a body that is lowered is lowered at a stage midway through the block of its span, and so is
the end of a block that falls through. -/
theorem lowerBody_stages {count : Nat}
    (hc : Compiles (lowerBody world (compileMethod world fuel) m body args f) u count u₂) :
    ∃ site, discoverBlocks body.code = .ok site.spans ∧ ∀ k sp, site.spans[k]? = some sp →
      (∀ n i, sp.instrs[n]? = some i → Lowered world fuel m body args f u site k sp n (lower sp.start i) u₂) ∧
      (sp.fallsThrough = true →
        Lowered world fuel m body args f u site k sp sp.instrs.length (flush sp.start [sp.stop]) u₂) := by
  obtain ⟨spans, u₀, site, s, u', s', u'', v, s'', hspans, hblocks, hprepare, hlower, hbranch⟩ := lowerBody_inv hc
  have hbetween : Between world (compileMethod world fuel) m body args f u site s u' :=
    .prepared hspans hblocks hprepare
  obtain ⟨F₁, hF₁, -⟩ := addBlocks_houses hf hblocks
  obtain ⟨-, -, -, -, -, -, hsame, -⟩ :=
    setting_prepare (fun t ↦ leaves_codeType t) _ m body args f spans _ _ _ _ _ F₁ hprepare rfl hF₁ trivial
  subst hsame
  obtain ⟨hfn, ⟨F, hF⟩, hlowered⟩ := hbetween.lowersBlocks hf hworld (k := 0) rfl (discoverBlocks_ok hspans).tiles
    hlower
  have hend := (continues_of_safe hF (fun F ↦ safe_emitAt 0 Ssa.Instr.hinted_br) hbranch hfn).2
  refine ⟨site, hspans, fun k sp hsp ↦ ?_⟩
  have := hlowered k sp hsp
  rw [Nat.zero_add] at this
  exact ⟨fun n i hi ↦ (this.1 n i hi).later hend, fun hfalls ↦ (this.2 hfalls).later hend⟩

end

end CilSsa.Lowering

