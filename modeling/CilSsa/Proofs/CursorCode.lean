import CilSsa.Proofs.BlockEntries
import CilSsa.Proofs.SoundUnits

namespace CilSsa.Ssa

def Ty.width? : Ty → Option Nat
  | .int bits => some ((bits + 7) / 8)
  | .float => some 4
  | .double => some 8
  | .pointer _ => some Target.host.pointerSize
  | .untyped | .void | .func .. | .struct .. => none

namespace Layouts

variable {s : Layouts} {t : Ty} {a : Except LayoutError Layout}

def Natively (t : Ty) (a : Except LayoutError Layout) : Prop := ∀ l, t.isStruct = false → a = .ok l →
    t.width? = some l.size

/-- What is remembered of types other than structs is what their values take on the host. -/
structure Native (s : Layouts) : Prop where
  host : s.target = .host
  memo : ∀ t a, s.memo.lookup t = some a → Natively t a

theorem Native.remember (h : s.Native) (ha : Natively t a) : (s.remember t a).Native := by
  refine ⟨remember_target.trans h.host, fun r b hb ↦ ?_⟩
  rcases lookup_remember hb with ⟨rfl, rfl, -⟩ | hb
  · exact ha
  · exact h.memo r b hb

theorem scalar_size (n : Nat) : (Layout.scalar n).size = n := by
  unfold Layout.scalar
  split
  · rename_i h
    rw [h]
    rfl
  · rfl

theorem plainly_native (h : s.target = .host) : Natively t (plainAnswer s.target t) := by
  intro l _ hl
  unfold plainAnswer at hl
  split at hl <;> cases hl <;> simp only [Ty.width?, scalar_size, h]

theorem walk_native (m : Module) : Walk m Native Natively fun _ _ _ ↦ True where
  exhausted _ := nofun
  known hs hl := hs.memo _ _ hl
  cyclic _ _ := nofun
  plain _ hs _ := plainly_native hs.host
  bodyless _ _ _ := nofun
  deeper _ _ _ _ := trivial
  struct hfields _ := fun _ hplain _ ↦ absurd (Module.isStruct_of_fields? hfields) (Bool.eq_false_iff.mp hplain)
  failed _ _ _ := nofun
  remember _ _ hs ha := hs.remember ha

theorem Native.of (h : s.Native) (m : Module) (t : Ty) : (s.of m t).2.Native ∧ Natively t (s.of m t).1 :=
  (walk_native m).compute trivial h

end Layouts

end CilSsa.Ssa

namespace CilSsa.Lowering

open CilSsa.Bytecode CilSsa.Metadata
open CilSsa.Ssa (FuncId Function Instr Module Value)

/-! ### Units with sizes that stay -/

/-- A unit in which lowered code finds what it counts on, where scalars and pointers take what they do on the host. -/
structure Weighed (world : Universe) (u : CompilationUnit) : Prop extends Sound world u where
  native : u.engine.layouts.Native

section

variable {world : Universe} {u : CompilationUnit}

theorem Learnt.native {m : Module} {s s' : Ssa.Layouts} (h : Learnt m s s') (hs : s.Native) : s'.Native := by
  induction h with
  | nothing => exact hs
  | asked t _ ih => exact (ih.of m t).1

instance typeless_native : Typeless (fun u ↦ u.engine.layouts.Native) fun u ↦ u.engine.layouts.Native where
  fails h := h
  compiled h hs := hs.learnt.elim fun _ hlearnt ↦ hlearnt.native h
  abandoned _ h := h

theorem lasting_native (world : Universe) :
    Lasting world (fun u ↦ u.engine.layouts.Native) fun u ↦ u.engine.layouts.Native where
  fails h := h
  same h hs := hs.layouts.native h
  sameFailed h hs := hs.layouts.native h
  types t := Typeless.spec_compileType _ t
  declares _ := by
    refine (spec_argumentTypes_keeps (fun _ h ↦ h) _).bind fun args ↦ (Typeless.spec_signature _ args).bind fun sig ↦
      Spec.bind (Q := fun _ u ↦ u.engine.layouts.Native) ?_ fun f ↦ .pure fun _ hu ↦ hu
    exact spec_register_of (fun _ h ↦ h) fun u name _ _ _ hu _ _ ↦ hu
  rewrites h _ _ _ _ := h
  memset h := h

theorem lasting_weighed (world : Universe) : Lasting world (Weighed world) fun _ ↦ True where
  fails _ := trivial
  same h hs := ⟨(lasting_sound world).same h.toSound hs, (lasting_native world).same h.native hs⟩
  sameFailed _ _ := trivial
  types t u hu := ⟨fun ct u' hc ↦ ⟨((lasting_sound world).types t u hu.toSound).1 ct u' hc,
    ((lasting_native world).types t u hu.native).1 ct u' hc⟩, fun _ _ _ ↦ trivial⟩
  declares hm u hu := ⟨fun af u' hc ↦ ⟨((lasting_sound world).declares hm u hu.toSound).1 af u' hc,
    ((lasting_native world).declares hm u hu.native).1 af u' hc⟩, fun _ _ _ ↦ trivial⟩
  rewrites h hF hid hname hsig := ⟨(lasting_sound world).rewrites h.toSound hF hid hname hsig, h.native⟩
  memset h := ⟨(lasting_sound world).memset h.toSound, h.native⟩

theorem rollBack_engine (u : CompilationUnit) : u.rollBack.engine = u.engine := by
  refine rollBack_induction (P := fun w ↦ w.engine = u.engine) rfl (fun w k hw ↦ ?_) (fun w t hw ↦ ?_) fun w hw ↦ hw
  · unfold CompilationUnit.forgetMethod
    split <;> exact hw
  · unfold CompilationUnit.forgetType
    split <;> exact hw

theorem CompilationUnit.Reachable.weighed (hworld : Consistent world) (h : u.Reachable world) : Weighed world u := by
  refine ⟨h.sound hworld, h.lasting (lasting_native world) hworld (fun _ _ _ hl ↦ ?_) fun _ hv _ ↦ ?_⟩
  · rw [hl]
    exact ⟨rfl, nofun⟩
  · rwa [rollBack_engine]

end

/-! ### Moves of the cursor -/

/-- A move of the cursor: a value of the type `code` is put onto the run-time stack or taken from there, and the cursor
moves by `bytes`. -/
inductive Shift
  | push (code : Ssa.Ty) (bytes : Nat)
  | pop (code : Ssa.Ty) (bytes : Nat)

namespace Shift

def rise : Shift → Int
  | push _ n => n
  | pop _ n => -n

def code : Shift → Ssa.Ty
  | push c _ | pop c _ => c

def bytes : Shift → Nat
  | push _ n | pop _ n => n

end Shift

def retyping (p q : Value) (t : Ssa.Ty) : List (Value × Instr) :=
    ((Instr.pointerCast? p (.pointer t) "").map (q, ·)).toList

def advancing (p a r q : Value) (n : Int) (o : Ssa.Origin) : List (Value × Instr) :=
  [(a, .cast .ptrtoint (some p) .i64 ""), (r, .binary .add a (.const (.ofInt .i64 (Number.wordOfInt n)) o) ""),
    (q, .cast .inttoptr (some r) .bytePointer "")]

/-- The instructions of a move and what they give. The cursor is read from its slot, and what it is moved to is stored
there. A value is put where the cursor pointed before, and taken from where it points then. -/
inductive Shift.Spelt (top : Value) : Shift → List (Value × Instr) → Prop
  | push {v l q x p a r y : Value} {n : Nat} {o : Ssa.Origin} : (Instr.pointerCast? l (.pointer v.type) "" = none →
  q = l) →
      Shift.Spelt top (.push v.type n) ((l, .load top "") :: (retyping l q v.type ++ (x, .store (some v) (some q)) ::
        (advancing l a r p n o ++ [(y, .store (some p) (some top))])))
  | pop {v l q p a r y : Value} {c : Ssa.Ty} {n : Nat} {o : Ssa.Origin} : (Instr.pointerCast? p (.pointer c) "" = none →
      q = p) →
      Shift.Spelt top (.pop c n) ((l, .load top "") :: (advancing l a r p (-n) o ++ (y, .store (some p) (some top)) ::
        (retyping p q c ++ [(v, .load q "")])))

/-- The instructions that set the run-time stack up: a buffer of so many bytes, and the slot `top`, which gets its
start. -/
def opening (size : Int) (buffer top x : Value) (o : Ssa.Origin) : List (Value × Instr) :=
  [(buffer, .arrayAlloca .i8 (some (.const (.ofInt .i32 (Number.wordOfInt size)) o)) "evalstack"),
    (top, .alloca .bytePointer "evalstack.top"), (x, .store (some buffer) (some top))]

def Aside (top : Value) (i : Instr) : Prop := some top ∉ i.operands ∨ i.op.isTerminator = true

/-- In the code of function `fn`, the instructions `ks` are what the lines say, and give what they say. -/
def Spells (fn : FuncId) (F : Function) (ks : List Nat) (lines : List (Value × Instr)) : Prop :=
  List.Forall₂ (fun k l ↦ l.1 = .instr ⟨fn, k⟩ l.2.type ∧ ∃ H c, F.instrs[k]? = some (placed H c l.2)) ks lines

/-- The instructions `ks` of the code make the moves `ds`, in this order, and else do not touch the slot of the cursor.
-/
inductive Moves (fn : FuncId) (top : Value) (F : Function) : List Nat → List Shift → Prop
  | nil : Moves fn top F [] []
  | aside {k : Nat} {i : Instr} {ks : List Nat} {ds : List Shift} : F.instrs[k]? = some i → Aside top i →
      Moves fn top F ks ds → Moves fn top F (k :: ks) ds
  | shift {d : Shift} {lines : List (Value × Instr)} {js ks : List Nat} {ds : List Shift} : d.Spelt top lines →
      Spells fn F js lines → Moves fn top F ks ds → Moves fn top F (js ++ ks) (d :: ds)

/-! ### Code that grows -/

/-- `F'` is `F` with the lines at the end of block `b`. -/
inductive Writes (fn : FuncId) (b : Nat) : Function → List (Value × Instr) → Function → Prop
  | nil {F : Function} : Writes fn b F [] F
  | line {F F' : Function} {i : Instr} {lines : List (Value × Instr)} : Writes fn b (F.append b i).1 lines F' →
      Writes fn b F ((.instr ⟨fn, F.instrs.size⟩ i.type, i) :: lines) F'

/-- `F'` is `F` with instructions added to block `b` that make the moves `ds`, and others there and in the first block
that do not touch the slot of the cursor. -/
inductive Gains (fn : FuncId) (top : Value) (b : Nat) (F : Function) : List Shift → Function → Prop
  | refl : Gains fn top b F [] F
  | aside {F' : Function} {ds : List Shift} {c : Nat} {i : Instr} : Gains fn top b F ds F' → c = b ∨
      c = 0 → Aside top i → Gains fn top b F ds (F'.append c i).1
  | shift {F' F'' : Function} {ds : List Shift} {d : Shift} {lines : List (Value × Instr)} : Gains fn top b F ds F' →
      d.Spelt top lines → Writes fn b F' lines F'' → Gains fn top b F (ds ++ [d]) F''

section

variable {fn : FuncId} {top : Value} {F F' F'' : Function} {a b : Nat} {ks ks' : List Nat} {ds ds' : List Shift}
  {lines lines' : List (Value × Instr)}

theorem Aside.placed {i : Instr} (h : Aside top i) (H : Function) (c : Nat) : Aside top (placed H c i) := h

theorem Spells.mono (hF : F.Earlier F') (h : Spells fn F ks lines) : Spells fn F' ks lines :=
  h.imp fun _ _ ⟨hv, H, c, hk⟩ ↦ ⟨hv, H, c, hF _ _ hk⟩

theorem Moves.mono (hF : F.Earlier F') (h : Moves fn top F ks ds) : Moves fn top F' ks ds := by
  induction h with
  | nil => exact .nil
  | aside hk hi _ ih => exact .aside (hF _ _ hk) hi ih
  | shift hd hlines _ ih => exact .shift hd (hlines.mono hF) ih

theorem Moves.append (h : Moves fn top F ks ds) (h' : Moves fn top F ks' ds') : Moves fn top F (ks ++ ks')
    (ds ++ ds') := by
  induction h with
  | nil => exact h'
  | aside hk hi _ ih => exact .aside hk hi ih
  | shift hd hlines _ ih =>
    rw [List.append_assoc]
    exact .shift hd hlines ih

theorem Writes.trans (h : Writes fn b F lines F') (h' : Writes fn b F' lines' F'') :
    Writes fn b F (lines ++ lines') F'' := by
  induction h with
  | nil => exact h'
  | line _ ih => exact .line (ih h')

theorem Writes.elsewhere (hab : a ≠ b) (h : Writes fn b F lines F') : Appends (fun _ _ ↦ True) a F F' [] := by
  induction h with
  | nil => exact .refl _ a _
  | line _ ih => exact (appends_elsewhere hab.symm _).trans (fun _ h ↦ h) ih

theorem Writes.appends (h : Writes fn b F lines F') : ∃ ks, Appends (fun _ _ ↦ True) b F F' ks ∧
    Spells fn F' ks lines := by
  induction h with
  | nil => exact ⟨[], .refl _ b _, .nil⟩
  | @line F F' i lines _ ih =>
    obtain ⟨ks, happ, hspells⟩ := ih
    refine ⟨_, (appends_emitted trivial).trans (fun _ h ↦ h) happ, .cons ⟨rfl, F, b, ?_⟩ hspells⟩
    exact happ.earlier _ _ (append_found i)

theorem Writes.apart {k : Nat} {t : Ssa.Ty} (h : Writes fn b F lines F') (hk : k < F.instrs.size) :
    ∀ l ∈ lines, l.1 ≠ .instr ⟨fn, k⟩ t := by
  induction h with
  | nil => exact fun _ h ↦ absurd h List.not_mem_nil
  | @line F F' i _ _ ih =>
    refine List.forall_mem_cons.mpr ⟨fun heq ↦ ?_, ih ?_⟩
    · simp only [Value.instr.injEq, Ssa.InstrId.mk.injEq] at heq
      omega
    · exact (Array.getElem?_eq_some_iff.mp (earlier_append F b i k _ (Array.getElem?_eq_getElem hk))).1

theorem Writes.earlier (h : Writes fn b F lines F') : F.Earlier F' := h.appends.elim fun _ h ↦ h.1.earlier

theorem Gains.earlier (h : Gains fn top b F ds F') : F.Earlier F' := by
  induction h with
  | refl => exact .refl F
  | aside _ _ _ ih => exact ih.trans (earlier_append _ _ _)
  | shift _ _ hlines ih => exact ih.trans hlines.earlier

theorem Gains.trans (h : Gains fn top b F ds F') (h' : Gains fn top b F' ds' F'') :
    Gains fn top b F (ds ++ ds') F'' := by
  induction h' with
  | refl => rwa [List.append_nil]
  | aside _ hc hi ih => exact ih.aside hc hi
  | shift _ hd hlines ih =>
    rw [← List.append_assoc]
    exact ih.shift hd hlines

theorem Gains.moves (hb : b ≠ 0) (h : Gains fn top b F ds F') :
    ∃ ks, Appends (fun _ _ ↦ True) b F F' ks ∧ Moves fn top F' ks ds := by
  induction h with
  | refl => exact ⟨[], .refl _ b F, .nil⟩
  | @aside F' ds c i _ hc hi ih =>
    obtain ⟨ks, happ, hmoves⟩ := ih
    have hmoves := hmoves.mono (earlier_append F' c i)
    by_cases hcb : c = b
    · subst hcb
      refine ⟨_, happ.trans (fun _ h ↦ h) (appends_emitted trivial), ?_⟩
      simpa using hmoves.append (.aside (append_found i) (hi.placed F' c) .nil)
    · refine ⟨_, happ.trans (fun _ h ↦ h) (appends_elsewhere hcb i), ?_⟩
      rwa [List.append_nil]
  | shift _ hd hlines ih =>
    obtain ⟨ks, happ, hmoves⟩ := ih
    obtain ⟨js, happ', hspells⟩ := hlines.appends
    refine ⟨_, happ.trans (fun _ h ↦ h) happ', (hmoves.mono hlines.earlier).append ?_⟩
    simpa using Moves.shift hd hspells .nil

theorem Gains.others (h : Gains fn top b F ds F') (ha : a ≠ b ∨ ds = []) :
    ∃ ks, Appends (fun G k ↦ ∃ i, G.instrs[k]? = some i ∧ Aside top i) a F F' ks ∧ (a ≠ b → a ≠ 0 → ks = []) := by
  have hkeep : ∀ {G G' : Function} {k : Nat}, G.Earlier G' → (∃ i, G.instrs[k]? = some i ∧ Aside top i) →
      ∃ i, G'.instrs[k]? = some i ∧ Aside top i := fun hG ⟨i, hk, hi⟩ ↦ ⟨i, hG _ _ hk, hi⟩
  induction h with
  | refl => exact ⟨[], .refl _ a F, fun _ _ ↦ rfl⟩
  | @aside F' ds c i _ hc hi ih =>
    obtain ⟨ks, happ, hnone⟩ := ih ha
    by_cases hca : c = a
    · subst hca
      exact ⟨_, happ.trans hkeep (appends_emitted ⟨_, append_found i, hi.placed F' c⟩),
      fun hcb h0 ↦ absurd hc (by simp [hcb, h0])⟩
    · refine ⟨_, happ.trans hkeep (appends_elsewhere hca i), fun hab h0 ↦ ?_⟩
      rw [hnone hab h0]
      rfl
  | shift _ hd hlines ih =>
    have hab := ha.resolve_right (by simp)
    obtain ⟨ks, happ, hnone⟩ := ih (.inl hab)
    have hquiet := hlines.elsewhere hab
    refine ⟨_, happ.trans hkeep ⟨hquiet.earlier, hquiet.block, nofun⟩, fun hab h0 ↦ ?_⟩
    rw [hnone hab h0]
    rfl

end

/-! ### Emitting lines -/

/-- Lowering into block `b` that writes lines as `L` has them, and nothing else. -/
def Writing (world : Universe) (fn : FuncId) (b : Nat) {α : Type} (c : Emit α) (L : α → List (Value × Instr) → Prop) :
    Prop :=
  ∀ s u a s' u' F, Emits c s u a s' u' → s.fn = fn → s.block = b → Houses fn F u → Weighed world u →
    (∃ k, s' = { s with constants := k }) ∧ Weighed world u' ∧ Extended u u' ∧
      ∃ F' lines, Houses fn F' u' ∧ Writes fn b F lines F' ∧ L a lines

section

variable {α β : Type} {world : Universe} {fn : FuncId} {b : Nat} {s s' : Stage} {u u' : CompilationUnit} {F : Function}
  {L : α → List (Value × Instr) → Prop} {L' : α → β → List (Value × Instr) → Prop} {i : Instr}
  {v p : Value} {t : Ssa.Ty}

theorem emitAt_keeps {c : Nat} (he : Emits (emitAt c i) s u v s' u') (hfn : s.fn = fn) (hF : Houses fn F u)
    (hu : Weighed world u) : s' = s ∧ v = .instr ⟨fn, F.instrs.size⟩ i.type ∧ Weighed world u' ∧ Extended u u' ∧
    Houses fn (F.append c i).1 u' := by
  subst hfn
  have hgrows := (lasting_weighed world).growable s.fn
  have hkept : Safe (Weighed world) (fun _ ↦ True) s.fn (emitAt c i) := Growable.safe_emitAt c i
  have hsince : Safe (TypedSince world u fun _ ↦ False) (fun _ ↦ True) s.fn (emitAt c i) := Growable.safe_emitAt c i
  obtain ⟨rfl, rfl, hF'⟩ := emitAt_inv he hF
  exact ⟨rfl, rfl, ((hkept s' rfl u hu).1 _ _ he).2, ((hsince s' rfl u (.start hu.typed)).1 _ _ he).2.grown, hF'⟩

theorem Writing.bind {c : Emit α} {f : α → Emit β} (hc : Writing world fn b c L)
    (hf : ∀ a, Writing world fn b (f a) (L' a)) :
    Writing world fn b (c >>= f) fun x ls ↦ ∃ a l l', L a l ∧ L' a x l' ∧ ls = l ++ l' := by
  intro s u a s' u' F he hfn hb hF hu
  obtain ⟨a₁, _, u₁, h₁, h₂⟩ := Emits.bind_iff.mp he
  obtain ⟨⟨k, rfl⟩, hu₁, hg₁, F₁, l, hF₁, hwrites, hl⟩ := hc _ _ _ _ _ F h₁ hfn hb hF hu
  obtain ⟨⟨k', rfl⟩, hu', hg', F', l', hF', hwrites', hl'⟩ := hf a₁ _ _ _ _ _ F₁ h₂ hfn hb hF₁ hu₁
  exact ⟨⟨k', rfl⟩, hu', hg₁.trans hg', F', l ++ l', hF', hwrites.trans hwrites', a₁, l, l', hl, hl', rfl⟩

theorem Writing.imp {c : Emit α} {L' : α → List (Value × Instr) → Prop} (h : Writing world fn b c L)
    (hL : ∀ a l, L a l → L' a l) : Writing world fn b c L' := by
  intro s u a s' u' F he hfn hb hF hu
  obtain ⟨hs, hu', hg, F', l, hF', hwrites, hl⟩ := h s u a s' u' F he hfn hb hF hu
  exact ⟨hs, hu', hg, F', l, hF', hwrites, hL a l hl⟩

theorem Writing.pure (a : α) : Writing world fn b (pure a) fun x ls ↦ x = a ∧ ls = [] := by
  intro s u a' s' u' F he hfn hb hF hu
  obtain ⟨rfl, rfl, rfl⟩ := Emits.pure_iff.mp he
  exact ⟨⟨_, rfl⟩, hu, .refl u, F, [], hF, .nil, rfl, rfl⟩

theorem writing_emitAt (i : Instr) : Writing world fn b (emitAt b i) fun v ls ↦ v.type = i.type ∧ ls = [(v, i)] := by
  intro s u v s' u' F he hfn hb hF hu
  obtain ⟨rfl, rfl, hu', hg, hF'⟩ := emitAt_keeps he hfn hF hu
  exact ⟨⟨_, rfl⟩, hu', hg, _, _, hF', .line .nil, rfl, rfl⟩

theorem writing_emit (i : Instr) : Writing world fn b (emit i) fun v ls ↦ v.type = i.type ∧ ls = [(v, i)] := by
  intro s u v s' u' F he hfn hb hF hu
  obtain ⟨_, _, _, hget, he⟩ := Emits.bind_iff.mp he
  obtain ⟨rfl, rfl, rfl⟩ := Emits.get_iff.mp hget
  rw [hb] at he
  exact writing_emitAt i _ _ _ _ _ F he hfn hb hF hu

theorem writing_intConst (t : Ssa.Ty) (n : Int) : Writing world fn b (intConst t n) fun v ls ↦
    (∃ o, v = .const (.ofInt t (Number.wordOfInt n)) o) ∧ ls = [] := by
  intro s u v s' u' F he hfn hb hF hu
  obtain ⟨rfl, rfl, rfl⟩ := intConst_stage he
  exact ⟨⟨_, rfl⟩, hu, .refl _, F, [], hF, .nil, ⟨_, rfl⟩, rfl⟩

theorem writing_pointerTo (p : Value) (t : Ssa.Ty) : Writing world fn b (pointerTo p (.pointer t)) fun q ls ↦
    q.type = .pointer t ∧ (Instr.pointerCast? p (.pointer t) "" = none → q = p) ∧ ls = retyping p q t := by
  unfold pointerTo retyping
  cases hcast : Instr.pointerCast? p (.pointer t) "" with
  | none =>
    refine (Writing.pure p).imp fun q ls h ↦ ⟨?_, fun _ ↦ h.1, h.2⟩
    unfold Instr.pointerCast? at hcast
    split at hcast
    · rw [h.1]
      assumption
    · cases hcast
  | some i =>
    refine (writing_emit i).imp fun q ls h ↦ ⟨?_, nofun, h.2⟩
    unfold Instr.pointerCast? at hcast
    split at hcast
    · cases hcast
    · cases hcast
      exact h.1

theorem writing_advance (p : Value) (n : Int) : Writing world fn b (advance p n) fun q ls ↦ ∃ a r o,
    ls = advancing p a r q n o := by
  refine ((writing_emit _).bind fun a ↦ (writing_intConst .i64 n).bind fun k ↦ (writing_emit _).bind fun r ↦
    writing_emit _).imp ?_
  rintro q _ ⟨a, _, _, ⟨-, rfl⟩, ⟨_, _, _, ⟨⟨o, rfl⟩, rfl⟩, ⟨r, _, _, ⟨-, rfl⟩, ⟨-, rfl⟩, rfl⟩, rfl⟩, rfl⟩
  exact ⟨a, r, o, rfl⟩

theorem writing_store (v p : Value) : Writing world fn b (store v p) fun _ ls ↦
    ∃ x, ls = [(x, .store (some v) (some p))] := by
  refine ((writing_emit _).bind fun x ↦ Writing.pure ()).imp ?_
  rintro _ _ ⟨x, _, _, ⟨-, rfl⟩, ⟨-, rfl⟩, rfl⟩
  exact ⟨x, rfl⟩

theorem writing_makeBuffer (size : Int) :
    Writing world fn 0 (makeBuffer size) fun top ls ↦ ∃ buffer x o, ls = opening size buffer top x o := by
  refine ((writing_intConst _ _).bind fun c ↦ (writing_emitAt _).bind fun buffer ↦ (writing_emitAt _).bind fun top ↦
    (writing_emitAt _).bind fun x ↦ Writing.pure top).imp ?_
  rintro _ _ ⟨_, _, _, ⟨⟨o, rfl⟩, rfl⟩,
    ⟨buffer, _, _, ⟨-, rfl⟩, ⟨top, _, _, ⟨-, rfl⟩, ⟨x, _, _, ⟨-, rfl⟩, ⟨rfl, rfl⟩, rfl⟩, rfl⟩, rfl⟩, rfl⟩
  exact ⟨buffer, x, o, rfl⟩

theorem writing_pushBuffer (top v : Value) (n : Nat) :
    Writing world fn b (pushBuffer top v n) fun _ ls ↦ (Shift.push v.type n).Spelt top ls := by
  refine ((writing_emit _).bind fun l ↦ (writing_pointerTo l v.type).bind fun q ↦ (writing_store v q).bind fun _ ↦
    (writing_advance l n).bind fun p ↦ writing_store p top).imp ?_
  rintro _ _ ⟨l, _, _, ⟨-, rfl⟩, ⟨q, _, _, ⟨-, hq, rfl⟩, ⟨_, _, _, ⟨x, rfl⟩, ⟨p, _, _, ⟨a, r, o, rfl⟩, ⟨y, rfl⟩, rfl⟩,
    rfl⟩, rfl⟩, rfl⟩
  exact .push hq

theorem writing_popBuffer (top : Value) (c : Ssa.Ty) (n : Nat) :
    Writing world fn b (popBuffer top c n) fun v ls ↦ v.type = c ∧ (∃ i, (v, i) ∈ ls) ∧
    (Shift.pop c n).Spelt top ls := by
  refine ((writing_emit _).bind fun l ↦ (writing_advance l (-n)).bind fun p ↦ (writing_store p top).bind fun _ ↦
    (writing_pointerTo p c).bind fun q ↦ writing_emit _).imp ?_
  rintro v _ ⟨l, _, _, ⟨-, rfl⟩,
    ⟨p, _, _, ⟨a, r, o, rfl⟩, ⟨_, _, _, ⟨y, rfl⟩, ⟨q, _, _, ⟨hqt, hq, rfl⟩, ⟨hv, rfl⟩, rfl⟩, rfl⟩, rfl⟩, rfl⟩
  refine ⟨?_, ⟨.load q "", by simp⟩, .pop hq⟩
  rw [hv, Instr.load, hqt]
  rfl

end

end CilSsa.Lowering

