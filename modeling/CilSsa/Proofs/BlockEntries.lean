import CilSsa.Proofs.BodyStages
import CilSsa.Proofs.TypedUnits

namespace CilSsa.Lowering

open CilSsa.Bytecode CilSsa.Metadata
open CilSsa.Ssa (Instr Value)

/-- From stage `s` to stage `s'` of a block operands are taken from below those that the block pushed, and handed over
under the types `ts`, in this order. -/
inductive Hands (site : Site) : Stage → Stage → List Ty → Prop
  | same {s s' : Stage} : s'.fn = s.fn → s'.block = s.block → s'.entry = s.entry → s'.inferring = s.inferring →
      s'.inferred = s.inferred → s'.entries = s.entries → Hands site s s' []
  | taken {s s' : Stage} {u u' : CompilationUnit} {hint : Option Ty} {v : Operand} : s.pending = [] →
      Lowers (popRaw hint) site s u v s' u' → Hands site s s' [v.type]
  | trans {s s₁ s' : Stage} {ts ts' : List Ty} : Hands site s s₁ ts → Hands site s₁ s' ts' → Hands site s s' (ts ++ ts')

/-- Lowering that hands operands over, and does nothing else to those below. -/
def Handing {α : Type} (site : Site) (c : Lower α) : Prop :=
  ∀ s u a s' u', Lowers c site s u a s' u' → ∃ ts, Hands site s s' ts

section

variable {α β : Type} {site : Site} {s s' : Stage} {ts : List Ty}

/-- What is handed over is what is recorded for the entry, from the top on, or becomes what is inferred for it. -/
theorem Hands.spec (h : Hands site s s' ts) : s'.fn = s.fn ∧ s'.block = s.block ∧ s'.entries = s.entries ∧
    s'.inferring = s.inferring ∧ (s.inferring = false → s.entry = ts ++ s'.entry) ∧
    (s.inferring = true → s.entry = [] → s'.entry = [] ∧ s'.inferred = ts.reverse ++ s.inferred) := by
  induction h with
  | same hfn hb he hi hd hs => exact ⟨hfn, hb, hs, hi, fun _ ↦ he.symm, fun _ h ↦ ⟨he.trans h, hd⟩⟩
  | taken hp hpop =>
    rcases popRaw_inv hpop with ⟨rest, hp', -⟩ | ⟨-, s₁, k, htake, rfl⟩
    · rw [hp] at hp'
      cases hp'
    · obtain ⟨-, ⟨rest, hentry, rfl⟩ | ⟨hentry, hinferring, rfl⟩⟩ := takeEntry_inv htake
      · refine ⟨rfl, rfl, rfl, rfl, fun _ ↦ hentry, fun _ hnil ↦ ?_⟩
        rw [hnil] at hentry
        cases hentry
      · refine ⟨rfl, rfl, rfl, rfl, fun hknown ↦ ?_, fun _ _ ↦ ⟨hentry, rfl⟩⟩
        rw [hinferring] at hknown
        cases hknown
  | @trans s s₁ s' ts ts' _ _ ih₁ ih₂ =>
    obtain ⟨hfn₁, hb₁, hs₁, hi₁, hknown₁, hunknown₁⟩ := ih₁
    obtain ⟨hfn₂, hb₂, hs₂, hi₂, hknown₂, hunknown₂⟩ := ih₂
    refine ⟨hfn₂.trans hfn₁, hb₂.trans hb₁, hs₂.trans hs₁, hi₂.trans hi₁, fun hf ↦ ?_, fun ht hnil ↦ ?_⟩
    · rw [hknown₁ hf, hknown₂ (hi₁.trans hf), List.append_assoc]
    · obtain ⟨hnil₁, hd₁⟩ := hunknown₁ ht hnil
      obtain ⟨hnil₂, hd₂⟩ := hunknown₂ (hi₁.trans ht) hnil₁
      exact ⟨hnil₂, by rw [hd₂, hd₁, List.reverse_append, List.append_assoc]⟩

@[grind ←] theorem Handing.bind {c : Lower α} {f : α → Lower β} (hc : Handing site c) (hf : ∀ a, Handing site (f a)) :
    Handing site (c >>= f) := by
  intro s u b s' u' h
  obtain ⟨a, s₁, u₁, h₁, h₂⟩ := Lowers.bind_iff.mp h
  obtain ⟨ts, hts⟩ := hc _ _ _ _ _ h₁
  obtain ⟨ts', hts'⟩ := hf a _ _ _ _ _ h₂
  exact ⟨ts ++ ts', hts.trans hts'⟩

@[grind ←] theorem Idle.handing {c : Lower α} (h : Idle site c) : Handing site c := by
  intro s u a s' u' he
  obtain ⟨k, rfl⟩ := h s u a s' u' he
  exact ⟨[], .same rfl rfl rfl rfl rfl rfl⟩

@[grind ←] theorem Handing.read_bind {f : Site → Lower β} (h : Handing site (f site)) : Handing site (read >>= f) := h

@[grind ←] theorem handing_push (v : Operand) : Handing site (liftM (push v) : Lower PUnit) := by
  intro s u a s' u' h
  obtain ⟨rfl, -⟩ := Emits.modify_iff.mp (Lowers.emit_iff.mp h)
  exact ⟨[], .same rfl rfl rfl rfl rfl rfl⟩

@[grind ←] theorem handing_popRaw (hint : Option Ty) : Handing site (popRaw hint) := by
  intro s u v s' u' h
  rcases popRaw_inv h with ⟨rest, -, rfl, -⟩ | ⟨hp, -⟩
  · exact ⟨[], .same rfl rfl rfl rfl rfl rfl⟩
  · exact ⟨[v.type], .taken hp h⟩

@[grind ←] theorem handing_pop (t : Ty) : Handing site (pop t) := (handing_popRaw _).bind fun v ↦
    (idle_convert v t).handing

theorem Idle.lift_mapM {f : α → Emit β} {as : List α} (h : ∀ a ∈ as, Idle site (liftM (f a) : Lower β)) :
    Idle site (liftM (as.mapM f) : Lower (List β)) := by
  induction as with
  | nil => exact .lift_pure _
  | cons a as ih =>
    rw [List.mapM_cons]
    refine .lift_bind (h a List.mem_cons_self) fun b ↦ ?_
    exact .lift_bind (ih fun a ha ↦ h a (List.mem_cons_of_mem _ ha)) fun bs ↦ .lift_pure _

@[grind ←] theorem handing_settle : Handing site (liftM settle : Lower PUnit) := by
  intro s u a s' u' h
  obtain ⟨_, _, _, hget, h⟩ := Emits.bind_iff.mp (Lowers.emit_iff.mp h)
  obtain ⟨rfl, rfl, rfl⟩ := Emits.get_iff.mp hget
  obtain ⟨ws, _, _, hread, hmodify⟩ := Emits.bind_iff.mp h
  obtain ⟨k, rfl⟩ := (Idle.lift_mapM fun v _ ↦ idle_materialize v : Idle site _) _ _ _ _ _ (Lowers.emit_iff.mpr hread)
  obtain ⟨rfl, rfl⟩ := Emits.modify_iff.mp hmodify
  exact ⟨[], .same rfl rfl rfl rfl rfl rfl⟩

@[grind ←] theorem handing_lowerWithin {part : Part} {c : Lower α} (h : Handing site c) :
    Handing site (lowerWithin part c) :=
  fun s u a s' u' he ↦ h s u a s' u' (Compiles.adapt_iff.mp he)

@[grind ←] theorem Handing.mapM {f : α → Lower β} {as : List α} (h : ∀ a ∈ as, Handing site (f a)) :
    Handing site (as.mapM f) := by
  induction as with
  | nil => exact (Idle.pure _).handing
  | cons a as ih =>
    rw [List.mapM_cons]
    refine (h a List.mem_cons_self).bind fun b ↦ ?_
    exact (ih fun a ha ↦ h a (List.mem_cons_of_mem _ ha)).bind fun bs ↦ (Idle.pure _).handing

@[grind ←] theorem handing_operands : Handing site operands := by grind [operands]

@[grind ←] theorem handing_arith (i : Instruction) (op : Arith) : Handing site (arith i op) := by
  refine handing_operands.bind fun p ↦ ?_
  dsimp only
  split <;> grind

@[grind ←] theorem handing_compare (i : Instruction) (c : Comparison) : Handing site (compare i c) := by
  refine handing_operands.bind fun p ↦ ?_
  dsimp only
  split <;> grind

@[grind ←] theorem idle_truth (i : Instruction) (v : Operand) (want : Bool) : Idle site (truth i v want) := by
  unfold truth
  grind

@[grind ←] theorem handing_convertTop (t : Ty) : Handing site (convertTop t) := by grind [convertTop]

@[grind ←] theorem handing_convertTopUnsigned : Handing site convertTopUnsigned := by grind [convertTopUnsigned]

@[grind ←] theorem handing_loadObject (t : Ty) : Handing site (loadObject t) := by grind [loadObject]

@[grind ←] theorem handing_storeObject (t : Ty) : Handing site (storeObject t) := by grind [storeObject]

@[grind ←] theorem handing_storeSlot (v : Operand) : Handing site (storeSlot v) := by grind [storeSlot]

@[grind ←] theorem handing_clearObject (t : Ty) : Handing site (clearObject t) := by grind [clearObject]

@[grind ←] theorem handing_fieldPointer (f : Field) (index : Nat) : Handing site (fieldPointer f index) := by
  refine (handing_popRaw _).bind fun v ↦ (Idle.bind (idle_address v _) fun p ↦ ?_).handing
  exact Idle.bind (.compile _) fun u ↦ idle_emit _

@[grind ←] theorem handing_callArguments (m : Method) : Handing site (callArguments m) := by
  refine (Handing.mapM fun p _ ↦ ?_).bind fun _ ↦ (Idle.pure _).handing
  exact (handing_lowerWithin (handing_pop _)).bind fun _ ↦ (Idle.pure _).handing

@[grind ←] theorem idle_methodOperand (i : Instruction) : Idle site (methodOperand i) := by
  refine .read_bind (.bind (.compile _) fun id ↦ ?_)
  split
  · exact .pure _
  · exact .throw

@[grind ←] theorem handing_newObject (i : Instruction) : Handing site (newObject i) := by
  refine (idle_methodOperand i).handing.bind fun m ↦ ?_
  dsimp only
  split
  on_goal 1 => refine Idle.throw.handing.bind fun _ ↦ ?_
  all_goals
    refine handing_settle.bind fun _ ↦ .read_bind ((Idle.compile (site.compile m)).handing.bind fun f ↦ ?_)
    refine (idle_counterpart _).handing.bind fun code ↦ (Idle.compile (sizeOf code)).handing.bind fun size ↦ ?_
    refine (handing_callArguments m).bind fun args ↦ (idle_slotFor _ _).handing.bind fun object ↦ ?_
    refine Idle.stage.handing.bind fun s ↦ (idle_clearAt _ _ _).handing.bind fun _ ↦ ?_
    exact (idle_emitCall f _).handing.bind fun _ ↦ handing_push _

@[grind ←] theorem handing_call (i : Instruction) : Handing site (call i) := by
  refine (idle_methodOperand i).handing.bind fun m ↦ handing_settle.bind fun _ ↦ .read_bind ?_
  refine (Idle.compile (site.compile m)).handing.bind fun f ↦ (handing_callArguments m).bind fun args ↦ ?_
  grind

theorem handing_lower (start : Nat) {i : Instruction} (h : i.endsBlock = false) : Handing site (lower start i) := by
  unfold lower
  split <;> rename_i hi
  case h_29 | h_30 | h_31 | h_32 =>
    have hends := endsBlock_of_takes?_eq_none (i := i) (by rw [hi]; rfl)
    simp [hi, h] at hends
  all_goals grind

end

end CilSsa.Lowering

namespace CilSsa.Lowering

open CilSsa.Bytecode CilSsa.Metadata
open CilSsa.Ssa (FuncId Function Instr Value)

/-- In the unit `u`, two types are the same or have the same counterpart. -/
def Alike (u : CompilationUnit) (t t' : Ty) : Prop := t = t' ∨ ∃ c, Means u t c ∧ Means u t' c

/-- The type that an operand has on the run-time stack: that of what a slot holds, and a reference for an aggregate. -/
def Operand.spilledType (v : Operand) : Ty :=
  let t := if v.slot then v.type.elem else v.type
  let c := if v.slot then v.value.type.pointee else v.value.type
  if c.isStruct then .byref t else t

/-- The operands with the types `shape`, bottom first, are recorded for the blocks at the offsets `os`. -/
structure Recorded (u : CompilationUnit) (shape : List Ty) (os : List Nat) (E E' : List (Nat × List Ty)) : Prop where
  kept : ∀ o e, E.lookup o = some e → E'.lookup o = some e
  each : ∀ o ∈ os, ∃ e, E'.lookup o = some e ∧ List.Forall₂ (Alike u) e shape

/-- A site of a world where it compiles what it needs. -/
structure Site.Genuine (site : Site) : Prop where
  consistent : Consistent site.world
  compiles : ∃ fuel, site.compile = compileMethod site.world fuel

/-- A unit that grew out of `b`, with a registry that fits its types, and where the code of function `fn` goes on from
`F`. -/
structure Built (world : Universe) (fn : FuncId) (b : CompilationUnit) (F : Function) (u : CompilationUnit) : Prop where
  typed : TypedSince world b (fun _ ↦ False) u
  code : Lengthened fn F u

/-- Lowering into a function is under way in a unit whose registry fits its types. -/
structure Going (site : Site) (fn : FuncId) (s : Stage) (u : CompilationUnit) : Prop where
  own : s.fn = fn
  typed : Typed site.world u
  houses : ∃ F, Houses fn F u

/-- The unit `u'` grew out of `u`, and so did the code of function `fn`. -/
structure Onward (fn : FuncId) (u u' : CompilationUnit) : Prop where
  extended : Extended u u'
  code : Continues fn u u'

section

variable {α : Type} {world : Universe} {site : Site} {fn : FuncId} {b u u' u'' : CompilationUnit}
  {F : Function} {s s' : Stage} {t t' t'' : Ty}

theorem Alike.trans (h : Alike u t t') (h' : Alike u t' t'') : Alike u t t'' := by
  rcases h with rfl | ⟨c, ht, ht'⟩
  · exact h'
  · rcases h' with rfl | ⟨c', hc, hc'⟩
    · exact .inr ⟨c, ht, ht'⟩
    · obtain rfl := ht'.unique hc
      exact .inr ⟨c, ht, hc'⟩

theorem Alike.mono (h : Extended u u') (ha : Alike u t t') : Alike u' t t' :=
  ha.imp_right fun ⟨c, ht, ht'⟩ ↦ ⟨c, ht.mono h, ht'.mono h⟩

theorem alike_trans {as bs cs : List Ty} (h : List.Forall₂ (Alike u) as bs) (h' : List.Forall₂ (Alike u) bs cs) :
    List.Forall₂ (Alike u) as cs := by
  induction h generalizing cs with
  | nil => exact h'
  | cons hab _ ih =>
    cases h' with
    | cons hbc hrest => exact .cons (hab.trans hbc) (ih hrest)

theorem Onward.refl (fn : FuncId) (u : CompilationUnit) : Onward fn u u :=
  ⟨.refl u, fun F hF ↦ ⟨F, hF, .refl F⟩⟩

theorem Onward.trans (h : Onward fn u u') (h' : Onward fn u' u'') : Onward fn u u'' :=
  ⟨h.extended.trans h'.extended, h.code.trans h'.code⟩

theorem Recorded.mono {shape : List Ty} {os : List Nat} {E E' : List (Nat × List Ty)} (h : Recorded u shape os E E')
    (hu : Extended u u') : Recorded u' shape os E E' := by
  refine ⟨h.kept, fun o ho ↦ ?_⟩
  obtain ⟨e, he, halike⟩ := h.each o ho
  exact ⟨e, he, halike.imp fun _ _ ↦ .mono hu⟩

theorem Recorded.trans {shape : List Ty} {os os' : List Nat} {E E' E'' : List (Nat × List Ty)}
    (h : Recorded u shape os E E') (hu : Extended u u') (h' : Recorded u' shape os' E' E'') :
    Recorded u' shape (os ++ os') E E'' := by
  refine ⟨fun o e ho ↦ h'.kept o e (h.kept o e ho), List.forall_mem_append.mpr ⟨fun o ho ↦ ?_, h'.each⟩⟩
  obtain ⟨e, he, halike⟩ := (h.mono hu).each o ho
  exact ⟨e, h'.kept o e he, halike⟩

instance growable_built : Growable (Built world fn b F) (fun _ ↦ True) fn where
  fails _ := trivial
  same h hs := ⟨Stable.same (E := fun _ ↦ True) h.typed hs, Stable.same (E := fun _ ↦ True) h.code hs⟩
  sameFailed _ _ := trivial
  append k i h := ⟨Growable.append (E := fun _ ↦ True) k i h.typed, Growable.append (E := fun _ ↦ True) k i h.code⟩
  memset h := ⟨Growable.memset (E := fun _ ↦ True) fn h.typed, Growable.memset (E := fun _ ↦ True) fn h.code⟩

theorem spec_built {c : Compile α} {Q : α → CompilationUnit → Prop}
    (hc : Spec (TypedSince world b fun _ ↦ False) c (fun a u ↦ Q a u ∧ TypedSince world b (fun _ ↦ False) u) fun _ ↦
    True) (hleaves : Leaves fn c) : Spec (Built world fn b F) c (fun _ ↦ Built world fn b F) fun _ ↦ True :=
  fun u hu ↦ ⟨fun a u' ha ↦ ⟨((hc u hu.typed).1 a u' ha).2, (hleaves.lengthened u hu.code).1 a u' ha⟩,
    fun _ _ _ ↦ trivial⟩

theorem supports_built (hsite : site.Genuine) : Supports (Built site.world fn b F) (fun _ ↦ True) site := by
  obtain ⟨hworld, fuel, hcompile⟩ := hsite
  refine ⟨fun t ↦ spec_built (spec_compileType_typed _ b _ t) (leaves_compileType _ _ t), fun id m hm ↦ ?_⟩
  rw [hcompile]
  exact spec_built (spec_compileMethod_typed hworld fuel (hworld id m hm)) (leaves_compileMethod _ fuel m)

theorem Going.stage (h : Going site fn s u) (hfn : s'.fn = s.fn) : Going site fn s' u :=
    ⟨hfn.trans h.own, h.typed, h.houses⟩

theorem Going.same (h : Going site fn s u) (hs : SameUpToLayouts u u') : Going site fn s u' ∧ Onward fn u u' := by
  have htyped : TypedSince site.world u (fun _ ↦ False) u' :=
    Stable.same (E := fun _ ↦ True) (.start h.typed : TypedSince site.world u (fun _ ↦ False) u) hs
  have hcode : Continues fn u u' := .of_functions (by rw [hs.module]) (by rw [hs.module])
  obtain ⟨F, hF⟩ := h.houses
  obtain ⟨F', hF', -⟩ := hcode F hF
  exact ⟨⟨h.own, htyped.toTypedBut, F', hF'⟩, htyped.grown, hcode⟩

theorem Going.run {c : Lower α} {a : α} (hsite : site.Genuine) (h : Going site fn s u)
    (hc : ∀ (J E : CompilationUnit → Prop) [Growable J E fn] [Supports J E site], SafeAt J E fn site c)
    (he : Lowers c site s u a s' u') : Going site fn s' u' ∧ Onward fn u u' := by
  have hrun : ∀ F, Houses fn F u → s'.fn = fn ∧ Built site.world fn u F u' := by
    intro F hF
    have : Supports (Built site.world fn u F) (fun _ ↦ True) site := supports_built hsite
    exact (hc (Built site.world fn u F) (fun _ ↦ True) s h.own u ⟨.start h.typed, F, hF, .refl F⟩).1 (a, s') u' he
  obtain ⟨F, hF⟩ := h.houses
  obtain ⟨hfn, htyped, F', hF', -⟩ := hrun F hF
  exact ⟨⟨hfn, htyped.toTypedBut, F', hF'⟩, htyped.grown, fun F hF ↦ (hrun F hF).2.code⟩

/-! ### Spilling -/

theorem emit_type {i : Instr} {v : Value} (he : Emits (emit i) s u v s' u') : v.type = i.type := by
  unfold emit emitAt onModule at he
  simp only [Emits.bind_iff, Emits.get_iff, Emits.lift_iff, Compiles.bind_iff, Compiles.get_iff, Compiles.set_iff,
    Compiles.pure_iff] at he
  obtain ⟨_, _, _, ⟨rfl, rfl, rfl⟩, _, _, _, ⟨rfl, rfl, rfl⟩, -, _, _, ⟨rfl, rfl⟩, _, _, -, rfl, -⟩ := he
  unfold Ssa.Module.append
  split <;> rfl

theorem materialize_type {v w : Operand} (he : Emits (materialize v) s u w s' u') :
    w.type = (if v.slot then v.type.elem else v.type) ∧
      w.value.type = if v.slot then v.value.type.pointee else v.value.type := by
  unfold materialize at he
  split at he
  · rename_i hslot
    obtain ⟨p, _, _, hload, he⟩ := Emits.bind_iff.mp he
    obtain ⟨rfl, -, -⟩ := Emits.pure_iff.mp he
    rw [if_pos hslot, if_pos hslot]
    exact ⟨rfl, emit_type hload⟩
  · rename_i hslot
    obtain ⟨rfl, -, -⟩ := Emits.pure_iff.mp he
    rw [if_neg hslot, if_neg hslot]
    exact ⟨rfl, rfl⟩

theorem spilled_type {v w : Operand} (he : Emits (spilled v) s u w s' u') : w.type = v.spilledType := by
  obtain ⟨x, _, _, hx, he⟩ := Emits.bind_iff.mp he
  obtain ⟨htype, hvalue⟩ := materialize_type hx
  rw [Operand.spilledType, ← htype, ← hvalue]
  split at he
  · rename_i hstruct
    obtain ⟨_, _, _, -, he⟩ := Emits.bind_iff.mp he
    obtain ⟨_, _, _, -, he⟩ := Emits.bind_iff.mp he
    obtain ⟨rfl, -, -⟩ := Emits.pure_iff.mp he
    rw [if_pos hstruct]
  · rename_i hstruct
    obtain ⟨rfl, -, -⟩ := Emits.pure_iff.mp he
    rw [if_neg hstruct]

theorem idle_spilled (v : Operand) : Idle site (liftM (spilled v) : Lower Operand) := by grind [spilled]

theorem idle_pushBuffer (c v : Value) (n : Int) : Idle site (liftM (pushBuffer c v n) : Lower Unit) :=
    by grind [pushBuffer]

theorem pushAll_types {depth : Int} {vs : List Operand} {ts : List Ty}
    (he : Lowers (pushAll depth vs) site s u ts s' u') :
    ts = vs.map Operand.spilledType ∧ ∃ k, s' = { s with constants := k } := by
  induction vs generalizing depth s u ts with
  | nil =>
    obtain ⟨rfl, rfl, rfl⟩ := Lowers.pure_iff.mp he
    exact ⟨rfl, _, rfl⟩
  | cons v vs ih =>
    obtain ⟨_, _, _, hread, he⟩ := Lowers.bind_iff.mp he
    obtain ⟨rfl, rfl, rfl⟩ := Lowers.read_iff.mp hread
    obtain ⟨w, _, _, hw, he⟩ := Lowers.bind_iff.mp he
    obtain ⟨k₁, rfl⟩ := idle_spilled v _ _ _ _ _ hw
    obtain ⟨n, _, _, hn, he⟩ := Lowers.bind_iff.mp he
    obtain ⟨rfl, -⟩ := Lowers.compile_iff.mp hn
    dsimp only at he
    split at he
    · obtain ⟨_, _, _, hthrow, -⟩ := Lowers.bind_iff.mp he
      exact absurd hthrow Lowers.throw_iff
    · obtain ⟨_, _, _, hpush, he⟩ := Lowers.bind_iff.mp he
      obtain ⟨k₂, rfl⟩ := idle_pushBuffer _ _ _ _ _ _ _ _ hpush
      obtain ⟨ts', _, _, hrest, he⟩ := Lowers.bind_iff.mp he
      obtain ⟨rfl, rfl, rfl⟩ := Lowers.pure_iff.mp he
      obtain ⟨rfl, k₃, rfl⟩ := ih hrest
      exact ⟨by rw [List.map_cons, spilled_type (Lowers.emit_iff.mp hw)], k₃, rfl⟩

/-! ### Recording -/

theorem Lowers.counterpart_iff {c : Ssa.Ty} :
    Lowers (counterpart t) site s u c s' u' ↔ s = s' ∧ Compiles (codeType site.world t) u c u' := by
  unfold counterpart
  simp only [Lowers.bind_iff, Lowers.read_iff, Lowers.compile_iff]
  exact ⟨fun ⟨_, _, _, ⟨hsite, hs, hu⟩, h⟩ ↦ hsite ▸ hs ▸ hu ▸ h, fun h ↦ ⟨_, _, _, ⟨rfl, rfl, rfl⟩, h⟩⟩

theorem counterpart_means (hsite : site.Genuine) {c : Ssa.Ty} (h : Going site fn s u)
    (he : Lowers (counterpart t) site s u c s' u') : s' = s ∧ Means u' t c ∧ Going site fn s' u' ∧ Onward fn u u' := by
  have hrun := h.run hsite (fun _ _ _ _ ↦ safe_counterpart t) he
  obtain ⟨rfl, hc⟩ := Lowers.counterpart_iff.mp he
  have hspec : Spec (TypedSince site.world u fun _ ↦ False) (codeType site.world t)
      (fun c u' ↦ Means u' t c ∧ TypedSince site.world u (fun _ ↦ False) u') fun _ ↦ True := spec_codeType_typed t
  exact ⟨rfl, ((hspec u (.start h.typed)).1 c u' hc).1, hrun⟩

theorem sameShape_alike (hsite : site.Genuine) {as bs : List Ty} (h : Going site fn s u)
    (he : Lowers (sameShape as bs) site s u true s' u') : List.Forall₂ (Alike u') as bs := by
  induction as, bs using sameShape.induct generalizing s u with
  | case1 => exact .nil
  | case2 a as b bs ih =>
    rw [sameShape] at he
    obtain ⟨x, s₁, u₁, hx, hbs⟩ := Lowers.bind_iff.mp he
    obtain ⟨y, s₂, u₂, hy, hshape⟩ := Lowers.bind_iff.mp hbs
    obtain ⟨rfl, hmeans, hgoing, honward⟩ := counterpart_means hsite h hx
    obtain ⟨rfl, hmeans', hgoing', honward'⟩ := counterpart_means hsite hgoing hy
    split at hshape
    · rename_i heq
      have hrest := (hgoing'.run hsite (fun _ _ _ _ ↦ safe_sameShape as bs) hshape).2
      refine .cons (.inr ⟨x, ?_, ?_⟩) (ih hgoing' hshape)
      · exact (hmeans.mono honward'.extended).mono hrest.extended
      · exact heq ▸ hmeans'.mono hrest.extended
    · obtain ⟨h, -, -⟩ := Lowers.pure_iff.mp hshape
      cases h
  | case3 as bs h1 h2 =>
    rw [sameShape] at he
    · obtain ⟨h, -, -⟩ := Lowers.pure_iff.mp he
      cases h
    · exact h1
    · exact h2

theorem idle_sameShape (as bs : List Ty) : Idle site (sameShape as bs) := by
  induction as, bs using sameShape.induct with
  | case1 => exact .pure _
  | case2 a as b bs ih => grind [sameShape]
  | case3 as bs h1 h2 =>
    rw [sameShape]
    · exact .pure _
    · exact h1
    · exact h2

theorem recordEntry_spec (hsite : site.Genuine) {shape : List Ty} {o : Nat} {x : Unit} (h : Going site fn s u)
    (he : Lowers (recordEntry shape o) site s u x s' u') :
    (∃ k E, s' = { s with constants := k, entries := E }) ∧ Recorded u' shape [o] s.entries s'.entries := by
  obtain ⟨_, _, _, hget, he⟩ := Lowers.bind_iff.mp he
  obtain ⟨rfl, rfl, rfl⟩ := Lowers.getThe_iff.mp hget
  split at he
  · rename_i hnone
    obtain ⟨rfl, rfl⟩ := Lowers.set_iff.mp he
    refine ⟨⟨_, _, rfl⟩, fun o' e ho ↦ ?_, List.forall_mem_singleton.mpr ⟨shape, lookup_cons_same _ _ _, ?_⟩⟩
    · refine (lookup_cons_of_ne _ _ ?_).trans ho
      rintro rfl
      rw [hnone] at ho
      cases ho
    · exact List.forall₂_same.mpr fun t _ ↦ .inl rfl
  · rename_i known hknown
    obtain ⟨same, s₁, u₁, hsame, he⟩ := Lowers.bind_iff.mp he
    cases same with
    | false => exact absurd he Lowers.throw_iff
    | true =>
      obtain ⟨-, rfl, rfl⟩ := Lowers.pure_iff.mp he
      obtain ⟨k, rfl⟩ := idle_sameShape known shape _ _ _ _ _ hsame
      refine ⟨⟨k, _, rfl⟩, fun _ _ ho ↦ ho, List.forall_mem_singleton.mpr ⟨known, hknown,
        sameShape_alike hsite h hsame⟩⟩

theorem recordAll_spec (hsite : site.Genuine) {shape : List Ty} {os : List Nat} {x : PUnit} (h : Going site fn s u)
    (he : Lowers (os.forM (recordEntry shape)) site s u x s' u') :
    (∃ k E, s' = { s with constants := k, entries := E }) ∧ Recorded u' shape os s.entries s'.entries := by
  induction os generalizing s u with
  | nil =>
    obtain ⟨-, rfl, rfl⟩ := Lowers.pure_iff.mp he
    exact ⟨⟨_, _, rfl⟩, fun _ _ ho ↦ ho, nofun⟩
  | cons o os ih =>
    obtain ⟨_, s₁, u₁, hfirst, hrest⟩ := Lowers.bind_iff.mp he
    obtain ⟨hgoing, -⟩ := h.run hsite (fun _ _ _ _ ↦ safe_recordEntry shape o) hfirst
    obtain ⟨-, honward⟩ := hgoing.run hsite (fun _ _ _ _ ↦ SafeAt.forM fun o _ ↦ safe_recordEntry shape o) hrest
    obtain ⟨⟨k, E, rfl⟩, hrecorded⟩ := recordEntry_spec hsite h hfirst
    obtain ⟨⟨k', E', rfl⟩, hrecorded'⟩ := ih hgoing hrest
    exact ⟨⟨k', E', rfl⟩, hrecorded.trans honward.extended hrecorded'⟩

def Stage.settled (s : Stage) (start : Nat) : List (Nat × List Ty) :=
  if s.inferring then (start, s.inferred) :: s.entries else s.entries

theorem settleEntry_spec {start : Nat} {x : PUnit} (he : Lowers (settleEntry start) site s u x s' u') :
    s' = { s with entries := s.settled start, inferring := false } ∧ u' = u := by
  obtain ⟨rfl, rfl⟩ := Emits.modify_iff.mp (Lowers.emit_iff.mp he)
  refine ⟨?_, rfl⟩
  obtain ⟨_, _, _, _, _, inferring, _, _⟩ := s
  cases inferring <;> rfl

/-- What is recorded at the end of a block is the whole stack: what the block found and left there, and above it what it
pushed. -/
theorem flush_spec (hsite : site.Genuine) {start : Nat} {os : List Nat} {x : Unit} (h : Going site fn s u)
    (he : Lowers (flush start os) site s u x s' u') : s'.block = s.block ∧ s'.inferring = false ∧
      Recorded u' (s.pending.map Operand.spilledType ++ s.entry).reverse os (s.settled start) s'.entries := by
  unfold flush at he
  simp only [Lowers.bind_iff, Lowers.getThe_iff, Lowers.modifyThe_iff] at he
  obtain ⟨_, _, _, hsettle, _, _, _, ⟨rfl, rfl, rfl⟩, sizes, s₂, u₂, hsizes, ts, s₃, u₃, hpush, _, _, _,
    ⟨rfl, rfl⟩, hrecord⟩ := he
  obtain ⟨rfl, rfl⟩ := settleEntry_spec hsettle
  have hgoing₁ : Going site fn { s with entries := s.settled start, inferring := false } _ := h.stage rfl
  obtain ⟨hgoing₂, -⟩ := hgoing₁.run hsite (fun _ _ _ _ ↦ .mapM fun t _ ↦ safe_operandSize t) hsizes
  obtain ⟨hgoing₃, -⟩ := hgoing₂.run hsite (fun _ _ _ _ ↦ safe_pushAll _ _) hpush
  have hgoing₄ : Going site fn { s₃ with pending := [] } u₃ := hgoing₃.stage rfl
  obtain ⟨k, rfl⟩ := (Idle.mapM fun t _ ↦ idle_operandSize t) _ _ _ _ _ hsizes
  obtain ⟨rfl, k', rfl⟩ := pushAll_types hpush
  obtain ⟨⟨k'', E, rfl⟩, hrecorded⟩ := recordAll_spec hsite hgoing₄ hrecord
  rw [List.map_reverse, ← List.reverse_append] at hrecorded
  exact ⟨rfl, rfl, hrecorded⟩

end

end CilSsa.Lowering

