import CilSsa.Proofs.BlockEntries

namespace CilSsa.Lowering

open CilSsa.Bytecode CilSsa.Metadata
open CilSsa.Ssa (FuncId Function Instr Value)

/-- What is lowered of an instruction that ends its block before the operands that are left are spilled. -/
def ending (i : Instruction) : Lower Unit := do
  match action i with
  | .ret =>
    let t := (← read).method.returnType
    if t.isVoid then pure () else let _ ← pop t
  | .jumpIf want =>
    let v ← popRaw none
    let _ ← truth i (← deref v) want
  | .jumpCompare c => let _ ← compare i c
  | _ => pure ()

/-- The offsets where the code goes on after an instruction that ends its block. -/
def leadsTo (i : Instruction) : List Nat :=
  match action i with
  | .jump => [i.target.toNat]
  | .jumpIf _ | .jumpCompare _ => [i.target.toNat, i.next]
  | _ => []

/-- What is lowered of a span before the operands that are left are spilled. -/
def lowerUpTo (sp : Bytecode.Span) : Lower Unit := do
  sp.instrs.dropLast.forM fun i ↦ lower sp.start i
  match sp.instrs.getLast? with
  | some i => if sp.fallsThrough then lower sp.start i else ending i
  | none => pure ()

def follows (sp : Bytecode.Span) : List Nat :=
  if sp.fallsThrough then [sp.stop] else (sp.instrs.getLast?.map leadsTo).getD []

/-- What a block takes from the run-time stack and puts there, top first: the types under which operands from other
blocks are handed over, the types of those that are left there, and those of the operands that the block pushed itself.
-/
structure Exchange where
  handed : List Ty
  left : List Ty
  pushed : List Ty

/-- Opens the block with number `n`, and lowers it up to where the operands that are left are spilled. -/
def lowerToEnd (site : Site) (n : Nat) (sp : Bytecode.Span) : Emit Unit := fun s ↦ do
  let _ ← beginSpan .block (offsetLabel sp.start)
  lowerUpTo sp site (opened s n sp.start)

/-- The block with number `n`, of the span `sp`, makes the exchange `x`. -/
def Exchanges (site : Site) (n : Nat) (sp : Bytecode.Span) (s : Stage) (u : CompilationUnit) (x : Exchange) : Prop :=
  ∃ s₁ u₁, Emits (lowerToEnd site n sp) s u ⟨⟩ s₁ u₁ ∧ Hands site (opened s n sp.start) s₁ x.handed ∧
    x.left = s₁.entry ∧ x.pushed = s₁.pending.map Operand.spilledType

section

variable {site : Site} {s s' : Stage} {u u' : CompilationUnit} {i : Instruction} {sp : Bytecode.Span} {start n : Nat}

theorem action_ends (h : i.endsBlock = true) : action i = .unsupported ∨ action i = .ret ∨
    action i = .jump ∧ i.isShortBranch = true ∨
    ((∃ want, action i = .jumpIf want) ∨ ∃ c, action i = .jumpCompare c) ∧ i.isShortBranch = true ∧
    i.op.flow = .condBranch := by
  obtain ⟨offset, op, size, operand⟩ := i
  cases op <;>
    first
    | cases h; done
    | exact .inl rfl
    | exact .inr (.inl rfl)
    | exact .inr (.inr (.inl ⟨rfl, rfl⟩))
    | exact .inr (.inr (.inr ⟨.inl ⟨_, rfl⟩, rfl, rfl⟩))
    | exact .inr (.inr (.inr ⟨.inr ⟨_, rfl⟩, rfl, rfl⟩))

theorem follows_inside {code : Text.Bytes} {spans : List Bytecode.Span} (h : Discovered code spans)
    (hsp : sp ∈ spans) {o : Nat} (ho : o ∈ follows sp) : ∃ sp' ∈ spans, sp'.start = o := by
  obtain ⟨init, last, hinstrs, -, hlast⟩ := (h.tiles sp hsp).ends
  unfold follows at ho
  split at ho
  · rename_i hfalls
    obtain rfl := List.mem_singleton.mp ho
    exact (h.tiles sp hsp).falls hfalls
  · rename_i hfalls
    have hmem : last ∈ (decodeAll code).1 := by
      rw [← h.whole]
      exact List.mem_flatMap.mpr ⟨sp, hsp, by rw [hinstrs]; exact List.mem_append_right _ List.mem_cons_self⟩
    have htarget : last.isShortBranch = true → ∃ sp' ∈ spans, sp'.start = last.target.toNat := fun hbranch ↦ by
      obtain ⟨sp', hsp', hstart⟩ := h.target last hmem hbranch
      exact ⟨sp', hsp', by omega⟩
    rw [hinstrs, List.getLast?_concat, Option.map_some, Option.getD_some, leadsTo] at ho
    rw [Bool.eq_false_iff.mpr hfalls] at hlast
    rcases action_ends hlast with hi | hi | ⟨hi, hbranch⟩ | ⟨⟨want, hi⟩ | ⟨c, hi⟩, hbranch, hflow⟩ <;> rw [hi] at ho
    · cases ho
    · cases ho
    · obtain rfl := List.mem_singleton.mp ho
      exact htarget hbranch
    all_goals
      rcases List.mem_pair.mp ho with rfl | rfl
      · exact htarget hbranch
      · exact h.next last hmem hbranch hflow

@[grind ←] theorem handing_ending (i : Instruction) : Handing site (ending i) := by
  unfold ending
  split
  · refine .read_bind ?_
    dsimp only
    split <;> grind
  all_goals grind

/-- The code of a block leads to the blocks at the offsets `os`. -/
structure LeadsTo (site : Site) (fn : FuncId) (t : Instr) (os : List Nat) : Prop where
  ends : t.op.isTerminator = true
  successors : t.successors = os.map fun o ↦ some ⟨fn, blockOf site.spans o⟩

theorem branchOn_inv {c : Value} {x : Unit} (he : Lowers (branchOn start i c) site s u x s' u') :
    ∃ s₁ u₁ t v, Lowers (flush start [i.target.toNat, i.next]) site s u ⟨⟩ s₁ u₁ ∧ Lowers (emit t) site s₁ u₁ v s' u' ∧
      LeadsTo site s₁.fn t [i.target.toNat, i.next] := by
  unfold branchOn at he
  simp only [Lowers.bind_iff, Lowers.pure_iff] at he
  obtain ⟨_, s₁, u₁, hflush, _, _, _, hb, _, _, _, hb', v, _, _, hemit, -, rfl, rfl⟩ := he
  obtain ⟨rfl, rfl, rfl⟩ := blockAt_code hb
  obtain ⟨rfl, rfl, rfl⟩ := blockAt_code hb'
  exact ⟨_, _, _, v, hflush, hemit, rfl, rfl⟩

/-- An instruction that ends its block: what comes before the operands are spilled, the spilling, and the end of the
code. -/
theorem lower_ending {x : Unit} (hends : i.endsBlock = true) (he : Lowers (lower start i) site s u x s' u') :
    ∃ s₁ u₁ s₂ u₂ t v, Lowers (ending i) site s u ⟨⟩ s₁ u₁ ∧ Lowers (flush start (leadsTo i)) site s₁ u₁ ⟨⟩ s₂ u₂ ∧
      Lowers (emit t) site s₂ u₂ v s' u' ∧ LeadsTo site s₂.fn t (leadsTo i) := by
  unfold lower at he
  unfold ending leadsTo
  rcases action_ends hends with hi | hi | ⟨hi, -⟩ | ⟨⟨want, hi⟩ | ⟨c, hi⟩, -⟩ <;> rw [hi] at he ⊢
  · cases he
  · unfold returnFrom at he
    obtain ⟨_, _, _, hread, hret⟩ := Lowers.bind_iff.mp he
    obtain ⟨rfl, rfl, rfl⟩ := Lowers.read_iff.mp hread
    dsimp only at hret
    split at hret
    · rename_i hvoid
      obtain ⟨_, s₂, u₂, hflush, hend⟩ := Lowers.bind_iff.mp hret
      obtain ⟨v, _, _, hemit, hpure⟩ := Lowers.bind_iff.mp hend
      obtain ⟨-, rfl, rfl⟩ := Lowers.pure_iff.mp hpure
      refine ⟨_, _, s₂, u₂, _, v, ?_, hflush, hemit, rfl, rfl⟩
      exact Lowers.bind_iff.mpr ⟨_, _, _, Lowers.read_iff.mpr ⟨rfl, rfl, rfl⟩, by
        rw [if_pos hvoid]
        exact Lowers.pure_iff.mpr ⟨rfl, rfl, rfl⟩⟩
    · rename_i hvalue
      obtain ⟨w, s₁, u₁, hpop, hrest⟩ := Lowers.bind_iff.mp hret
      obtain ⟨_, s₂, u₂, hflush, hend⟩ := Lowers.bind_iff.mp hrest
      obtain ⟨v, _, _, hemit, hpure⟩ := Lowers.bind_iff.mp hend
      obtain ⟨-, rfl, rfl⟩ := Lowers.pure_iff.mp hpure
      refine ⟨s₁, u₁, s₂, u₂, _, v, ?_, hflush, hemit, rfl, rfl⟩
      exact Lowers.bind_iff.mpr ⟨_, _, _, Lowers.read_iff.mpr ⟨rfl, rfl, rfl⟩, by
        rw [if_neg hvalue]
        exact Lowers.bind_iff.mpr ⟨w, _, _, hpop, Lowers.pure_iff.mpr ⟨rfl, rfl, rfl⟩⟩⟩
  · obtain ⟨_, s₂, u₂, hflush, hend⟩ := Lowers.bind_iff.mp he
    obtain ⟨_, _, _, hb, hend⟩ := Lowers.bind_iff.mp hend
    obtain ⟨rfl, rfl, rfl⟩ := blockAt_code hb
    obtain ⟨v, _, _, hemit, hpure⟩ := Lowers.bind_iff.mp hend
    obtain ⟨-, rfl, rfl⟩ := Lowers.pure_iff.mp hpure
    exact ⟨_, _, _, _, _, v, Lowers.pure_iff.mpr ⟨rfl, rfl, rfl⟩, hflush, hemit, rfl, rfl⟩
  · obtain ⟨w, s₁, u₁, hpop, he⟩ := Lowers.bind_iff.mp he
    obtain ⟨r, s₂, u₂, hderef, he⟩ := Lowers.bind_iff.mp he
    obtain ⟨b, s₃, u₃, htruth, hbranch⟩ := Lowers.bind_iff.mp he
    obtain ⟨s₄, u₄, t, v, hflush, hemit, hleads⟩ := branchOn_inv hbranch
    refine ⟨s₃, u₃, s₄, u₄, t, v, ?_, hflush, hemit, hleads⟩
    refine Lowers.bind_iff.mpr ⟨w, s₁, u₁, hpop, Lowers.bind_iff.mpr ⟨r, s₂, u₂, hderef, ?_⟩⟩
    exact Lowers.bind_iff.mpr ⟨b, s₃, u₃, htruth, Lowers.pure_iff.mpr ⟨rfl, rfl, rfl⟩⟩
  · obtain ⟨b, s₃, u₃, hcompare, hbranch⟩ := Lowers.bind_iff.mp he
    obtain ⟨s₄, u₄, t, v, hflush, hemit, hleads⟩ := branchOn_inv hbranch
    refine ⟨s₃, u₃, s₄, u₄, t, v, ?_, hflush, hemit, hleads⟩
    exact Lowers.bind_iff.mpr ⟨b, s₃, u₃, hcompare, Lowers.pure_iff.mpr ⟨rfl, rfl, rfl⟩⟩

theorem Lowers.forM_during {f : Instruction → Lower Unit} {is : List Instruction} {x : PUnit}
    (he : Lowers (is.forM fun i ↦ during i (f i)) site s u x s' u') : Lowers (is.forM f) site s u x s' u' := by
  induction is generalizing s u with
  | nil => exact he
  | cons i is ih =>
    obtain ⟨_, s₁, u₁, hfirst, hrest⟩ := Lowers.bind_iff.mp he
    exact Lowers.bind_iff.mpr ⟨⟨⟩, s₁, u₁, Lowers.during_iff.mp hfirst, ih hrest⟩

/-- A block: what comes before the operands are spilled, the spilling, and the end of the code. -/
theorem lowerTraced_inv {x : Unit} (htiles : Tiles site.spans sp) (he : Lowers (lowerTraced n sp) site s u x s' u') :
    ∃ t s₁ u₁ s₂ u₂ i v s₃ u₃ t', Emits (lowerToEnd site n sp) s u ⟨⟩ s₁ u₁ ∧
      Lowers (lowerUpTo sp) site (opened s n sp.start) { u with tracing := t } ⟨⟩ s₁ u₁ ∧
      Lowers (flush sp.start (follows sp)) site s₁ u₁ ⟨⟩ s₂ u₂ ∧ Lowers (emit i) site s₂ u₂ v s₃ u₃ ∧
      LeadsTo site s₂.fn i (follows sp) ∧ Lowers (settleEntry sp.start) site s₃ u₃ ⟨⟩ s' u₃ ∧
      u' = { u₃ with tracing := t' } := by
  obtain ⟨span, _, hc₁, hc⟩ := Compiles.bind_iff.mp he
  obtain ⟨⟨_, _⟩, _, hc₂, hc⟩ := Compiles.bind_iff.mp hc
  obtain ⟨_, _, hc₃, hc⟩ := Compiles.bind_iff.mp hc
  obtain ⟨hret, rfl⟩ := Compiles.pure_iff.mp hc
  cases hret
  obtain ⟨t, rfl⟩ := beginSpan_unit hc₁
  obtain ⟨t', rfl⟩ := endSpan_unit hc₃
  have hblock : Lowers (lowerBlock n sp) site s { u with tracing := t } x s' _ := Compiles.failing_iff.mp hc₂
  obtain ⟨init, last, hinstrs, hinit, hlast⟩ := htiles.ends
  have hlast? : sp.instrs.getLast? = some last := by rw [hinstrs, List.getLast?_concat]
  have hinit? : sp.instrs.dropLast = init := by rw [hinstrs, List.dropLast_concat]
  unfold lowerBlock at hblock
  simp only [Lowers.bind_iff, Lowers.modifyThe_iff] at hblock
  obtain ⟨_, _, _, ⟨rfl, rfl⟩, _, s₁, u₁, hline, hend⟩ := hblock
  rw [hinstrs] at hline
  obtain ⟨_, s₀, u₀, hline, hlower⟩ := Lowers.forM_snoc hline
  have hline := hline.forM_during
  have hlower := Lowers.during_iff.mp hlower
  have hup : ∀ {s₁ u₁}, Lowers (if sp.fallsThrough then lower sp.start last else ending last) site s₀ u₀ ⟨⟩ s₁ u₁ →
      Emits (lowerToEnd site n sp) s u ⟨⟩ s₁ u₁ ∧
        Lowers (lowerUpTo sp) site (opened s n sp.start) { u with tracing := t } ⟨⟩ s₁ u₁ := by
    intro s₁ u₁ h
    have hup : Lowers (lowerUpTo sp) site (opened s n sp.start) { u with tracing := t } ⟨⟩ s₁ u₁ := by
      refine Lowers.bind_iff.mpr ⟨⟨⟩, s₀, u₀, by rw [hinit?]; exact hline, ?_⟩
      rw [hlast?]
      exact h
    exact ⟨Compiles.bind_iff.mpr ⟨span, _, hc₁, hup⟩, hup⟩
  unfold follows
  cases hfalls : sp.fallsThrough with
  | false =>
    simp only [hfalls] at hend
    obtain ⟨s₂, u₂, s₃, u₃, i, v, hending, hflush, hemit, hleads⟩ := lower_ending (by rw [hlast, hfalls]; rfl) hlower
    obtain ⟨-, rfl⟩ := settleEntry_spec hend
    rw [hlast?]
    obtain ⟨htoEnd, hup⟩ := hup (by rw [hfalls]; exact hending)
    exact ⟨t, s₂, u₂, s₃, u₃, i, v, s₁, _, t', htoEnd, hup, hflush, hemit, hleads, hend, rfl⟩
  | true =>
    simp only [hfalls, hlast?] at hend
    obtain ⟨_, s₂, u₂, hflush, hend⟩ := Lowers.bind_iff.mp hend
    obtain ⟨_, _, _, hb, hend⟩ := Lowers.bind_iff.mp hend
    obtain ⟨rfl, rfl, rfl⟩ := blockAt_code hb
    obtain ⟨v, s₃, u₃, hemit, hsettle⟩ := Lowers.bind_iff.mp hend
    obtain ⟨-, rfl⟩ := settleEntry_spec hsettle
    obtain ⟨htoEnd, hup⟩ := hup (by rw [hfalls]; exact hlower)
    exact ⟨t, s₁, u₁, _, _, _, v, s₃, _, t', htoEnd, hup, Lowers.during_iff.mp hflush, hemit, ⟨rfl, rfl⟩, hsettle, rfl⟩

theorem Compiles.unique {α : Type} {c : Compile α} {a b : α} {u₁ u₂ : CompilationUnit} (h : Compiles c u a u₁)
    (h' : Compiles c u b u₂) : a = b ∧ u₁ = u₂ := by
  obtain ⟨hret, rfl⟩ := Prod.mk.inj (h.symm.trans h')
  exact ⟨Except.ok.inj hret, rfl⟩

theorem Emits.unique {α : Type} {c : Emit α} {a b : α} {s₁ s₂ : Stage} {u₁ u₂ : CompilationUnit}
    (h : Emits c s u a s₁ u₁) (h' : Emits c s u b s₂ u₂) : s₁ = s₂ ∧ u₁ = u₂ := by
  obtain ⟨heq, rfl⟩ := Compiles.unique h h'
  exact ⟨congrArg Prod.snd heq, rfl⟩

theorem handing_lowerUpTo (htiles : Tiles site.spans sp) : Handing site (lowerUpTo sp) := by
  obtain ⟨init, last, hinstrs, hinit, hlast⟩ := htiles.ends
  have hline : ∀ is : List Instruction, (∀ i ∈ is, i.endsBlock = false) →
      Handing site (is.forM fun i ↦ lower sp.start i) := by
    intro is his
    induction is with
    | nil => exact (Idle.pure _).handing
    | cons i is ih =>
      obtain ⟨hi, his⟩ := List.forall_mem_cons.mp his
      exact (handing_lower _ hi).bind fun _ ↦ ih his
  unfold lowerUpTo
  rw [hinstrs, List.dropLast_concat, List.getLast?_concat]
  refine (hline init hinit).bind fun _ ↦ ?_
  dsimp only
  split
  · rename_i hfalls
    rw [hfalls] at hlast
    exact handing_lower _ hlast
  · exact handing_ending _

theorem safe_ending {J E : CompilationUnit → Prop} {fn : FuncId} [Growable J E fn] [Supports J E site]
    (i : Instruction) : SafeAt J E fn site (ending i) := by
  unfold ending
  split
  · refine .read_bind ?_
    dsimp only
    split <;> grind
  all_goals grind

theorem safe_lowerUpTo {J E : CompilationUnit → Prop} {fn : FuncId} [Growable J E fn] [Supports J E site]
    (sp : Bytecode.Span) : SafeAt J E fn site (lowerUpTo sp) := by
  refine SafeAt.bind (.forM fun i _ ↦ safe_lower _ i) fun _ ↦ ?_
  split
  · split
    · exact safe_lower _ _
    · exact safe_ending _
  · exact .pure _

variable {fn : FuncId} {x : Exchange}

theorem exists_exchange (htiles : Tiles site.spans sp) (he : Lowers (lowerTraced n sp) site s u ⟨⟩ s' u') :
    ∃ x, Exchanges site n sp s u x := by
  obtain ⟨t, s₁, u₁, _, _, _, _, _, _, _, htoEnd, hup, -⟩ := lowerTraced_inv htiles he
  obtain ⟨ts, hts⟩ := handing_lowerUpTo htiles _ _ _ _ _ hup
  exact ⟨⟨ts, _, _⟩, s₁, u₁, htoEnd, hts, rfl, rfl⟩

theorem Exchanges.of_known {s₁ : Stage} {u₁ : CompilationUnit} {e ts : List Ty} (htiles : Tiles site.spans sp)
    (he : Emits (lowerToEnd site n sp) s u ⟨⟩ s₁ u₁) (hknown : s.entries.lookup sp.start = some e)
    (hts : e.reverse = ts ++ s₁.entry) : Exchanges site n sp s u ⟨ts, s₁.entry,
    s₁.pending.map Operand.spilledType⟩ := by
  obtain ⟨span, u₀, -, hup⟩ := Compiles.bind_iff.mp he
  obtain ⟨ts', hhands⟩ := handing_lowerUpTo htiles _ _ _ _ _ hup
  have hentry : e.reverse = ts' ++ s₁.entry := by
    simpa [opened, hknown] using hhands.spec.2.2.2.2.1 (by simp [opened, hknown])
  obtain rfl := List.append_cancel_right (hts.symm.trans hentry)
  exact ⟨s₁, u₁, he, hhands, rfl, rfl⟩

theorem Going.course (hsite : site.Genuine) (htiles : Tiles site.spans sp) (h : Going site fn s u)
    (he : Lowers (lowerTraced n sp) site s u ⟨⟩ s' u') :
    ∃ s₁ u₁ s₂ u₂ i v u₃, Emits (lowerToEnd site n sp) s u ⟨⟩ s₁ u₁ ∧ Going site fn s₁ u₁ ∧
      Lowers (flush sp.start (follows sp)) site s₁ u₁ ⟨⟩ s₂ u₂ ∧ Going site fn s₂ u₂ ∧ Onward fn u u₂ ∧ s₂.block = n ∧
      Emits (emitAt n i) s₂ u₂ v s₂ u₃ ∧ LeadsTo site fn i (follows sp) ∧ s'.entries = s₂.entries ∧
      Onward fn u₃ u' := by
  obtain ⟨t, s₁, u₁, s₂, u₂, i, v, s₃, u₃, t', htoEnd, hup, hflush, hemit, hleads, hsettle, rfl⟩ :=
    lowerTraced_inv htiles he
  have hopened : Going site fn (opened s n sp.start) u := h.stage rfl
  have htraced : ∀ (v : CompilationUnit) t, SameUpToLayouts v { v with tracing := t } :=
    fun _ _ ↦ .of_engine ⟨rfl, rfl, rfl, rfl, rfl, rfl⟩ rfl rfl rfl
  obtain ⟨hgoing₀, honward₀⟩ := hopened.same (htraced u t)
  obtain ⟨hgoing₁, honward₁⟩ := hgoing₀.run hsite (fun _ _ _ _ ↦ safe_lowerUpTo sp) hup
  obtain ⟨hgoing₂, honward₂⟩ := hgoing₁.run hsite (fun _ _ _ _ ↦ safe_flush _ _) hflush
  obtain ⟨hgoing₃, -⟩ := hgoing₂.run hsite (fun _ _ _ _ ↦ .lift (Growable.safe_emit i)) hemit
  obtain ⟨-, honward₄⟩ := hgoing₃.same (htraced u₃ t')
  obtain ⟨ts, hts⟩ := handing_lowerUpTo htiles _ _ _ _ _ hup
  obtain ⟨hblock, hsettled, -⟩ := flush_spec hsite hgoing₁ hflush
  have hblock : s₂.block = n := hblock.trans hts.spec.2.1
  obtain ⟨_, _, _, hget, hemit'⟩ := Emits.bind_iff.mp (Lowers.emit_iff.mp hemit)
  obtain ⟨rfl, rfl, rfl⟩ := Emits.get_iff.mp hget
  rw [hblock] at hemit'
  obtain ⟨F, hF⟩ := hgoing₂.houses
  obtain ⟨rfl, -, -⟩ := emitAt_inv hemit' (hgoing₂.own ▸ hF)
  obtain ⟨rfl, -⟩ := settleEntry_spec hsettle
  refine ⟨s₁, u₁, s₃, u₂, i, v, u₃, htoEnd, hgoing₁, hflush, hgoing₂, (honward₀.trans honward₁).trans honward₂, hblock,
    hemit', hgoing₂.own ▸ hleads, ?_, honward₄⟩
  dsimp only
  rw [Stage.settled, hsettled]
  rfl

theorem Exchanges.recorded (hsite : site.Genuine) (htiles : Tiles site.spans sp) (hgoing : Going site fn s u)
    (hx : Exchanges site n sp s u x) (he : Lowers (lowerTraced n sp) site s u ⟨⟩ s' u') :
    s'.entries.lookup sp.start = some (x.handed ++ x.left).reverse ∧
      Recorded u' (x.pushed ++ x.left).reverse (follows sp) s.entries s'.entries := by
  obtain ⟨s₁, u₁, s₂, u₂, i, v, u₃, htoEnd, hgoing₁, hflush, hgoing₂, -, -, hemit, -, hentries, honward⟩ :=
    hgoing.course hsite htiles he
  obtain ⟨_, _, htoEnd', hhands, hleft, hpushed⟩ := hx
  obtain ⟨rfl, rfl⟩ := htoEnd.unique htoEnd'
  have hend : Lowers (emitAt n i) site s₂ u₂ v s₂ u₃ := Lowers.emit_iff.mpr hemit
  obtain ⟨-, honward₃⟩ := hgoing₂.run hsite (fun _ _ _ _ ↦ .lift (Growable.safe_emitAt n i)) hend
  have hrecorded := (flush_spec hsite hgoing₁ hflush).2.2.mono (honward₃.trans honward).extended
  rw [hentries, hleft, hpushed]
  obtain ⟨-, -, hsame, hinferring, hknown, hunknown⟩ := hhands.spec
  cases hlookup : s.entries.lookup sp.start with
  | some e =>
    have hfixed : s₁.settled sp.start = s.entries := by
      rw [Stage.settled, hinferring, hsame]
      simp [opened, hlookup]
    have hentry : e.reverse = x.handed ++ s₁.entry :=
      by simpa [opened, hlookup] using hknown (by simp [opened, hlookup])
    rw [hfixed] at hrecorded
    refine ⟨?_, hrecorded⟩
    rw [← hentry, List.reverse_reverse]
    exact hrecorded.kept _ _ hlookup
  | none =>
    obtain ⟨hnil, hinferred⟩ := hunknown (by simp [opened, hlookup]) (by simp [opened, hlookup])
    have hfixed : s₁.settled sp.start = (sp.start, x.handed.reverse) :: s.entries := by
      rw [Stage.settled, hinferring, hsame, hinferred]
      simp [opened, hlookup]
    rw [hfixed] at hrecorded
    refine ⟨?_, fun o e ho ↦ hrecorded.kept o e ((lookup_cons_of_ne _ _ ?_).trans ho), hrecorded.each⟩
    · rw [hnil, List.append_nil]
      exact hrecorded.kept _ _ (lookup_cons_same _ _ _)
    · rintro rfl
      rw [hlookup] at ho
      cases ho

variable {os : List Nat} {F F' : Function}

variable (site fn) in
/-- Block `b` of the code has an instruction that ends it and leads to the blocks at the offsets `os`. -/
def Leaving (b : Nat) (os : List Nat) (F : Function) : Prop :=
  ∃ B k i, F.blocks[b]? = some B ∧ k ∈ B.instrs ∧ F.instrs[k]? = some i ∧ LeadsTo site fn i os

theorem Leaving.outgrows {b : Nat} (h : Leaving site fn b os F) (hF : Outgrows F F') : Leaving site fn b os F' := by
  obtain ⟨B, k, i, hB, hk, hi, hleads⟩ := h
  obtain ⟨ks, happ⟩ := hF b
  exact ⟨_, k, i, happ.block B hB, List.mem_append_left ks hk, hF.earlier k i hi, hleads⟩

theorem Going.leaving (hsite : site.Genuine) (htiles : Tiles site.spans sp) (hgoing : Going site fn s u)
    (hn : ∀ F, Houses fn F u → ∃ B, F.blocks[n]? = some B) (he : Lowers (lowerTraced n sp) site s u ⟨⟩ s' u') :
    ∃ F, Houses fn F u' ∧ Leaving site fn n (follows sp) F := by
  obtain ⟨s₁, u₁, s₂, u₂, i, v, u₃, -, -, -, hgoing₂, honward, -, hemit, hleads, -, honward'⟩ :=
    hgoing.course hsite htiles he
  obtain ⟨F, hF⟩ := hgoing.houses
  obtain ⟨B, hB⟩ := hn F hF
  obtain ⟨F₂, hF₂, hgrew⟩ := honward.code F hF
  obtain ⟨ks, happ⟩ := hgrew n
  obtain ⟨-, -, hF₃⟩ := emitAt_inv hemit (hgoing₂.own ▸ hF₂)
  obtain ⟨F', hF', hgrew'⟩ := honward'.code _ (hgoing₂.own ▸ hF₃)
  have hadded : Appends (fun _ _ ↦ True) n F₂ (F₂.append n i).1 [F₂.instrs.size] := appends_emitted trivial
  have hend : Leaving site fn n (follows sp) (F₂.append n i).1 :=
    ⟨_, F₂.instrs.size, _, hadded.block _ (happ.block B hB), List.mem_append_right _ List.mem_cons_self, append_found i,
      hleads.ends, hleads.successors⟩
  exact ⟨F', hF', hend.outgrows hgrew'⟩

end

end CilSsa.Lowering

