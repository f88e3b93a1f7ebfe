import CilSsa.Proofs.BlockExchanges
import CilSsa.Proofs.BodySimulation
import CilSsa.Proofs.IntegerConversions
import CilSsa.Proofs.Requests
import CilSsa.Proofs.Verification

namespace CilSsa.Lowering

open CilSsa.Bytecode CilSsa.Metadata
open CilSsa.Ssa (BlockId FuncId Function Value)

/-- The stages through which a body is lowered: the one after the set-up, and the one after each block. -/
structure Stages (world : Universe) (compile : Method → Compile FuncId) (m : Method) (body : Body) (args : List Ty)
    (f : Function) (u u₂ : CompilationUnit) (site : Site) (stage : Nat → Stage) (unit : Nat → CompilationUnit) :
    Prop where
  spans : discoverBlocks body.code = .ok site.spans
  prepared : ∃ u₀, Compiles (addBlocks f.id ("init" :: site.spans.map fun sp ↦ offsetLabel sp.start)) u ⟨⟩ u₀ ∧
    Emits (prepare world compile m body args f site.spans) { fn := f.id } u₀ site (stage 0) (unit 0)
  blocks : ∀ k sp, site.spans[k]? = some sp →
    Lowers (lowerTraced (k + 1) sp) site (stage k) (unit k) ⟨⟩ (stage (k + 1)) (unit (k + 1))
  finished : ∃ v s, Emits (emitAt 0 (.br (some ⟨f.id, 1⟩))) (stage site.spans.length) (unit site.spans.length) v s u₂

/-- A path through the code leads to the block of span number `k`, with the types `G` on the stack, top first, as the
blocks on the path pushed them. On an exact path each block recorded for the next one what it left on the stack itself.
-/
inductive Arrives (fn : FuncId) (u₂ : CompilationUnit) (site : Site) (stage : Nat → Stage)
    (unit : Nat → CompilationUnit) (exact : Bool) : Nat → List Ty → Prop
  | entered {k : Nat} : some ⟨fn, k + 1⟩ ∈ u₂.module.successors ⟨fn, 0⟩ → Arrives fn u₂ site stage unit exact k []
  | went {k l : Nat} {sp sp' : Bytecode.Span} {G : List Ty} {x : Exchange} : Arrives fn u₂ site stage unit exact k G →
      site.spans[k]? = some sp → Exchanges site (k + 1) sp (stage k) (unit k) x →
      some ⟨fn, l + 1⟩ ∈ u₂.module.successors ⟨fn, k + 1⟩ → site.spans[l]? = some sp' →
      (exact = true → (stage site.spans.length).entries.lookup sp'.start = some (x.pushed ++ x.left).reverse) →
      Arrives fn u₂ site stage unit exact l (x.pushed ++ G.drop x.handed.length)

/-! ### Setting up -/

section

variable {world : Universe} {compile : Method → Compile FuncId} {m : Method} {body : Body}
  {args : List Ty} {f : Function} {fn : FuncId} {u u' u₁ u₂ : CompilationUnit} {site : Site} {s s' : Stage}
  {stage : Nat → Stage} {unit : Nat → CompilationUnit}
  {fuel : Nat} {sp : Bytecode.Span} {spans : List Bytecode.Span}

theorem idle_prepare : Idle site (liftM (prepare world compile m body args f spans) : Lower Site) := by
  unfold prepare
  refine .lift_bind (by grind [makeBuffer]) fun top ↦ .lift_bind (.lift_mapM fun p _ ↦ ?_) fun _ ↦
    .lift_bind (.lift_mapM fun p _ ↦ ?_) fun _ ↦ .lift_pure _
  · grind [bindArgument]
  · exact .lift_bind (.compile _) fun code ↦ .lift_bind (.compile _) fun size ↦ .lift_bind (idle_slotFor _ _) fun slot ↦
      .lift_bind (idle_clearAt _ _ _) fun _ ↦ .lift_pure _

theorem stages_forM {rest : List Bytecode.Span} {k : Nat} {x : PUnit}
    (he : Emits ((rest.zipIdx k).forM fun p ↦ lowerTraced (p.2 + 1) p.1 site) s u x s' u') :
    ∃ (stage : Nat → Stage) (unit : Nat → CompilationUnit), stage k = s ∧ unit k = u ∧ stage (k + rest.length) = s' ∧
      unit (k + rest.length) = u' ∧ ∀ j sp, rest[j]? = some sp →
        Lowers (lowerTraced (k + j + 1) sp) site (stage (k + j)) (unit (k + j)) ⟨⟩ (stage (k + j + 1))
        (unit (k + j + 1)) := by
  induction rest generalizing k s u with
  | nil =>
    obtain ⟨-, rfl, rfl⟩ := Emits.pure_iff.mp he
    exact ⟨fun _ ↦ s, fun _ ↦ u, rfl, rfl, rfl, rfl, nofun⟩
  | cons sp rest ih =>
    rw [List.zipIdx_cons, List.forM] at he
    obtain ⟨_, s₁, u₁, hfirst, hrest⟩ := Emits.bind_iff.mp he
    obtain ⟨stage, unit, rfl, rfl, rfl, rfl, hlater⟩ := ih hrest
    have hlength : k + (sp :: rest).length = k + 1 + rest.length := by
      rw [List.length_cons]
      omega
    refine ⟨Function.update stage k s, Function.update unit k u, Function.update_self ..,
      Function.update_self .., ?_, ?_, ?_⟩
    · rw [hlength, Function.update_of_ne (by omega)]
    · rw [hlength, Function.update_of_ne (by omega)]
    · intro j sp' hj
      cases j with
      | zero =>
        cases hj
        simp only [Nat.add_zero]
        rw [Function.update_self, Function.update_self, Function.update_of_ne (by omega),
          Function.update_of_ne (by omega)]
        exact hfirst
      | succ j =>
        have hnum : k + (j + 1) = k + 1 + j := by omega
        rw [hnum, Function.update_of_ne (by omega), Function.update_of_ne (by omega), Function.update_of_ne (by omega),
          Function.update_of_ne (by omega)]
        exact hlater j sp' hj

theorem Leaving.successor {b : Nat} {os : List Nat} {F : Function} (hleaving : Leaving site f.id b os F)
    (hF : Houses f.id F u₂) (hverify : u₂.module.verify F = []) (hos : ∀ o ∈ os, ∃ sp ∈ site.spans, sp.start = o)
    {c : Option BlockId} (hc : c ∈ u₂.module.successors ⟨f.id, b⟩) :
    ∃ l sp, site.spans[l]? = some sp ∧ sp.start ∈ os ∧ c = some ⟨f.id, l + 1⟩ := by
  obtain ⟨B, k, i, hB, hk, hi, hends, hsuccessors⟩ := hleaving
  have hid : F.id = f.id := hF.numbered.ids _ _ hF.found
  have hfound : u₂.module.function? F.id = some F := hid ▸ hF.found
  have hc : c ∈ i.successors := Ssa.Module.successors_of_verify hfound hverify hB hk hi hends
    (by rwa [Function.blockId, hid])
  rw [hsuccessors] at hc
  obtain ⟨o, ho, rfl⟩ := List.mem_map.mp hc
  obtain ⟨l, sp, hsp, rfl, hblock⟩ := blockOf_inside (hos o ho)
  exact ⟨l, sp, hsp, ho, by rw [hblock]⟩

variable (hworld : Consistent world) (hf : Houses f.id f u) (htyped : Typed world u)

include hworld hf htyped

/-- After the set-up nothing is recorded but that the stack is empty at first. -/
theorem Going.prepared (hspans : discoverBlocks body.code = .ok spans)
    (hblocks : Compiles (addBlocks f.id ("init" :: spans.map fun sp ↦ offsetLabel sp.start)) u ⟨⟩ u₁)
    (hprepare : Emits (prepare world (compileMethod world fuel) m body args f spans) { fn := f.id } u₁ site s u') :
    site.spans = spans ∧ site.Genuine ∧ Going site f.id s u' ∧ s.entries = [(0, [])] ∧
      Between world (compileMethod world fuel) m body args f u site s u' := by
  obtain ⟨F, hF, -⟩ := addBlocks_houses hf hblocks
  obtain ⟨hfn, F', hF', -, rfl, hcompile, rfl, -⟩ :=
    setting_prepare (fun t ↦ leaves_codeType t) _ m body args f spans _ _ _ _ _ F hprepare rfl hF trivial
  have hadd : Spec (TypedSince site.world u fun _ ↦ False)
    (addBlocks f.id ("init" :: site.spans.map fun sp ↦ offsetLabel sp.start))
      (fun _ ↦ TypedSince site.world u fun _ ↦ False) fun _ ↦ True :=
    .forM fun name _ ↦ (spec_onModule fun v hv ↦ hv.of_module rfl rfl (precedes_addBlock _ _ name)).bind fun _ ↦
      .pure fun _ hv ↦ hv
  have htyped₁ := (hadd u (.start htyped)).1 _ _ hblocks
  have hsafe : Safe (TypedSince site.world u fun _ ↦ False) (fun _ ↦ True) f.id
      (prepare site.world (compileMethod site.world fuel) m body args f site.spans) := by
    refine Safe.bind (safe_makeBuffer _) fun top ↦
      .bind (.mapM fun p _ ↦ safe_bindArgument f fun _ ↦ Growable.safe_slotFor _ _) fun _ ↦
      .bind (.mapM fun p _ ↦ safe_bindLocal (fun t ↦ ?_) _ _) fun _ ↦ .pure _
    exact (spec_compileType_typed _ u _ t).imp (fun _ hu ↦ hu) fun _ _ hu ↦ hu.2
  have htyped₂ := ((hsafe _ rfl u₁ htyped₁).1 (site, s) u' hprepare).2
  obtain ⟨k, rfl⟩ := (idle_prepare : Idle site _) _ _ _ _ _ (Lowers.emit_iff.mpr hprepare)
  exact ⟨rfl, ⟨hworld, fuel, hcompile⟩, ⟨rfl, htyped₂.toTypedBut, F', hF'⟩, rfl, .prepared hspans hblocks hprepare⟩

theorem exists_stages {count : Nat}
    (hc : Compiles (lowerBody world (compileMethod world fuel) m body args f) u count u₂) :
    ∃ site stage unit, Stages world (compileMethod world fuel) m body args f u u₂ site stage unit := by
  obtain ⟨spans, u₀, site, s, u₁, s', u', v, s'', hspans, hblocks, hprepare, hlower, hbranch⟩ := lowerBody_inv hc
  obtain ⟨rfl, -⟩ := Going.prepared hworld hf htyped hspans hblocks hprepare
  obtain ⟨stage, unit, rfl, rfl, rfl, rfl, hlowered⟩ := stages_forM hlower
  simp only [Nat.zero_add] at hbranch hlowered
  exact ⟨site, stage, unit, hspans, ⟨u₀, hblocks, hprepare⟩, hlowered, v, s'', hbranch⟩

variable (h : Stages world (compileMethod world fuel) m body args f u u₂ site stage unit)

include h

theorem Stages.genuine : site.Genuine := by
  obtain ⟨u₀, hblocks, hprepare⟩ := h.prepared
  exact (Going.prepared hworld hf htyped h.spans hblocks hprepare).2.1

omit hworld hf htyped in
theorem Stages.tiles {k : Nat} (hsp : site.spans[k]? = some sp) : Tiles site.spans sp :=
  (discoverBlocks_ok h.spans).tiles sp (List.mem_of_getElem? hsp)

omit hworld hf htyped in
theorem Stages.inside {k : Nat} (hsp : site.spans[k]? = some sp) : ∀ o ∈ follows sp, ∃ sp' ∈ site.spans,
    sp'.start = o :=
  fun _ ho ↦ follows_inside (discoverBlocks_ok h.spans) (List.mem_of_getElem? hsp) ho

omit hworld hf htyped in
theorem Stages.entry_inside : ∀ o ∈ [0], ∃ sp ∈ site.spans, sp.start = o := by
  obtain ⟨first, rest, hspans, hstart⟩ := (discoverBlocks_ok h.spans).first
  exact List.forall_mem_singleton.mpr ⟨first, by rw [hspans]; exact List.mem_cons_self, hstart⟩

theorem Stages.going {k : Nat} (hk : k ≤ site.spans.length) : Going site f.id (stage k) (unit k) ∧
    Between world (compileMethod world fuel) m body args f u site (stage k) (unit k) := by
  induction k with
  | zero =>
    obtain ⟨u₀, hblocks, hprepare⟩ := h.prepared
    obtain ⟨-, -, hgoing, -, hbetween⟩ := Going.prepared hworld hf htyped h.spans hblocks hprepare
    exact ⟨hgoing, hbetween⟩
  | succ k ih =>
    obtain ⟨hgoing, hbetween⟩ := ih (by omega)
    have hsp : site.spans[k]? = some site.spans[k] := List.getElem?_eq_getElem hk
    have hlower := h.blocks k _ hsp
    have hsite := h.genuine hworld hf htyped
    have hsafe : ∀ (J E : CompilationUnit → Prop) [Growable J E f.id] [Supports J E site],
        SafeAt J E f.id site (lowerTraced (k + 1) site.spans[k]) := fun _ _ _ _ ↦ safe_lowerTraced _ _
    exact ⟨(hgoing.run hsite hsafe hlower).1, .block hbetween hsp hlower⟩

theorem Stages.block {k : Nat} (hsp : site.spans[k]? = some sp) : Onward f.id (unit k) (unit (k + 1)) ∧
    (∀ o e, (stage k).entries.lookup o = some e → (stage (k + 1)).entries.lookup o = some e) ∧
    ∃ F, Houses f.id F (unit (k + 1)) ∧ Leaving site f.id (k + 1) (follows sp) F := by
  have hk : k < site.spans.length := (List.getElem?_eq_some_iff.mp hsp).1
  have hsite := h.genuine hworld hf htyped
  obtain ⟨hgoing, hbetween⟩ := h.going hworld hf htyped hk.le
  have hlower := h.blocks k sp hsp
  obtain ⟨x, hx⟩ := exists_exchange (h.tiles hsp) hlower
  have hsafe : ∀ (J E : CompilationUnit → Prop) [Growable J E f.id] [Supports J E site],
      SafeAt J E f.id site (lowerTraced (k + 1) sp) := fun _ _ _ _ ↦ safe_lowerTraced _ _
  refine ⟨(hgoing.run hsite hsafe hlower).2, (hx.recorded hsite (h.tiles hsp) hgoing hlower).2.kept,
    hgoing.leaving hsite (h.tiles hsp) (fun F hF ↦ ?_) hlower⟩
  obtain ⟨-, F', hF', hfurnished⟩ := hbetween.furnished hf hworld
  obtain rfl := Option.some.inj (hF.found.symm.trans hF'.found)
  exact hfurnished.blocks k hk

theorem Stages.later {j : Nat} {k : Nat} (hk : j + k ≤ site.spans.length) : Onward f.id (unit j) (unit (j + k)) ∧
    ∀ o e, (stage j).entries.lookup o = some e → (stage (j + k)).entries.lookup o = some e := by
  induction k with
  | zero => exact ⟨.refl _ _, fun _ _ ho ↦ ho⟩
  | succ k ih =>
    obtain ⟨honward, hkept⟩ := ih (by omega)
    obtain ⟨honward', hkept', -⟩ := h.block hworld hf htyped (List.getElem?_eq_getElem hk : site.spans[j + k]? = _)
    exact ⟨honward.trans honward', fun o e ho ↦ hkept' o e (hkept o e ho)⟩

theorem Stages.finish : Onward f.id (unit site.spans.length) u₂ ∧ ∃ F, Houses f.id F u₂ ∧
    Leaving site f.id 0 [0] F := by
  obtain ⟨v, s'', hbranch⟩ := h.finished
  obtain ⟨hgoing, hbetween⟩ := h.going hworld hf htyped le_rfl
  obtain ⟨-, F, hF, hfurnished⟩ := hbetween.furnished hf hworld
  obtain ⟨sp, spans, hfirst, hstart⟩ := (discoverBlocks_ok h.spans).first
  have hend : Lowers (emitAt 0 (.br (some ⟨f.id, 1⟩))) site _ _ v s'' u₂ := Lowers.emit_iff.mpr hbranch
  refine ⟨(hgoing.run (h.genuine hworld hf htyped) (fun _ _ _ _ ↦ .lift (safe_emitAt 0 Ssa.Instr.hinted_br)) hend).2,
    ?_⟩
  obtain ⟨-, -, hF₂⟩ := emitAt_inv hbranch (hgoing.own ▸ hF)
  have hadded : Appends (fun _ _ ↦ True) 0 F (F.append 0 (.br (some ⟨f.id, 1⟩))).1 [F.instrs.size] :=
    appends_emitted trivial
  obtain ⟨B₁, hB₁⟩ := hfurnished.blocks 0 (by rw [hfirst]; exact Nat.succ_pos _)
  have hpos : 0 < F.blocks.size := Nat.lt_of_succ_lt (Array.getElem?_eq_some_iff.mp hB₁).1
  have hB : F.blocks[0]? = some F.blocks[0] := Array.getElem?_eq_getElem hpos
  refine ⟨_, hgoing.own ▸ hF₂, _, F.instrs.size, _, hadded.block _ hB, List.mem_append_right _ List.mem_cons_self,
    append_found _, rfl, ?_⟩
  simp [blockOf, hfirst, List.findIdx?_cons, hstart, Ssa.Instr.successors, placed, Ssa.Instr.br]

theorem Stages.kept {k : Nat} (hk : k ≤ site.spans.length) : Onward f.id (unit k) u₂ ∧
    ∀ o e, (stage k).entries.lookup o = some e → (stage site.spans.length).entries.lookup o = some e := by
  obtain ⟨n, hn⟩ := Nat.exists_eq_add_of_le hk
  obtain ⟨honward, hkept⟩ := h.later hworld hf htyped (j := k) (k := n) hn.ge
  rw [← hn] at honward hkept
  exact ⟨honward.trans (h.finish hworld hf htyped).1, hkept⟩

theorem Stages.leaving {k : Nat} (hsp : site.spans[k]? = some sp) :
    ∃ F, Houses f.id F u₂ ∧ Leaving site f.id (k + 1) (follows sp) F := by
  obtain ⟨-, -, F, hF, hleaving⟩ := h.block hworld hf htyped hsp
  obtain ⟨F', hF', hgrew⟩ := (h.kept hworld hf htyped (List.getElem?_eq_some_iff.mp hsp).1).1.code F hF
  exact ⟨F', hF', hleaving.outgrows hgrew⟩

/-- On whatever path a block is reached, what is recorded for its entry is alike what was pushed on the path. -/
theorem Arrives.recorded {exact : Bool} {k : Nat} {G : List Ty} {F : Function}
    (ha : Arrives f.id u₂ site stage unit exact k G) (hF : u₂.module.function? f.id = some F)
    (hverify : u₂.module.verify F = []) : ∃ sp e, site.spans[k]? = some sp ∧ (stage site.spans.length).entries.lookup
    sp.start = some e ∧
      List.Forall₂ (Alike u₂) e.reverse G ∧ (exact = true → e.reverse = G) := by
  obtain ⟨-, F', hF', hentry⟩ := h.finish hworld hf htyped
  obtain rfl := Option.some.inj (hF.symm.trans hF'.found)
  have hsite := h.genuine hworld hf htyped
  induction ha with
  | @entered k hedge =>
    obtain ⟨l, sp, hsp, hzero, hc⟩ := hentry.successor hF' hverify h.entry_inside hedge
    cases hc
    obtain ⟨u₀, hblocks, hprepare⟩ := h.prepared
    obtain ⟨-, -, -, hentries, -⟩ := Going.prepared hworld hf htyped h.spans hblocks hprepare
    refine ⟨sp, [], hsp, (h.kept hworld hf htyped (Nat.zero_le _)).2 _ _ ?_, .nil, fun _ ↦ rfl⟩
    rw [hentries, List.mem_singleton.mp hzero]
    rfl
  | @went k l sp sp' G x _ hsp hx hedge hsp' hexact ih =>
    obtain ⟨sp₀, e, hsp₀, hlookup, halike, hsame⟩ := ih
    obtain rfl := Option.some.inj (hsp.symm.trans hsp₀)
    have hk : k < site.spans.length := (List.getElem?_eq_some_iff.mp hsp).1
    obtain ⟨hgoing, -⟩ := h.going hworld hf htyped hk.le
    obtain ⟨honward, hkept⟩ := h.kept hworld hf htyped (k := k + 1) hk
    obtain ⟨hown, hrecorded⟩ := hx.recorded hsite (h.tiles hsp) hgoing (h.blocks k sp hsp)
    obtain rfl := Option.some.inj (hlookup.symm.trans (hkept _ _ hown))
    rw [List.reverse_reverse] at halike hsame
    have hleft : List.Forall₂ (Alike u₂) x.left (G.drop x.handed.length) := by
      simpa using List.forall₂_drop x.handed.length halike
    obtain ⟨F₂, hF₂, hleaving⟩ := h.leaving hworld hf htyped hsp
    obtain rfl := Option.some.inj (hF.symm.trans hF₂.found)
    obtain ⟨l', sp₁, hsp₁, hfollows, hc⟩ := hleaving.successor hF' hverify (h.inside hsp) hedge
    cases hc
    obtain rfl := Option.some.inj (hsp'.symm.trans hsp₁)
    obtain ⟨e, he, hpushed⟩ := hrecorded.each _ hfollows
    have hpushed : List.Forall₂ (Alike u₂) e.reverse (x.pushed ++ x.left) := by
      rw [← List.forall₂_reverse_iff, List.reverse_reverse]
      exact hpushed.imp fun _ _ ↦ .mono honward.extended
    refine ⟨sp', e, hsp', hkept _ _ he, ?_, fun heq ↦ ?_⟩
    · exact alike_trans hpushed (List.rel_append (List.forall₂_same.mpr fun _ _ ↦ .inl rfl) hleft)
    · obtain rfl := Option.some.inj ((hkept _ _ he).symm.trans (hexact heq))
      rw [List.reverse_reverse, ← hsame heq, List.drop_left]

theorem Arrives.handed {exact : Bool} {k : Nat} {G : List Ty} {F : Function} {x : Exchange}
    (ha : Arrives f.id u₂ site stage unit exact k G) (hF : u₂.module.function? f.id = some F)
    (hverify : u₂.module.verify F = []) (hsp : site.spans[k]? = some sp)
    (hx : Exchanges site (k + 1) sp (stage k) (unit k) x) :
    x.handed.length ≤ G.length ∧ List.Forall₂ (Alike u₂) x.handed (G.take x.handed.length) ∧
      (exact = true → x.handed = G.take x.handed.length) := by
  obtain ⟨sp₀, e, hsp₀, hlookup, halike, hsame⟩ := ha.recorded hworld hf htyped h hF hverify
  obtain rfl := Option.some.inj (hsp.symm.trans hsp₀)
  have hk : k < site.spans.length := (List.getElem?_eq_some_iff.mp hsp).1
  obtain ⟨hgoing, -⟩ := h.going hworld hf htyped hk.le
  obtain ⟨-, hkept⟩ := h.kept hworld hf htyped (k := k + 1) hk
  obtain ⟨hown, -⟩ := hx.recorded (h.genuine hworld hf htyped) (h.tiles hsp) hgoing (h.blocks k sp hsp)
  obtain rfl := Option.some.inj (hlookup.symm.trans (hkept _ _ hown))
  rw [List.reverse_reverse] at halike hsame
  refine ⟨?_, by simpa using List.forall₂_take x.handed.length halike, fun heq ↦ ?_⟩
  · rw [← halike.length_eq, List.length_append]
    exact Nat.le_add_right _ _
  · rw [← hsame heq, List.take_left]

end

/-- Operands from other blocks: in a body that compiles, every path through the code leads from the set-up to blocks of
the body, and each block takes over what was pushed on the path, under types with the same counterparts. The types are
the same if each block on the path recorded for the next one what it left itself. -/
theorem handed_over_alike {world : Universe} {fuel : Nat} {m : Method} {body : Body} {args : List Ty} {f F : Function}
    {u u₂ : CompilationUnit} {count : Nat} (hworld : Consistent world) (hf : Houses f.id f u) (htyped : Typed world u)
    (hc : Compiles (lowerBody world (compileMethod world fuel) m body args f) u count u₂)
    (hF : u₂.module.function? f.id = some F) (hverify : u₂.module.verify F = []) :
    ∃ site stage unit, Stages world (compileMethod world fuel) m body args f u u₂ site stage unit ∧
      (∀ k sp, site.spans[k]? = some sp → ∃ x, Exchanges site (k + 1) sp (stage k) (unit k) x) ∧
      (∀ c ∈ u₂.module.successors ⟨f.id, 0⟩, ∃ l < site.spans.length, c = some ⟨f.id, l + 1⟩) ∧
      ∀ exact k G, Arrives f.id u₂ site stage unit exact k G → ∃ sp, site.spans[k]? = some sp ∧
        (∀ c ∈ u₂.module.successors ⟨f.id, k + 1⟩, ∃ l < site.spans.length, c = some ⟨f.id, l + 1⟩) ∧
        ∀ x, Exchanges site (k + 1) sp (stage k) (unit k) x → x.handed.length ≤ G.length ∧
          List.Forall₂ (Alike u₂) x.handed (G.take x.handed.length) ∧
          (exact = true → x.handed = G.take x.handed.length) := by
  obtain ⟨site, stage, unit, h⟩ := exists_stages hworld hf htyped hc
  refine ⟨site, stage, unit, h, fun k sp hsp ↦ exists_exchange (h.tiles hsp) (h.blocks k sp hsp), fun c hc ↦ ?_,
    fun exact k G ha ↦ ?_⟩
  · obtain ⟨-, F', hF', hentry⟩ := h.finish hworld hf htyped
    obtain rfl := Option.some.inj (hF.symm.trans hF'.found)
    obtain ⟨l, sp, hsp, -, rfl⟩ := hentry.successor hF' hverify h.entry_inside hc
    exact ⟨l, (List.getElem?_eq_some_iff.mp hsp).1, rfl⟩
  · obtain ⟨sp, -, hsp, -⟩ := ha.recorded hworld hf htyped h hF hverify
    refine ⟨sp, hsp, fun c hc ↦ ?_, fun x hx ↦ ha.handed hworld hf htyped h hF hverify hsp hx⟩
    obtain ⟨F', hF', hleaving⟩ := h.leaving hworld hf htyped hsp
    obtain rfl := Option.some.inj (hF.symm.trans hF'.found)
    obtain ⟨l, sp', hsp', -, rfl⟩ := hleaving.successor hF' hverify (h.inside hsp) hc
    exact ⟨l, (List.getElem?_eq_some_iff.mp hsp').1, rfl⟩

/-! ### Two types on one path -/

/-- The code `ldarg.0; brtrue.s L; ldarg.2; br.s M; L: ldarg.1; M: conv.i8; ret`. -/
def joinBody : Body := ⟨8, [], [0x02, 0x2d, 0x03, 0x04, 0x2b, 0x01, 0x03, 0x6a, 0x2a]⟩

/-- Gives the unsigned one of two numbers, or the signed one, whichever a third one tells. -/
def joinMethod : Method :=
  { id := .defined ⟨0, ""⟩ 0, name := "Join", owner := none,
    params := [⟨"c", .prim .int32⟩, ⟨"a", .prim .uint32⟩, ⟨"b", .prim .int32⟩], ret := .prim .int64, isStatic := true,
    isCtor := false, body := some joinBody, token := ⟨0x06000001⟩, scope := ⟨0, ""⟩ }

def joinArgs : List Ty := [.prim .int32, .prim .uint32, .prim .int32]

def joinWorld : Universe := worldOf #[joinMethod]

def joinFunction : Function :=
  { id := ⟨0⟩, name := "Join", signature := .func .i64 [.i32, .i32, .i32],
    params := [⟨"c", .i32⟩, ⟨"a", .i32⟩, ⟨"b", .i32⟩] }

def joinUnit : CompilationUnit := openUnit joinFunction

theorem joinWorld_consistent : Consistent joinWorld := worldOf_single rfl

theorem joinUnit_typed : Typed joinWorld joinUnit := by
  refine ⟨fun t ct h ↦ ?_, fun t ct id name h ↦ ?_, fun m f hm h ↦ ?_⟩ <;> cases h

def joinLowering : Compile Nat := lowerBody joinWorld (compileMethod joinWorld 1) joinMethod joinBody
    joinArgs joinFunction

def joined : CompilationUnit := (joinLowering.run.run joinUnit).2

def after {α : Type} (c : Emit α) (p : Stage × CompilationUnit) : Stage × CompilationUnit :=
  match (c.run p.1).run.run p.2 with
  | (.ok (_, s), u) => (s, u)
  | (.error _, _) => p

def joinSpans : List Bytecode.Span := (discoverBlocks joinBody.code).toOption.getD []

def joinSetUp : Emit Site := do
  addBlocks ⟨0⟩ ("init" :: joinSpans.map fun sp ↦ offsetLabel sp.start)
  prepare joinWorld (compileMethod joinWorld 1) joinMethod joinBody joinArgs joinFunction joinSpans

def joinSite : Site :=
  match ((joinSetUp.run { fn := ⟨0⟩ }).run.run joinUnit).1 with
  | .ok (site, _) => site
  | .error _ => bareSite

def joinStage : Nat → Stage × CompilationUnit
  | 0 => after joinSetUp ({ fn := ⟨0⟩ }, joinUnit)
  | k + 1 => match joinSpans[k]? with
    | some sp => after (lowerTraced (k + 1) sp joinSite) (joinStage k)
    | none => joinStage k

def joinEnd : CompilationUnit := (after (emitAt 0 (.br (some ⟨⟨0⟩, 1⟩))) (joinStage 4)).2

/-- What comes of lowering the method, as a whole and block by block. -/
structure JoinRun : Prop where
  lowered : (joinLowering.run.run joinUnit).1.toOption = some 4
  verified : ((joined.module.function? ⟨0⟩).map fun F ↦ (joined.module.verify F).isEmpty) = some true
  discovered : (discoverBlocks joinBody.code).toOption.isSome = true
  length : joinSpans.length = 4
  prepared : ((joinSetUp.run { fn := ⟨0⟩ }).run.run joinUnit).1.toOption.isSome = true
  blocks : ∀ k < 4, (joinSpans[k]?.map fun sp ↦
    (((lowerTraced (k + 1) sp joinSite).run (joinStage k).1).run.run (joinStage k).2).1.toOption.isSome) = some true
  finished : ((joinEnd.module.function? ⟨0⟩).map fun F ↦ (joinEnd.module.verify F).isEmpty) = some true

theorem join_run : JoinRun := by
  constructor <;> decide +kernel

theorem joined_lowers : Compiles joinLowering joinUnit 4 joined := .of_toOption (JoinRun.lowered join_run)

theorem joined_verifies : ∃ F, joined.module.function? ⟨0⟩ = some F ∧ joined.module.verify F = [] := by
  obtain ⟨F, hF, hverify⟩ := Option.map_eq_some_iff.mp (JoinRun.verified join_run)
  exact ⟨F, hF, List.isEmpty_iff.mp hverify⟩

theorem handed_over_alike_join : Consistent joinWorld ∧ Houses joinFunction.id joinFunction joinUnit ∧
    Typed joinWorld joinUnit ∧ Compiles joinLowering joinUnit 4 joined ∧ ∃ F, joined.module.function? ⟨0⟩ = some F ∧
    joined.module.verify F = [] ∧
      ∃ site stage unit, Stages joinWorld (compileMethod joinWorld 1) joinMethod joinBody joinArgs joinFunction
      joinUnit joined site
        stage unit ∧ ∀ k G, Arrives ⟨0⟩ joined site stage unit true k G → ∃ sp, site.spans[k]? = some sp ∧
          ∀ x, Exchanges site (k + 1) sp (stage k) (unit k) x → x.handed = G.take x.handed.length := by
  obtain ⟨F, hF, hverify⟩ := joined_verifies
  obtain ⟨site, stage, unit, h, -, -, hpaths⟩ :=
    handed_over_alike joinWorld_consistent (openUnit_houses rfl) joinUnit_typed joined_lowers hF hverify
  refine ⟨joinWorld_consistent, openUnit_houses rfl, joinUnit_typed, joined_lowers, F, hF, hverify, site, stage, unit,
    h, fun k G ha ↦ ?_⟩
  obtain ⟨sp, hsp, -, hhanded⟩ := hpaths true k G ha
  exact ⟨sp, hsp, fun x hx ↦ (hhanded x hx).2.2 rfl⟩

theorem emits_after {α : Type} {c : Emit α} {p : Stage × CompilationUnit}
    (h : ((c.run p.1).run.run p.2).1.toOption.isSome = true) : ∃ a, Emits c p.1 p.2 a (after c p).1 (after c p).2 := by
  unfold Emits Compiles after
  cases hr : (c.run p.1).run.run p.2 with
  | mk r u =>
    rw [hr] at h
    cases r with
    | ok a => exact ⟨a.1, rfl⟩
    | error e => cases h

theorem join_prepared : ∃ u₀, Compiles (addBlocks ⟨0⟩ ("init" :: joinSpans.map fun sp ↦ offsetLabel sp.start))
    joinUnit ⟨⟩ u₀ ∧ Emits (prepare joinWorld (compileMethod joinWorld 1) joinMethod joinBody joinArgs joinFunction
    joinSpans) { fn := ⟨0⟩ } u₀
      joinSite (joinStage 0).1 (joinStage 0).2 := by
  have hok := JoinRun.prepared join_run
  have he : Emits joinSetUp { fn := ⟨0⟩ } joinUnit joinSite (joinStage 0).1 (joinStage 0).2 := by
    unfold Emits Compiles joinStage joinSite after
    cases hr : (joinSetUp.run { fn := ⟨0⟩ }).run.run joinUnit with
    | mk r u =>
      rw [hr] at hok
      cases r with
      | ok a => rfl
      | error e => cases hok
  obtain ⟨_, _, u₀, hblocks, hprepare⟩ := Emits.bind_iff.mp he
  obtain ⟨rfl, hblocks'⟩ := Emits.lift_iff.mp hblocks
  exact ⟨u₀, hblocks', hprepare⟩

theorem join_spans : discoverBlocks joinBody.code = .ok joinSpans ∧ joinSite.spans = joinSpans := by
  obtain ⟨spans, hspans⟩ := Option.isSome_iff_exists.mp (JoinRun.discovered join_run)
  have hspans : discoverBlocks joinBody.code = .ok joinSpans := by
    rw [joinSpans, hspans]
    exact ok_of_toOption hspans
  obtain ⟨u₀, hblocks, hprepare⟩ := join_prepared
  exact ⟨hspans, (Going.prepared joinWorld_consistent (openUnit_houses rfl) joinUnit_typed hspans hblocks hprepare).1⟩

theorem join_stages : Stages joinWorld (compileMethod joinWorld 1) joinMethod joinBody joinArgs joinFunction joinUnit
    joinEnd joinSite (fun k ↦ (joinStage k).1) fun k ↦ (joinStage k).2 := by
  obtain ⟨hspans, hsite⟩ := join_spans
  have hlength := JoinRun.length join_run
  refine ⟨hsite ▸ hspans, hsite ▸ join_prepared, fun k sp hsp ↦ ?_, ?_⟩
  · rw [hsite] at hsp
    have hblock := JoinRun.blocks join_run k (hlength ▸ (List.getElem?_eq_some_iff.mp hsp).1)
    rw [hsp, Option.map_some, Option.some_inj] at hblock
    have hnext : joinStage (k + 1) = after (lowerTraced (k + 1) sp joinSite) (joinStage k) := by rw [joinStage, hsp]
    rw [hnext]
    exact (emits_after hblock).elim fun _ he ↦ he
  · have hok : (((emitAt 0 (.br (some ⟨⟨0⟩, 1⟩))).run (joinStage 4).1).run.run (joinStage 4).2).1.toOption.isSome =
        true := by
      decide
    obtain ⟨v, he⟩ := emits_after hok
    rw [hsite, hlength]
    exact ⟨v, _, he⟩

theorem join_exchanges (k : Nat) (ts ps : List Ty) (h : (joinSpans[k]?.map fun sp ↦
    let c := lowerToEnd joinSite (k + 1) sp
    let s := (after c (joinStage k)).1
    (((c.run (joinStage k).1).run.run (joinStage k).2).1.toOption.isSome, (joinStage k).1.entries.lookup sp.start,
    s.entry,
      s.pending.map Operand.spilledType)) = some (true, some ts.reverse, [], ps)) :
    ∃ sp, joinSite.spans[k]? = some sp ∧ Exchanges joinSite (k + 1) sp (joinStage k).1 (joinStage k).2
    ⟨ts, [], ps⟩ := by
  obtain ⟨sp, hsp, heq⟩ := Option.map_eq_some_iff.mp h
  simp only [Prod.mk.injEq] at heq
  obtain ⟨hok, hknown, hentry, hpushed⟩ := heq
  have hsp : joinSite.spans[k]? = some sp := join_spans.2 ▸ hsp
  obtain ⟨_, he⟩ := emits_after hok
  refine ⟨sp, hsp, ?_⟩
  have hx : Exchanges joinSite (k + 1) sp _ _ ⟨ts, _, _⟩ :=
    .of_known (join_stages.tiles hsp) he hknown (by rw [List.reverse_reverse, hentry, List.append_nil])
  rwa [hentry, hpushed] at hx

/-- An unsigned number is pushed on one path and a signed one on the other. Both are taken over as signed ones. -/
theorem join_hands_over_signed : ∃ site stage unit u₂ F sp,
    Stages joinWorld (compileMethod joinWorld 1) joinMethod joinBody joinArgs joinFunction joinUnit u₂ site stage unit ∧
      u₂.module.function? ⟨0⟩ = some F ∧ u₂.module.verify F = [] ∧
      Arrives ⟨0⟩ u₂ site stage unit false 3 [.prim .uint32] ∧ Arrives ⟨0⟩ u₂ site stage unit false 3 [.prim .int32] ∧
      site.spans[3]? = some sp ∧ Exchanges site 4 sp (stage 3) (unit 3) ⟨[.prim .int32], [], []⟩ := by
  obtain ⟨F, hF, hverify⟩ := Option.map_eq_some_iff.mp (JoinRun.finished join_run)
  obtain ⟨sp₀, hsp₀, hx₀⟩ := join_exchanges 0 [] [] (by decide +kernel)
  obtain ⟨sp₁, hsp₁, hx₁⟩ := join_exchanges 1 [] [.prim .int32] (by decide +kernel)
  obtain ⟨sp₂, hsp₂, hx₂⟩ := join_exchanges 2 [] [.prim .uint32] (by decide +kernel)
  obtain ⟨sp₃, hsp₃, hx₃⟩ := join_exchanges 3 [.prim .int32] [] (by decide +kernel)
  have hentered : Arrives ⟨0⟩ joinEnd joinSite (fun k ↦ (joinStage k).1) (fun k ↦ (joinStage k).2) false 0 [] :=
    .entered (by decide +kernel)
  refine ⟨_, _, _, joinEnd, F, sp₃, join_stages, hF, List.isEmpty_iff.mp hverify, ?_, ?_, hsp₃, hx₃⟩
  · have hsecond := hentered.went (l := 2) hsp₀ hx₀ (by decide +kernel) hsp₂ (fun h ↦ by cases h)
    exact hsecond.went hsp₂ hx₂ (by decide +kernel) hsp₃ (fun h ↦ by cases h)
  · have hfirst := hentered.went (l := 1) hsp₀ hx₀ (by decide +kernel) hsp₁ (fun h ↦ by cases h)
    exact hfirst.went hsp₁ hx₁ (by decide +kernel) hsp₃ (fun h ↦ by cases h)

end CilSsa.Lowering

