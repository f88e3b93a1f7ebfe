import CilSsa.Proofs.IntegerRuns
import CilSsa.Proofs.Invocation
import CilSsa.Proofs.Isolation
import CilSsa.Proofs.StoredValues
import CilSsa.Proofs.TypedUnits
import Mathlib.Data.Fintype.EquivFin

namespace CilSsa.Ssa

section

variable {m m' : Module} {f g : Function} {dom : DomTree} {i : Instr} {a b : BlockId}

theorem checkOperands_imp {n : Nat} {check check' : List Ty → List Violation} (h : Module.checkOperands n i check = [])
    (himp : ∀ ts, check ts = [] → check' ts = []) : Module.checkOperands n i check' = [] := by
  unfold Module.checkOperands at h ⊢
  split at h
  · exact himp _ h
  · exact h

theorem Module.Precedes.checkCall (h : m.Precedes m') (hi : m.checkCall i = []) : m'.checkCall i = [] := by
  unfold Module.checkCall at hi ⊢
  cases hcallee : i.callee with
  | none =>
    rw [hcallee] at hi
    cases hi
  | some id =>
    rw [hcallee, Option.bind_some] at hi
    rw [Option.bind_some]
    cases hF : m.function? id with
    | none =>
      rw [hF] at hi
      cases hi
    | some F =>
      obtain ⟨F', hF', -, -, hsig⟩ := h.functions id.index F hF
      rw [hF] at hi
      rw [show m'.function? id = some F' from hF']
      have hret : F'.ret = F.ret := by rw [Function.ret, Function.ret, hsig]
      have hparams : F'.paramTypes = F.paramTypes := by rw [Function.paramTypes, Function.paramTypes, hsig]
      dsimp only at hi ⊢
      rw [hret, hparams]
      split at hi
      · cases hi
      · rename_i hlength
        rw [if_neg hlength]
        exact hi

theorem Module.Precedes.fields? {t : Ty} {fs : List Ty} (h : m.Precedes m') (hfs : m.fields? t = some fs) :
    m'.fields? t = some fs := by
  unfold Module.fields? at hfs ⊢
  split at hfs
  · obtain ⟨d, hd, hbody⟩ := Option.bind_eq_some_iff.mp hfs
    obtain ⟨d', hd', -, hkeep⟩ := h.structs _ d hd
    simp only [hd', Option.bind_some, hkeep fs hbody]
  · cases hfs

theorem Module.Precedes.checkInstr (h : m.Precedes m') (hi : m.checkInstr f i = []) : m'.checkInstr f i = [] := by
  unfold Module.checkInstr at hi ⊢
  cases hop : i.op with
  | alloca =>
    simp only [hop, List.append_eq_nil_iff, when_eq_nil, Bool.or_eq_false_iff] at hi ⊢
    exact ⟨⟨hi.1.1, h.lacksBody hi.1.2⟩, hi.2⟩
  | load =>
    simp only [hop] at hi ⊢
    refine checkOperands_imp hi fun ts hts ↦ ?_
    split at hts
    · split at hts
      · simp only [when_eq_nil, Bool.or_eq_false_iff] at hts ⊢
        exact ⟨hts.1, h.lacksBody hts.2⟩
      · cases hts
    · exact hts
  | gep =>
    simp only [hop] at hi ⊢
    refine checkOperands_imp hi fun ts hts ↦ ?_
    split at hts
    · split at hts
      · rename_i id name
        cases hfs : m.fields? (.struct id name) with
        | some fs =>
          simp only [h.fields? hfs]
          simpa only [hfs] using hts
        | none =>
          simp only [hfs, when_eq_nil, Bool.or_eq_false_iff, decide_eq_false_iff_not] at hts
          omega
      · cases hts
    · exact hts
  | call =>
    simp only [hop] at hi ⊢
    exact h.checkCall hi
  | _ => simpa only [hop] using hi

theorem Module.Valid.later (hv : m.Valid dom f) (h : m.Precedes m') : m'.Valid dom f :=
  ⟨hv.toFormed, hv.ends, hv.targets, fun hl ↦ h.checkInstr (hv.fits hl), hv.takes, hv.sees⟩

theorem reaches_of_successors (h : m.Confines f) (hs : ∀ b, b.fn = f.id → m'.successors b = m.successors b)
    (ha : a.fn = f.id) : m'.Reaches a b ↔ m.Reaches a b := by
  constructor
  · intro hr
    suffices b.fn = f.id ∧ m.Reaches a b from this.2
    induction hr with
    | refl => exact ⟨ha, .refl⟩
    | step _ hc ih =>
      rw [hs _ ih.1] at hc
      exact ⟨h.stays _ _ ih.1 hc, .step ih.2 hc⟩
  · intro hr
    suffices b.fn = f.id ∧ m'.Reaches a b from this.2
    induction hr with
    | refl => exact ⟨ha, .refl⟩
    | step _ hc ih => exact ⟨h.stays _ _ ih.1 hc, .step ih.2 (by rwa [hs _ ih.1])⟩

/-- The dominators of a function are those of one in another module that branches as it does. -/
theorem DomTree.Sound.of_successors (h : DomTree.Sound m f dom) (hconf : m.Confines f) (hid : g.id = f.id)
    (hs : ∀ b, b.fn = f.id → m'.successors b = m.successors b) : DomTree.Sound m' g dom := by
  have hblock : g.blockId 0 = f.blockId 0 := by rw [Function.blockId, hid, Function.blockId]
  have hreaches : ∀ b, m'.Reaches (f.blockId 0) b ↔ m.Reaches (f.blockId 0) b := fun b ↦
    reaches_of_successors hconf hs rfl
  have hown : ∀ b, m.Reaches (f.blockId 0) b → b.fn = f.id := by
    intro b hb
    induction hb with
    | refl => rfl
    | step _ hc ih => exact hconf.stays _ _ ih hc
  have hnext : ∀ b, dom.reachable b = true → m'.successors b = m.successors b := fun b hb ↦
    hs b (hown b (h.reaches.mp hb))
  refine ⟨hblock ▸ h.entry, fun {b c} hb hc ↦ h.next hb (hnext b hb ▸ hc), fun {b} ↦ ?_, h.reachable,
    h.trans, h.antisymm, fun {a b c} hb hc ↦ h.pred hb (hnext b hb ▸ hc)⟩
  rw [hblock, hreaches]
  exact h.reaches

end

end CilSsa.Ssa

namespace CilSsa.Passes

open CilSsa.Ssa

theorem callee_covers : Covers fun f g ↦ ∀ k x, g.instr? k = some x → ∃ y, f.instr? k = some y ∧
    x.callee = y.callee := by
  have hmodify : ∀ (f : Function) (k : Nat) (g : Instr → Instr), (∀ x, (g x).callee = x.callee) → ∀ j x,
      (f.instrs.modify k g)[j]? = some x → ∃ y, f.instr? j = some y ∧ x.callee = y.callee := by
    intro f k g hg j x hx
    rw [Array.getElem?_modify] at hx
    split at hx
    · obtain ⟨y, hy, rfl⟩ := Option.map_eq_some_iff.mp hx
      exact ⟨y, hy, hg y⟩
    · exact ⟨x, hx, rfl⟩
  refine ⟨fun f k x hx ↦ ⟨x, hx, rfl⟩, fun hfg hgh k x hx ↦ ?_, fun f b k j x hx ↦ ?_, fun f k v ↦ ?_, fun f ↦ ?_⟩
  · obtain ⟨y, hy, hxy⟩ := hgh k x hx
    obtain ⟨z, hz, hyz⟩ := hfg k y hy
    exact ⟨z, hz, hxy.trans hyz⟩
  · unfold Function.removeFrom at hx
    split at hx
    · exact hmodify f k (fun x ↦ { x with home := none }) (fun _ ↦ rfl) j x hx
    · exact ⟨x, hx, rfl⟩
  · unfold Function.replaceAllUses
    refine List.foldlRecOn (motive := fun g : Function ↦ ∀ j x, g.instr? j = some x → ∃ y, f.instr? j = some y ∧
    x.callee = y.callee)
      f.instructions _ (fun j x hx ↦ ⟨x, hx, rfl⟩) fun g hg p _ j x hx ↦ ?_
    obtain ⟨y, hy, hxy⟩ := hmodify g p.1
      (fun x ↦ { x with operands := x.operands.map fun w ↦ if w = some (f.result k) then some v else w })
      (fun _ ↦ rfl) j x hx
    obtain ⟨z, hz, hyz⟩ := hg j y hy
    exact ⟨z, hz, hxy.trans hyz⟩
  · unfold reassociate
    refine List.foldlRecOn (motive := fun c : Changing ↦ ∀ j x, c.f.instr? j = some x → ∃ y, f.instr? j = some y ∧
    x.callee = y.callee)
      f.instructions _ (fun j x hx ↦ ⟨x, hx, rfl⟩) fun c hc p hp j x hx ↦ ?_
    obtain ⟨k, i⟩ := p
    dsimp only at hx
    split at hx
    · rename_i i' hi'
      have hcallee : i'.callee = i.callee := by
        obtain ⟨o, o', -, ⟨-, rfl⟩ | ⟨-, rfl⟩⟩ := reassociated?_inv hi' <;> rfl
      obtain ⟨b, hlists⟩ := (Function.mem_instructions f).mp hp
      by_cases hj : k = j
      · subst hj
        rw [Function.instr?, Array.set!_eq_setIfInBounds, Array.getElem?_setIfInBounds_self] at hx
        split at hx
        · cases hx
          exact ⟨i, hlists.found, hcallee⟩
        · cases hx
      · rw [Function.instr?, Array.set!_eq_setIfInBounds, Array.getElem?_setIfInBounds_ne hj] at hx
        exact hc j x hx
    · exact hc j x hx

end CilSsa.Passes

namespace CilSsa.FlowMachine

open CilSsa.Ssa CilSsa.Passes CilSsa.Machine CilSsa.Text
open CilSsa.Number hiding Datum
open CilSsa.SlotMachine (Datum Backed Framed Idle entryFrame)

variable {m m' : Module} {F : Function} {fill : FuncId} {args : List UInt64} {e d : Engine} {n h : Nat} {a w x : UInt64}

theorem exists_uncalled (F G : Function) :
    ∃ fill : FuncId, (∀ k i, F.instr? k = some i → i.callee ≠ some fill) ∧ ∀ k i, G.instr? k = some i →
    i.callee ≠ some fill := by
  let called : List Nat := (F.instrs.toList ++ G.instrs.toList).filterMap fun i ↦ i.callee.map (·.index)
  obtain ⟨n, hn⟩ := Infinite.exists_notMem_finset called.toFinset
  have hne : ∀ i, i ∈ F.instrs.toList ++ G.instrs.toList → i.callee ≠ some ⟨n⟩ := by
    intro i hi hcallee
    refine hn (List.mem_toFinset.mpr (List.mem_filterMap.mpr ⟨i, hi, ?_⟩))
    rw [hcallee]
    rfl
  refine ⟨⟨n⟩, fun k i hi ↦ hne i (List.mem_append_left _ ?_), fun k i hi ↦ hne i (List.mem_append_right _ ?_)⟩
  · exact Array.mem_toList_iff.mpr (Array.mem_of_getElem? hi)
  · exact Array.mem_toList_iff.mpr (Array.mem_of_getElem? hi)

theorem called_of_ok (hm : m.function? F.id = some F) (ha : e.functionAt? a = some F.id) {fuel : Nat}
    (h : (Engine.callAddress m fuel a args e).1 = .ok w) :
    e.closed = false ∧ args.length = F.params.length ∧ ∃ B, F.blocks[0]? = some B := by
  have hopen : e.closed = false := by
    by_contra hne
    have hclosed : e.closed = true := by simpa using hne
    simp [Engine.callAddress, Engine.ifOpen, hclosed] at h
  have hlength : args.length = F.params.length := by
    by_contra hne
    simp [Engine.callAddress, Engine.ifOpen, hopen, ha, hm, hne] at h
  refine ⟨hopen, hlength, ?_⟩
  cases hB : F.blocks[0]? with
  | some B => exact ⟨B, rfl⟩
  | none =>
    rcases henter : (enter m [] 0 F.id args).run.run e with ⟨s | fr, d⟩
    · simp [Engine.callAddress, Engine.ifOpen, Engine.execute, Engine.conclude, hopen, ha, hm, hlength, henter] at h
    · obtain ⟨-, B, hblock, -⟩ := enter_inv henter
      rw [Module.block?, hm, Option.bind_some, hB] at hblock
      cases hblock

/-- What a function gives it gives after the passes too, in any module to which its own has grown. -/
theorem Gives.machine_optimized (hgives : Gives F (unescaped F) fill args n (.word w) h)
    (hm : m.function? F.id = some F) (hf : Sane m (DomTree.of m F) [] F) (hbody : F.isDeclaration = false)
    (hret : F.ret.isStruct = false) (hpre : m.Precedes m') (hfound : m'.function? F.id = some (runPasses Pass.all F).1)
    (hclears : ∀ b k i, (runPasses Pass.all F).1.Lists b k i → i.callee = some fill →
      ∃ g, m'.function? fill = some g ∧ g.name = memsetName)
    (he : Idle e) (hsmall : h < 2 ^ 63) (hroom : h ≤ e.limits.stackSize) :
    ∃ B, (runPasses Pass.all F).1.blocks[0]? = some B ∧
      ∃ e', ∀ fuel, n ≤ fuel → run m' fuel [entryFrame (runPasses Pass.all F).1 args B] e =
      (.returned ⟨w, []⟩, e') := by
  obtain ⟨-, hvalid, hflow⟩ := runPasses_induction Pass.all hf trivial fun _ _ _ ↦ trivial
  obtain ⟨⟨known, hpassing⟩, n', h', hn, hh, hgives'⟩ := hgives.optimized hf (Module.successors_own hm) hbody
  generalize (runPasses Pass.all F).1 = G at hvalid hflow hpassing hgives' hfound hclears
  have hsuccessors : ∀ b, b.fn = F.id → m'.successors b = m.successors b := by
    intro b hb
    rw [← hflow.successors hm b, Module.successors, Module.successors, hb, hfound, function?_modify hm, if_pos rfl]
  have hsound : DomTree.Sound m' G (DomTree.of m F) :=
    hf.sound.of_successors (hf.confines hm hbody) hflow.id hsuccessors
  obtain ⟨B, hB, -⟩ := id hgives'
  have hret' : G.ret.isStruct = false := by rw [Function.ret, hflow.signature]; exact hret
  rw [← hflow.id] at hfound
  obtain ⟨e', hsteps, -⟩ := hgives'.machine hfound (hvalid.later hpre) hsound (Module.successors_own hfound)
    hpassing.slots hclears hret' he hB (by omega) (by omega)
  exact ⟨B, hB, e', fun fuel hfuel ↦ hsteps fuel (by omega)⟩

theorem calls_of_run {B : Block} {fuel : Nat} (hopen : e.closed = false) (ha : e.functionAt? a = some F.id)
    (hm : m.function? F.id = some F) (hB : F.blocks[0]? = some B) (he : Idle e)
    (hlength : args.length = F.params.length) (hdepth : 0 < e.limits.maxDepth)
    (hrun : run m fuel [entryFrame F args B] e = (.returned ⟨w, []⟩, d)) :
    ∃ d', Engine.Calls m a args e (.ok w) d' := by
  have hanswers := Lowering.callAddress_answers hopen ha hm hB he hlength fuel
  unfold Lowering.ends at hanswers
  rw [if_neg (by omega), hrun] at hanswers
  rcases hcall : Engine.callAddress m fuel a args e with ⟨r, d'⟩
  have hok := hanswers.ok
  rw [hcall] at hok
  cases r with
  | error => cases hok
  | ok =>
    cases hok
    refine ⟨d', fuel, _, hcall, ?_, rfl⟩
    rintro ⟨⟩

/-- What a call of a function on integers returns it returns after the default passes too. -/
theorem calls_optimized (hb : F.Built) (hm : m.function? F.id = some F) (hverify : m.verify F = [])
    (hF : PlainIntegerFunction F) (hargs : Canonical F args) (he : Idle e) (hstack : 0 ≤ e.limits.stackSize)
    (ha : e.functionAt? a = some F.id) (hcall : Engine.Calls m a args e (.ok w) d) :
    ∃ d', Engine.Calls (m.modifyFunction F.id fun _ ↦ (runPasses Pass.all F).1) a args e (.ok w) d' := by
  obtain ⟨fuel, r, hcall, -, hr⟩ := hcall
  obtain rfl : r = .ok w := by
    cases r with
    | error => cases hr
    | ok => exact hr
  have hok : (Engine.callAddress m fuel a args e).1 = .ok w := by rw [hcall]
  obtain ⟨hopen, hlength, B, hB⟩ := called_of_ok hm ha hok
  have hbody : F.isDeclaration = false := by
    rw [Function.isDeclaration, Array.isEmpty_eq_false_iff]
    rintro hnone
    simp [hnone] at hB
  have hsane := Sane.of_verify hb hm hbody hverify
  have hstruct : F.ret.isStruct = false := by
    obtain ⟨n, hn⟩ := isInt_eq hF.result
    rw [hn]
    rfl
  obtain ⟨fill, hfresh, hfresh'⟩ := exists_uncalled F (runPasses Pass.all F).1
  -- the machine has run the body, since it returned
  have hanswers := Lowering.callAddress_answers hopen ha hm hB he hlength fuel
  rw [hok] at hanswers
  obtain ⟨r, hends, hpattern⟩ := hanswers.value
  unfold Lowering.ends at hends
  split at hends
  · cases hends
  rename_i hdepth
  rcases hrun : run m fuel [entryFrame F args B] e with ⟨out, e'⟩
  rw [hrun] at hends
  obtain rfl := hends
  have hplace : F.blocks[0]?.map (·.instrs) = some ([] ++ B.instrs) := by rw [hB]; rfl
  have hcomplete : Complete F {} (entryFrame F args B) := by
    intro j p hp
    simp [entryFrame] at hp
  have hempty : State.whole F (unescaped F) {} = {} := by simp [State.whole]
  have hbacked : Backed (fun _ ↦ 0) (State.whole F (unescaped F) {}) e := by rw [hempty]; exact he.backed
  have hframed : Framed F args (fun _ ↦ 0) (State.whole F (unescaped F) {}) (entryFrame F args B) := by
    rw [hempty]
    exact SlotMachine.entryFrame_framed F args B
  have hclears : ∀ b k i, F.Lists b k i → i.callee = some fill → ∃ g, m.function? fill = some g ∧ g.name = memsetName :=
    fun _ k i hl hcallee ↦ absurd hcallee (hfresh k i hl.found)
  obtain ⟨n, w', h, hn, hruns, hsmall, hroom, rfl⟩ := exists_runs hm hsane.toValid hsane.sound
    (Module.successors_own hm) hF hb hargs hclears hrun hsane.sound.entry hplace (.start F) (.start F _) hcomplete
    hbacked hframed rfl rfl hstack
  obtain rfl := hpattern rfl
  have hheading := sameHeading_runPasses Pass.all F
  have hfound := function?_modify hm (runPasses Pass.all F).1 F.id
  rw [if_pos rfl] at hfound
  obtain ⟨B', hB', e', hsteps⟩ := Gives.machine_optimized ⟨B, hB, hruns⟩ hm hsane hbody hstruct
    (Lowering.precedes_modify hm hheading.id hheading.name hheading.signature) hfound
    (fun _ k i hl hcallee ↦ absurd hcallee (hfresh' k i hl.found)) he hsmall hroom
  have hown : (m.modifyFunction F.id fun _ ↦ (runPasses Pass.all F).1).function? (runPasses Pass.all F).1.id =
      some (runPasses Pass.all F).1 := (congrArg _ hheading.id).trans hfound
  exact calls_of_run hopen (hheading.id ▸ ha) hown hB' he (by rw [hlength, hheading.params]) (by omega) (hsteps fuel hn)

open CilSsa.Passes (twice twice_built)

theorem twice_gives (hx : signExtend x 32 = x) :
    Gives twice (unescaped twice) fill [x] 7 (.word (signExtend (x + x) 32)) 4 := by
  have hentry : twice.blocks[0]? = some ⟨"entry", [0, 1, 2, 3, 4, 5]⟩ := rfl
  have hexit : twice.blocks[1]? = some ⟨"exit", [6]⟩ := rfl
  have hslot : unescaped twice 0 = true := by decide
  have hsuits : ∀ {y : UInt64}, signExtend y 32 = y → suits (.word y) .i32 = true := by
    intro y hy
    unfold suits Ty.i32
    exact decide_eq_true hy
  have hnumber : ∀ {σ : State} {k : Nat} {y : UInt64}, unescaped twice k = false → σ.values k = some (.word y) →
      signExtend y 32 = y → datum twice.id (unescaped twice) [x] σ (.instr ⟨⟨0⟩, k⟩ .i32) = some (.word y) := by
    intro σ k y hk hσ hy
    have hid : (⟨0⟩ : FuncId) = twice.id := rfl
    simp [datum, hid, hk, hσ, Option.filter, Value.type, hsuits hy]
  let slot : Value := .instr ⟨⟨0⟩, 0⟩ (.pointer .i32)
  let number (k : Nat) : Value := .instr ⟨⟨0⟩, k⟩ .i32
  let σ : State := (State.allocate {} 0 (.scalar 4)).setVar 0 (.word x)
  let τ : State := (σ.define 2 (.word x)).define 3 (.word x)
  obtain ⟨i₀, h₀, hop₀, ho₀, ht₀⟩ : ∃ i, twice.instr? 0 = some i ∧ i.op = .alloca ∧ i.operands = [] ∧
    i.allocated = .i32 :=
    ⟨_, rfl, rfl, rfl, rfl⟩
  obtain ⟨i₁, h₁, hop₁, ho₁⟩ : ∃ i, twice.instr? 1 = some i ∧ i.op = .store ∧
      i.operands = [some (.param ⟨0⟩ 0 .i32), some slot] := ⟨_, rfl, rfl, rfl⟩
  obtain ⟨i₂, h₂, hop₂, ho₂, ht₂⟩ : ∃ i, twice.instr? 2 = some i ∧ i.op = .load ∧ i.operands = [some slot] ∧
    i.type = .i32 :=
    ⟨_, rfl, rfl, rfl, rfl⟩
  obtain ⟨i₃, h₃, hop₃, ho₃, ht₃⟩ : ∃ i, twice.instr? 3 = some i ∧ i.op = .load ∧ i.operands = [some slot] ∧
    i.type = .i32 :=
    ⟨_, rfl, rfl, rfl, rfl⟩
  obtain ⟨i₄, h₄, hop₄, ho₄, ht₄⟩ : ∃ i, twice.instr? 4 = some i ∧ i.op = .add ∧
      i.operands = [number 2, number 3].map some ∧ i.type = .i32 := ⟨_, rfl, rfl, rfl, rfl⟩
  obtain ⟨i₅, h₅, hop₅, ho₅, ht₅⟩ : ∃ i, twice.instr? 5 = some i ∧ i.op = .br ∧
    i.operands = ([] : List Value).map some ∧
      i.targets[0]? = some (some ⟨twice.id, 1⟩) := ⟨_, rfl, rfl, rfl, rfl⟩
  obtain ⟨i₆, h₆, hop₆, ho₆⟩ : ∃ i, twice.instr? 6 = some i ∧ i.op = .ret ∧ i.operands = [number 4].map some :=
    ⟨_, rfl, rfl, rfl⟩
  have hstore : Act twice (unescaped twice) fill [x] (State.allocate {} 0 (.scalar 4)) 1 i₁ σ := by
    refine .put hop₁ ho₁ hslot rfl rfl ?_
    simp [datum, Option.filter, Value.type, hsuits hx]
  have hfirst : Act twice (unescaped twice) fill [x] σ 2 i₂ (σ.define 2 (.word x)) :=
    .get hop₂ ho₂ hslot (by rw [ht₂]; rfl) rfl
  have hsecond : Act twice (unescaped twice) fill [x] (σ.define 2 (.word x)) 3 i₃ τ :=
    .get hop₃ ho₃ hslot (by rw [ht₃]; rfl) rfl
  have hadd : Act twice (unescaped twice) fill [x] τ 4 i₄ (τ.define 4 (.word (signExtend (x + x) 32))) := by
    refine .compute ⟨ho₄, .cons (hnumber rfl rfl hx) (.cons (hnumber rfl rfl hx) .nil)⟩ ?_
    simp [computed, hop₄, ht₄, number, Value.type, SlotMachine.sum, Ty.i32, Ty.isInt, Ty.bits]
  refine ⟨_, hentry, .act h₀ (.var hslot hop₀ ho₀ (by rw [ht₀]; rfl)) (.act h₁ hstore (.act h₂ hfirst (.act h₃ hsecond
    (.act h₄ hadd (.goto h₅ ⟨ho₅, .nil⟩ (.br hop₅ ht₅) hexit (.ret h₆ hop₆ ⟨ho₆,
    .cons (hnumber rfl rfl (signExtend_signExtend _ _)) .nil⟩))))))⟩

theorem twice_plain : PlainIntegerFunction twice :=
  ⟨⟨by decide, rfl, by decide, by decide, by decide, by decide⟩, by decide⟩

/-- A module with this function alone, and an engine that has given it an address. -/
def twiceModule : Module := { name := "m", functions := #[twice] }

def twiceEngine : Engine := { limits := .ofRequest 0 0 0, addressed := [⟨0⟩] }

theorem twiceEngine_idle : Idle twiceEngine := ⟨rfl, rfl, .empty⟩

theorem calls_twice : ∃ d, Engine.Calls twiceModule (functionAddress 0) [21] twiceEngine (.ok 42) d := by
  have hbody : twice.isDeclaration = false := rfl
  have hsane := Sane.of_verify (m := twiceModule) twice_built rfl hbody (List.isEmpty_iff.mp (by decide))
  have hgives : Gives twice (unescaped twice) ⟨1⟩ [21] 7 (.word 42) 4 := twice_gives (by decide)
  have hclears : ∀ b k i, twice.Lists b k i → i.callee = some ⟨1⟩ →
      ∃ g, twiceModule.function? ⟨1⟩ = some g ∧ g.name = memsetName := by
    have hnone : ∀ x ∈ twice.instructions, x.2.callee = none := by decide
    intro b k i hl hcallee
    cases (hnone _ hl.mem).symm.trans hcallee
  obtain ⟨B, hB, -⟩ := id hgives
  obtain ⟨e', hrun, -⟩ := hgives.machine rfl hsane.toValid hsane.sound (Module.successors_own rfl)
    (fun _ ↦ variable_of_unescaped) hclears rfl twiceEngine_idle hB (by decide) (by decide)
  exact calls_of_run rfl (by decide) rfl hB twiceEngine_idle rfl (by decide) (hrun 7 le_rfl)

theorem calls_optimized_twice : PlainIntegerFunction twice ∧ Canonical twice [21] ∧
    ∃ d d', Engine.Calls twiceModule (functionAddress 0) [21] twiceEngine (.ok 42) d ∧
      Engine.Calls (twiceModule.modifyFunction ⟨0⟩ fun _ ↦ (runPasses Pass.all twice).1)
      (functionAddress 0) [21] twiceEngine
        (.ok 42) d' := by
  have hargs : Canonical twice [21] := by
    intro j t a ht ha
    obtain rfl : j = 0 := by
      have := (List.getElem?_eq_some_iff.mp ha).1
      simpa using this
    cases ht
    cases ha
    decide
  obtain ⟨d, hcall⟩ := calls_twice
  obtain ⟨d', hcall'⟩ := calls_optimized twice_built rfl (List.isEmpty_iff.mp (by decide)) twice_plain hargs
    twiceEngine_idle (by decide) (by decide) hcall
  exact ⟨twice_plain, hargs, d, d', hcall, hcall'⟩

/-- A function that compares the address of one function with itself, and then that of another with it. -/
def ordered : Function :=
  let f : Function := { id := ⟨0⟩, name := "f", signature := .func .i1 [], params := [] }
  let g : Value := .func ⟨1⟩ callback
  let h : Value := .func ⟨2⟩ callback
  let f := (f.addBlock "entry").1
  let f := (f.append 0 (.icmp .eq (some h) (some h) "same")).1
  let f := (f.append 0 (.icmp .ult (some g) (some h) "less")).1
  (f.append 0 (.ret (some (.instr ⟨⟨0⟩, 1⟩ .i1)))).1

def orderedModule : Module :=
  let declared (k : Nat) (name : String) : Function := { id := ⟨k⟩, name, signature := callback, params := [] }
  { name := "m", functions := #[ordered, declared 1 "g", declared 2 "h"] }

/-- A function that returns what it has put in a slot, a floating-point constant of an integer type. -/
def extending : Function :=
  let f : Function := { id := ⟨0⟩, name := "f", signature := .func .i32 [], params := [] }
  let slot : Value := .instr ⟨⟨0⟩, 0⟩ (.pointer .i32)
  let f := (f.addBlock "entry").1
  let f := (f.append 0 (.alloca .i32 "slot")).1
  let f := (f.append 0 (.store (some (.const (.ofDouble .i32 0x3FF8000000000001) (.made 0))) (some slot))).1
  let f := (f.append 0 (.load slot "number")).1
  (f.append 0 (.ret (some (.instr ⟨⟨0⟩, 2⟩ .i32)))).1

def extendingModule : Module := { name := "m", functions := #[extending] }

theorem ordered_built : ordered.Built := by
  have hheading := (Function.Built.declared ⟨0⟩ "f" .i1 []).block "entry"
  refine .instr (.instr (.instr hheading (by decide) (.icmp ..) ?_) (by decide) (.icmp ..) ?_) (by decide)
    (.ret ..) ?_ <;> intro v hv
  · rcases List.mem_pair.mp hv with hv | hv <;> cases hv <;> trivial
  · rcases List.mem_pair.mp hv with hv | hv <;> cases hv <;> trivial
  · cases List.mem_singleton.mp hv
    exact ⟨rfl, _, rfl, rfl⟩

theorem extending_built : extending.Built := by
  have hheading := (Function.Built.declared ⟨0⟩ "f" .i32 []).block "entry"
  refine .instr (.instr (.instr (.instr hheading (by decide) (.alloca ..) ?_) (by decide) (.store ..) ?_) (by decide)
    (.load ..) ?_) (by decide) (.ret ..) ?_ <;> intro v hv
  · cases hv
  · rcases List.mem_pair.mp hv with hv | hv <;> cases hv
    · exact .double _ _
    · exact ⟨rfl, _, rfl, rfl⟩
  · cases List.mem_singleton.mp hv
    exact ⟨rfl, _, rfl, rfl⟩
  · cases List.mem_singleton.mp hv
    exact ⟨rfl, _, rfl, rfl⟩

theorem calls_ordered : (∃ d, Engine.Calls orderedModule (functionAddress 0) [] twiceEngine (.ok 0) d) ∧
    ∃ d, Engine.Calls (orderedModule.modifyFunction ⟨0⟩ fun _ ↦ (runPasses Pass.all ordered).1) (functionAddress 0) []
      twiceEngine (.ok (-1)) d := by
  constructor
  · exact ⟨_, Engine.calls_iff.mpr (.inr ⟨⟨0⟩, .i1, .returned ⟨0, []⟩, _, by decide,
      Engine.executes_iff.mpr (.inl ⟨_, _, _, rfl, .running rfl (.running rfl (.returned (step_returns _ rfl
        rfl rfl rfl Std.HashMap.getElem?_insert_self rfl rfl))), rfl⟩), rfl, rfl⟩)⟩
  · exact ⟨_, Engine.calls_iff.mpr (.inr ⟨⟨0⟩, .i1, .returned ⟨-1, []⟩, _, by decide,
      Engine.executes_iff.mpr (.inl ⟨_, _, _, rfl, .running rfl (.returned (step_returns _ rfl
        rfl rfl rfl Std.HashMap.getElem?_insert_self rfl rfl)), rfl⟩), rfl, rfl⟩)⟩


theorem calls_extending : (∃ d, Engine.Calls extendingModule (functionAddress 0) [] twiceEngine (.ok 1) d) ∧
    ∃ d, Engine.Calls (extendingModule.modifyFunction ⟨0⟩ fun _ ↦ (runPasses Pass.all extending).1)
    (functionAddress 0) []
      twiceEngine (.ok 0x3FF8000000000001) d := by
  constructor
  · let m := extendingModule
    let p : UInt64 := 0x10000000000
    let w : UInt64 := 0x3FF8000000000001
    let place : InstrId := ⟨⟨0⟩, 0⟩
    let slot : Value := .instr place (.pointer .i32)
    let i₀ : Instr := { Instr.alloca .i32 "slot" with home := some ⟨⟨0⟩, 0⟩ }
    let i₁ : Instr := { Instr.store (some (.const (.ofDouble .i32 w) (.made 0))) (some slot) with
      home := some ⟨⟨0⟩, 0⟩, number := 1 }
    let i₂ : Instr := { Instr.load slot "number" with home := some ⟨⟨0⟩, 0⟩, number := 2 }
    let fr₀ := entryFrame extending [] ⟨"entry", [0, 1, 2, 3]⟩
    let fr₁ : Frame := { fr₀ with values := fr₀.values.insert place p, rest := [1, 2, 3] }
    let fr₂ : Frame := { fr₁ with rest := [2, 3] }
    let fr₃ : Frame := { fr₂ with values := fr₂.values.insert ⟨⟨0⟩, 2⟩ 1, rest := [3] }
    have hslot : fr₁.values[place]? = some p := Std.HashMap.getElem?_insert_self
    -- the slot is taken, the constant is written there, and what is read back is its lowest half
    have hlayout : scalarLayout? (.i32 : Ty) = some (.scalar 4) := rfl
    obtain ⟨c, -, halloc⟩ := @stackAlloc_run m ["f"] _ twiceEngine_idle.layouts _ _ hlayout 1 _ _ rfl rfl (by decide)
    rw [if_pos (by decide)] at halloc
    generalize he : ({ c with memory := { twiceEngine.memory with stack := twiceEngine.memory.stack.grow _ } } :
      Engine) = e at halloc
    have hmaps : ({ twiceEngine.memory with stack := twiceEngine.memory.stack.grow 4 } : Memory).maps p 4 = true := by
      decide +kernel
    have hm : e.memory.Holds p 4 := by
      rw [← he]
      exact Memory.maps_iff.mp hmaps
    let e' : Engine := { e with memory := e.memory.write p (littleEndian 4 (stored .i32 w).toNat) }
    have hstore : (store m ["f"] p .i32 w).run.run e = (.ok (), e') := store_cell rfl hm w
    have hload : (load m ["f"] p .i32).run.run e' = (.ok (cut .i32 w), e') := load_store rfl hm w
    rw [show cut .i32 w = 1 by decide] at hload
    have hfirst : (step m [fr₀]).run.run twiceEngine = (.ok (.running [fr₁]), e) :=
      step_of_compute (i := i₀) rfl rfl (by decide) rfl .nil halloc
    have hsecond : (step m [fr₁]).run.run e = (.ok (.running [fr₂]), e') :=
      step_of_compute (i := i₁) (p := 0) rfl rfl (by decide) rfl (.cons .const (.cons (.instr hslot) .nil))
      (run_bind_ok hstore)
    have hthird : (step m [fr₂]).run.run e' = (.ok (.running [fr₃]), e') :=
      step_of_compute (i := i₂) rfl rfl (by decide) rfl (.cons (.instr hslot) .nil) hload
    have hlast : (step m [fr₃]).run.run e' = (.ok (.returned ⟨1, []⟩), e'.released fr₃.mark) :=
      step_returns (F := extending) e' rfl rfl rfl rfl Std.HashMap.getElem?_insert_self rfl rfl
    exact ⟨_,
      Engine.calls_iff.mpr (.inr ⟨⟨0⟩, .i32, .returned ⟨1, []⟩, _, by decide, Engine.executes_iff.mpr (.inl ⟨fr₀, _, _,
      rfl, .running hfirst (.running hsecond (.running hthird (.returned hlast))), rfl⟩), rfl, rfl⟩)⟩
  · exact ⟨_, Engine.calls_iff.mpr (.inr ⟨⟨0⟩, .i32, .returned ⟨0x3FF8000000000001, []⟩, _, by decide,
      Engine.executes_iff.mpr (.inl ⟨_, _, _, rfl, .returned rfl, rfl⟩), rfl, rfl⟩)⟩

/-- It is not enough that a function is on integers. Where addresses of functions are compared, a comparison that is
dropped changes the order in which they are given out, and a floating-point constant of an integer type is extended from
its width by a load, but not where it takes the place of one. -/
theorem calls_differ_optimized :
    (ordered.Built ∧ orderedModule.verify ordered = [] ∧ IntegerFunction ordered ∧
      (∃ d, Engine.Calls orderedModule (functionAddress 0) [] twiceEngine (.ok 0) d) ∧
      ∀ d, ¬ Engine.Calls (orderedModule.modifyFunction ⟨0⟩ fun _ ↦ (runPasses Pass.all ordered).1)
      (functionAddress 0) []
        twiceEngine (.ok 0) d) ∧
    (extending.Built ∧ extendingModule.verify extending = [] ∧ IntegerFunction extending ∧
      (∃ d, Engine.Calls extendingModule (functionAddress 0) [] twiceEngine (.ok 1) d) ∧
      ∀ d, ¬ Engine.Calls (extendingModule.modifyFunction ⟨0⟩ fun _ ↦ (runPasses Pass.all extending).1)
      (functionAddress 0) []
        twiceEngine (.ok 1) d) := by
  obtain ⟨hordered, d, hordered'⟩ := calls_ordered
  obtain ⟨hextending, c, hextending'⟩ := calls_extending
  refine ⟨⟨ordered_built, List.isEmpty_iff.mp (by decide +kernel),
    ⟨by decide, rfl, by decide, by decide, by decide, by decide⟩,
    hordered, ?_⟩, extending_built, List.isEmpty_iff.mp (by decide +kernel),
      ⟨by decide, rfl, by decide, by decide, by decide,
    by decide⟩, hextending, ?_⟩
  · intro d' h
    cases (h.unique hordered').1
  · intro d' h
    cases (h.unique hextending').1

end CilSsa.FlowMachine

