import CilSsa.Proofs.EngineCalls
import CilSsa.Proofs.Folding
import CilSsa.Proofs.Isolation
import CilSsa.Proofs.ValueNumbering

namespace CilSsa.Passes

open CilSsa.Ssa CilSsa.Number CilSsa.Machine CilSsa.Text

/-! ### One merge -/

section

variable {m m' : Module} {F : Function} {b k p : Nat} {mid : List Nat} {x i : Instr} {e d : Engine}
  {frames frames' : List Frame} {out out' : Outcome}

theorem step_separate {r : Except Stop Progress} (hs : e.memory.Separate) (h : (step m frames).run.run e = (r, d)) :
    d.memory.Separate := by
  have := step_moves (Memory.SameRegions.allows m) Memory.SameRegions.writes Memory.SameRegions.release frames e
  rw [h] at this
  exact this.separate hs

variable (hm : Merges F b p k mid x i) (hF : F.Orderly) (hf : m.function? F.id = some F)
  (hm' : m' = m.modifyFunction F.id fun _ ↦ F.replaced b k (F.result p))

include hm hF hf hm'

/-- Where the one run ends the other ends too, by induction on the steps that are left: each is a step of both, or leads
over the instruction that the other run lacks. -/
theorem Mirrors.ends (hs : e.memory.Separate) (h : Mirrors m F p k i e frames frames') (hends : Ends m frames e out d) :
    ∃ out', Ends m' frames' e out' d ∧ out'.bare = out.bare := by
  induction hends generalizing frames' with
  | @returned frames e d r hstep =>
    by_cases hat : ∀ fr ∈ frames.head?, Elsewhere F k fr
    · have hboth := step_both hm hF hf hm' h hs hat
      rw [hstep] at hboth
      generalize hstep' : (step m' frames').run.run e = found at hboth
      cases hboth with
      | ok hq =>
        obtain ⟨rfl, hon⟩ := hq
        cases hon
        exact ⟨_, .returned hstep', rfl⟩
    · obtain ⟨frames₁, hskip, -⟩ := h.skip hm hF hf hat
      rw [hstep] at hskip
      cases hskip
  | @stopped frames e d s hstep =>
    by_cases hat : ∀ fr ∈ frames.head?, Elsewhere F k fr
    · have hboth := step_both hm hF hf hm' h hs hat
      rw [hstep] at hboth
      generalize hstep' : (step m' frames').run.run e = found at hboth
      cases hboth with
      | error hbare hd =>
        subst hd
        exact ⟨_, .stopped hstep', congrArg Outcome.stopped hbare⟩
    · obtain ⟨frames₁, hskip, -⟩ := h.skip hm hF hf hat
      rw [hstep] at hskip
      cases hskip
  | @running frames frames₁ e c d out hstep _ ih =>
    by_cases hat : ∀ fr ∈ frames.head?, Elsewhere F k fr
    · have hboth := step_both hm hF hf hm' h hs hat
      rw [hstep] at hboth
      generalize hstep' : (step m' frames').run.run e = found at hboth
      cases hboth with
      | ok hq =>
        obtain ⟨rfl, hon⟩ := hq
        cases hon with
        | running hmirrors =>
          obtain ⟨out', hends', hbare⟩ := ih (step_separate hs hstep) hmirrors
          exact ⟨out', .running hstep' hends', hbare⟩
    · obtain ⟨frames₂, hskip, hmirrors, -⟩ := h.skip hm hF hf hat
      rw [hstep] at hskip
      cases hskip
      exact ih hs hmirrors

theorem Mirrors.ends_away (hs : e.memory.Separate) (h : Mirrors m F p k i e frames frames')
    (hat : ∀ fr ∈ frames.head?, Elsewhere F k fr) (hends : Ends m' frames' e out' d) :
    ∃ out, Ends m frames e out d ∧ out'.bare = out.bare := by
  induction hends generalizing frames with
  | @returned frames' e d r hstep' =>
    have hboth := step_both hm hF hf hm' h hs hat
    rw [hstep'] at hboth
    generalize hstep : (step m frames).run.run e = found at hboth
    cases hboth with
    | ok hq =>
      obtain ⟨rfl, hon⟩ := hq
      cases hon
      exact ⟨_, .returned hstep, rfl⟩
  | @stopped frames' e d s hstep' =>
    have hboth := step_both hm hF hf hm' h hs hat
    rw [hstep'] at hboth
    generalize hstep : (step m frames).run.run e = found at hboth
    cases hboth with
    | error hbare hd =>
      subst hd
      exact ⟨_, .stopped hstep, congrArg Outcome.stopped hbare⟩
  | @running frames' frames₁' e c d out' hstep' _ ih =>
    have hboth := step_both hm hF hf hm' h hs hat
    rw [hstep'] at hboth
    generalize hstep : (step m frames).run.run e = found at hboth
    cases hboth with
    | ok hq =>
      obtain ⟨rfl, hon⟩ := hq
      cases hon with
      | @running frames₁ _ hmirrors =>
        have hs' := step_separate hs hstep
        by_cases hat' : ∀ fr ∈ frames₁.head?, Elsewhere F k fr
        · obtain ⟨out, hends, hbare⟩ := ih hs' hmirrors hat'
          exact ⟨out, .running hstep hends, hbare⟩
        · obtain ⟨frames₂, hskip, hmirrors', hat''⟩ := hmirrors.skip hm hF hf hat'
          obtain ⟨out, hends, hbare⟩ := ih hs' hmirrors' hat''
          exact ⟨out, .running hstep (.running hskip hends), hbare⟩

theorem Mirrors.ends_back (hs : e.memory.Separate) (h : Mirrors m F p k i e frames frames')
    (hends : Ends m' frames' e out' d) : ∃ out, Ends m frames e out d ∧ out'.bare = out.bare := by
  by_cases hat : ∀ fr ∈ frames.head?, Elsewhere F k fr
  · exact h.ends_away hm hF hf hm' hs hat hends
  · obtain ⟨frames₁, hskip, hmirrors, hat'⟩ := h.skip hm hF hf hat
    obtain ⟨out, hends', hbare⟩ := hmirrors.ends_away hm hF hf hm' hs hat' hends
    exact ⟨out, .running hskip hends', hbare⟩

theorem Merges.executes (hs : e.memory.Separate) (f : FuncId) (args : List UInt64) (o : Outcome) :
    Engine.Executes m' f args e o d ↔ Engine.Executes m f args e o d := by
  have hboth : Both _ _ ((enter m [] 0 f args).run.run e) ((enter m' [] 0 f args).run.run e) :=
    enter_both hm hF hf hm' 0 f args
  rw [Engine.executes_iff, Engine.executes_iff]
  generalize (enter m [] 0 f args).run.run e = r at hboth ⊢
  generalize (enter m' [] 0 f args).run.run e = r' at hboth ⊢
  cases hboth with
  | error hbare hd =>
    subst hd
    constructor
    · rintro (⟨_, _, _, h, -⟩ | ⟨_, h, rfl⟩) <;> cases h
      exact .inr ⟨_, rfl, congrArg Outcome.stopped hbare⟩
    · rintro (⟨_, _, _, h, -⟩ | ⟨_, h, rfl⟩) <;> cases h
      exact .inr ⟨_, rfl, (congrArg Outcome.stopped hbare).symm⟩
  | ok hq =>
    obtain ⟨rfl, rfl, hmirror⟩ := hq
    have hmirrors : Mirrors m F p k i _ [_] [_] := .cons hmirror .nil (List.forall_mem_nil _)
    constructor
    · rintro (⟨_, _, out', h, hends, rfl⟩ | ⟨_, h, -⟩) <;> cases h
      obtain ⟨out, hends', hbare⟩ := hmirrors.ends_back hm hF hf hm' hs hends
      exact .inl ⟨_, _, out, rfl, hends', hbare.symm⟩
    · rintro (⟨_, _, out, h, hends, rfl⟩ | ⟨_, h, -⟩) <;> cases h
      obtain ⟨out', hends', hbare⟩ := hmirrors.ends hm hF hf hm' hs hends
      exact .inl ⟨_, _, out', rfl, hends', hbare⟩

end

/-! ### All merges of a pass -/

section

variable {m : Module} {F G : Function} {e d : Engine}

theorem Merged.heading (h : Merged F G) : SameHeading F G := by
  induction h with
  | refl => exact .refl F
  | tail _ hstep ih =>
    obtain ⟨b, p, k, mid, x, i, -, rfl⟩ := hstep
    exact ih.trans (.replaced ..)

theorem modifyFunction_self (hf : m.function? F.id = some F) : (m.modifyFunction F.id fun _ ↦ F) = m := by
  have hsame : m.functions.modify F.id.index (fun _ ↦ F) = m.functions := by
    refine Array.ext (by simp) fun n h h' ↦ ?_
    rw [Array.getElem_modify]
    split
    · rename_i heq
      subst heq
      rw [Module.function?, Array.getElem?_eq_getElem h'] at hf
      exact (Option.some.inj hf).symm
    · rfl
  unfold Module.modifyFunction
  rw [hsame]

theorem modifyFunction_again (m : Module) (id : FuncId) (G G' : Function) :
    ((m.modifyFunction id fun _ ↦ G).modifyFunction id fun _ ↦ G') = m.modifyFunction id fun _ ↦ G' := by
  have hsame : (m.functions.modify id.index fun _ ↦ G).modify id.index (fun _ ↦ G') =
      m.functions.modify id.index fun _ ↦ G' := by
    refine Array.ext (by simp) fun n h h' ↦ ?_
    simp only [Array.getElem_modify]
    split <;> rfl
  unfold Module.modifyFunction
  simp only [hsame]

theorem conclude_modify (t : Ty) (out : Outcome) (e : Engine) :
    Engine.conclude (m.modifyFunction F.id fun _ ↦ G) t out e = Engine.conclude m t out e := by
  have hstructs : (m.modifyFunction F.id fun _ ↦ G).structs = m.structs := rfl
  unfold Engine.conclude Engine.keepAggregate Layouts.alignOf
  simp only [Layouts.of_structs hstructs]

variable (hf : m.function? F.id = some F)

include hf

theorem Merged.executes (h : Merged F G) (hF : F.Orderly) (hs : e.memory.Separate) (f : FuncId) (args : List UInt64)
    (o : Outcome) : Engine.Executes (m.modifyFunction F.id fun _ ↦ G) f args e o d ↔
    Engine.Executes m f args e o d := by
  induction h with
  | refl => rw [modifyFunction_self hf]
  | @tail G G' hmerged hstep ih =>
    obtain ⟨b, p, k, mid, x, i, hm, rfl⟩ := hstep
    have hid : G.id = F.id := (Merged.heading hmerged).id
    have hG : (m.modifyFunction F.id fun _ ↦ G).function? G.id = some G := by rw [hid, function?_modify hf, if_pos rfl]
    refine Iff.trans ?_ ih
    refine hm.executes (Merged.orderly hmerged hF) hG ?_ hs f args o
    rw [hid, modifyFunction_again]

theorem callee?_modify (hh : SameHeading F G) (address : UInt64) (args : List UInt64) :
    Engine.callee? (m.modifyFunction F.id fun _ ↦ G) address args e = Engine.callee? m address args e := by
  unfold Engine.callee?
  split
  · rfl
  split
  · rfl
  rename_i f _
  rw [function?_modify hf]
  by_cases hid : f = F.id
  · subst hid
    rw [if_pos rfl, hf]
    dsimp only
    rw [hh.params, hh.name, Function.ret, hh.signature, Function.ret]
  · rw [if_neg hid]

/-- Numbering a function that verifies and loads no struct changes nothing of what code does: whatever is called,
however it uses memory and whatever else it calls, it ends with the same result or for the same reason and leaves the
same engine, or does not end, as before. -/
theorem number_calls (h : F.Shaped) (hv : m.verify F = [])
    (hload : ∀ {b k : Nat} {i : Instr}, F.Lists b k i → i.op = .load → i.type.isStruct = false) (known : Escapes)
    (hs : e.memory.Separate) :
    let m' := m.modifyFunction F.id fun _ ↦ (Pass.number.run F known).1.f
    (∀ f args o, Engine.Executes m' f args e o d ↔ Engine.Executes m f args e o d) ∧
      ∀ address args r, Engine.Calls m' address args e r d ↔ Engine.Calls m address args e r d := by
  intro m'
  have hF : F.Orderly := .of_verify h hf hv hload
  have hmerged : Merged F (Pass.number.run F known).1.f := number_merged hF
  have hex : ∀ f args o c, Engine.Executes m' f args e o c ↔ Engine.Executes m f args e o c :=
    fun f args o c ↦ hmerged.executes hf hF hs f args o
  refine ⟨fun f args o ↦ hex f args o d, fun address args r ↦ ?_⟩
  rw [Engine.calls_iff, Engine.calls_iff]
  simp only [m', callee?_modify hf (Merged.heading hmerged), conclude_modify]
  simp only [← hex, m']

end

theorem number_calls_twice : let m : Module := { name := "m", functions := #[twice] }
    let f := (Pass.number.run twice []).1.f
    f.instructions.length + 1 = twice.instructions.length ∧
      ∀ o d, Engine.Executes (m.modifyFunction ⟨0⟩ fun _ ↦ f) ⟨0⟩ [21] {} o d ↔ Engine.Executes m ⟨0⟩ [21] {} o d := by
  intro m f
  refine ⟨by decide, fun o d ↦ ?_⟩
  have hload : ∀ i ∈ twice.instrs, i.op = .load → i.type.isStruct = false := by decide
  exact (number_calls rfl twice_built.formed.tidy.toShaped (List.isEmpty_iff.mp (by decide))
    (fun hl ↦ hload _ (Array.mem_of_getElem? hl.found)) [] (show _ ≤ _ by decide)).1 ⟨0⟩ [21] o

/-- A function that loads what is at its argument, puts a slot on the stack, and loads from its argument again. -/
def rereading : Function :=
  let f : Function :=
  { id := ⟨0⟩, name := "f", signature := .func .i32 [.pointer .i32], params := [⟨"", .pointer .i32⟩] }
  let p : Value := .param ⟨0⟩ 0 (.pointer .i32)
  let f := (f.addBlock "entry").1
  let f := (f.append 0 (.load p "before")).1
  let f := (f.append 0 (.alloca .i32 "slot")).1
  let f := (f.append 0 (.load p "after")).1
  (f.append 0 (.ret (some (.instr ⟨⟨0⟩, 2⟩ .i32)))).1

def rereadingModule : Module := { name := "m", functions := #[rereading] }

/-- A heap that ends with a 5 at the address at which the stack begins. -/
def overlaidHeap : Region where
  base := heapBase
  data := zeros 0xFFFFFF0000 ++ ⟨#[5, 0, 0, 0]⟩
  top := 0xFFFFFF0004
  fits := by
    rw [ByteArray.size_append, size_zeros]
    exact le_rfl

def overlaidEngine : Engine := { limits := .ofRequest 0 0 0x20000000000, memory := { heap := overlaidHeap } }

theorem rereading_built : rereading.Built := by
  have hheading := (Function.Built.declared ⟨0⟩ "f" .i32 [.pointer .i32]).block "entry"
  refine .instr (.instr (.instr (.instr hheading (by decide) (.load ..) ?_) (by decide) (.alloca ..) ?_) (by decide)
    (.load ..) ?_) (by decide) (.ret ..) ?_ <;> intro v hv
  · cases List.mem_singleton.mp hv
    exact fun _ ↦ rfl
  · cases hv
  · cases List.mem_singleton.mp hv
    exact fun _ ↦ rfl
  · cases List.mem_singleton.mp hv
    exact ⟨rfl, _, rfl, rfl⟩

theorem load_read {m : Module} {trace : List String} {e : Engine} {a v : UInt64} {bs : Bytes}
    (hread : e.memory.read? a (4 : Nat) = some bs) (hv : readWord? bs = some v) :
    (load m trace a .i32).run.run e = (.ok (signExtend v 32), e) := by
  have hbytes : (readBytes trace a (4 : Nat)).run.run e = (.ok bs, e) := by
    unfold readBytes
    rw [run_bind_ok run_get, hread]
    rfl
  have hpattern : (readPattern trace a 4).run.run e = (.ok v, e) := by
    unfold readPattern
    rw [run_bind_ok hbytes, hv]
    rfl
  exact run_bind_ok hpattern

theorem overlaid_read : overlaidEngine.memory.read? stackBase (4 : Nat) = some [5, 0, 0, 0] := by
  have hstack : overlaidEngine.memory.stack.place? stackBase (4 : Nat) = none := by decide
  have hheap : overlaidEngine.memory.heap.place? stackBase (4 : Nat) = some 0xFFFFFF0000 := by decide
  have hextract : overlaidHeap.data.extract 0xFFFFFF0000 0xFFFFFF0004 = ⟨#[5, 0, 0, 0]⟩ :=
    ByteArray.extract_append_eq_right (size_zeros _).symm (by rw [size_zeros]; rfl)
  unfold Memory.read?
  rw [hstack, hheap]
  show some ((overlaidHeap.data.extract 0xFFFFFF0000 0xFFFFFF0004).toList) = _
  rw [hextract, toList_eq]

theorem rereading_first (m : Module) :
    (load m ["f"] stackBase .i32).run.run overlaidEngine = (.ok 5, overlaidEngine) := by
  rw [load_read overlaid_read (show readWord? [5, 0, 0, 0] = some 5 by decide), show signExtend 5 32 = 5 by decide]

/-- The slot takes the place of what is on the heap. -/
theorem rereading_slot (m : Module) : ∃ e, (stackAlloc m ["f"] .i32 1).run.run overlaidEngine = (.ok stackBase, e) ∧
    (load m ["f"] stackBase .i32).run.run e = (.ok 0, e) := by
  have hlayout : scalarLayout? (.i32 : Ty) = some (.scalar 4) := rfl
  obtain ⟨c, -, halloc⟩ := @stackAlloc_run m ["f"] overlaidEngine .empty _ _ hlayout 1 0 4 (by decide) rfl (by decide)
  rw [if_pos (by decide)] at halloc
  generalize he :
    ({ c with memory := { overlaidEngine.memory with stack := overlaidEngine.memory.stack.grow _ } } : Engine) =
    e at halloc
  have hstack : e.memory.stack = overlaidEngine.memory.stack.grow 4 := by rw [← he]
  have hbytes : (overlaidEngine.memory.stack.grow 4).bytes = [0, 0, 0, 0] := Region.bytes_grow _ (Nat.zero_le 4)
  have hslice : slice e.memory.stack.bytes 0 4 = littleEndian 4 (0 : UInt64).toNat := by
    rw [hstack, hbytes]
    decide
  have hroom : e.memory.stack.base.toNat + e.memory.stack.top < 2 ^ 64 := by
    rw [hstack]
    decide
  have hbase : stackBase = e.memory.stack.base + (0 : Nat).toUInt64 := by
    rw [hstack]
    decide
  refine ⟨e, halloc, ?_⟩
  rw [hbase]
  exact load_run m ["f"] hroom rfl (by rw [hstack]; rfl) hslice fun _ ↦ by decide

def rereadingFrame (values : Std.HashMap InstrId UInt64) (rest : List Nat) : Frame :=
  { fn := ⟨0⟩, name := "f", args := [stackBase], values, block := ⟨⟨0⟩, 0⟩, rest, mark := 0 }

theorem rereading_executes :
    (∃ d, Engine.Executes rereadingModule ⟨0⟩ [stackBase] overlaidEngine (.returned ⟨0, []⟩) d) ∧
    ∃ d, Engine.Executes (rereadingModule.modifyFunction ⟨0⟩ fun _ ↦ (Pass.number.run rereading []).1.f) ⟨0⟩ [stackBase]
      overlaidEngine (.returned ⟨5, []⟩) d := by
  let i₀ : Instr := { Instr.load (.param ⟨0⟩ 0 (.pointer .i32)) "before" with home := some ⟨⟨0⟩, 0⟩ }
  let i₁ : Instr := { Instr.alloca .i32 "slot" with home := some ⟨⟨0⟩, 0⟩, number := 1 }
  let i₂ : Instr := { Instr.load (.param ⟨0⟩ 0 (.pointer .i32)) "after" with home := some ⟨⟨0⟩, 0⟩, number := 2 }
  let before : Std.HashMap InstrId UInt64 := Std.HashMap.insert {} ⟨⟨0⟩, 0⟩ 5
  let between := before.insert ⟨⟨0⟩, 1⟩ stackBase
  constructor
  · obtain ⟨e, halloc, hagain⟩ := rereading_slot rereadingModule
    have hload : (step rereadingModule [rereadingFrame {} [0, 1, 2, 3]]).run.run overlaidEngine =
        (.ok (.running [rereadingFrame before [1, 2, 3]]), overlaidEngine) :=
      step_of_compute (i := i₀) rfl rfl (by decide) rfl (.cons (.param rfl) .nil) (rereading_first rereadingModule)
    have hslot : (step rereadingModule [rereadingFrame before [1, 2, 3]]).run.run overlaidEngine =
        (.ok (.running [rereadingFrame between [2, 3]]), e) :=
      step_of_compute (i := i₁) rfl rfl (by decide) rfl .nil halloc
    have hreload : (step rereadingModule [rereadingFrame between [2, 3]]).run.run e =
        (.ok (.running [rereadingFrame (between.insert ⟨⟨0⟩, 2⟩ 0) [3]]), e) :=
      step_of_compute (i := i₂) rfl rfl (by decide) rfl (.cons (.param rfl) .nil) hagain
    exact ⟨_, Engine.executes_iff.mpr (.inl ⟨_, _, _, rfl, .running hload (.running hslot (.running hreload (.returned
      (step_returns e rfl rfl rfl rfl Std.HashMap.getElem?_insert_self rfl rfl)))), rfl⟩)⟩
  · let m := rereadingModule.modifyFunction ⟨0⟩ fun _ ↦ (Pass.number.run rereading []).1.f
    obtain ⟨e, halloc, -⟩ := rereading_slot m
    have hload : (step m [rereadingFrame {} [0, 1, 3]]).run.run overlaidEngine =
        (.ok (.running [rereadingFrame before [1, 3]]), overlaidEngine) :=
      step_of_compute (i := i₀) rfl rfl (by decide) rfl (.cons (.param rfl) .nil) (rereading_first m)
    have hslot : (step m [rereadingFrame before [1, 3]]).run.run overlaidEngine =
        (.ok (.running [rereadingFrame between [3]]), e) :=
      step_of_compute (i := i₁) rfl rfl (by decide) rfl .nil halloc
    have hfirst : between[(⟨⟨0⟩, 0⟩ : InstrId)]? = some 5 := by
      rw [Std.HashMap.getElem?_insert, if_neg (by decide)]
      exact Std.HashMap.getElem?_insert_self
    exact ⟨_, Engine.executes_iff.mpr (.inl ⟨_, _, _, rfl, .running hload (.running hslot (.returned
      (step_returns e rfl rfl rfl rfl hfirst rfl rfl))), rfl⟩)⟩

/-- Two loads of one pointer differ where the heap in use reaches beyond the address at which the stack begins: what is
put on the stack between them covers what the first of them reads. -/
theorem number_differs_overlaid : rereading.Shaped ∧ rereadingModule.verify rereading = [] ∧
    (∀ {b k : Nat} {i : Instr}, rereading.Lists b k i → i.op = .load → i.type.isStruct = false) ∧
    ¬ ∀ f args o d, Engine.Executes (rereadingModule.modifyFunction ⟨0⟩ fun _ ↦ (Pass.number.run rereading []).1.f) f
    args
      overlaidEngine o d ↔ Engine.Executes rereadingModule f args overlaidEngine o d := by
  have hload : ∀ i ∈ rereading.instrs, i.op = .load → i.type.isStruct = false := by decide
  refine ⟨rereading_built.formed.tidy.toShaped, List.isEmpty_iff.mp (by decide),
    fun hl ↦ hload _ (Array.mem_of_getElem? hl.found), fun h ↦ ?_⟩
  obtain ⟨⟨d, hplain⟩, d', hnumbered⟩ := rereading_executes
  cases (((h ⟨0⟩ [stackBase] _ _).mpr hplain).unique hnumbered).1

end CilSsa.Passes

