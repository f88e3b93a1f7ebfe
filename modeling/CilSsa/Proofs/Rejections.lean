import CilSsa.Proofs.TypedBodies

namespace CilSsa.Lowering

open CilSsa.Bytecode CilSsa.Metadata
open CilSsa.Ssa (FuncId Function Module)

/-- A method was rejected for its function, which is hollow; it says what verification found, and shows the function. -/
def Rejection.OfHollow (r : Rejection) : Prop :=
  ∃ (m : Method) (module : Module) (F : Function), module.function? F.id = some F ∧ F.isHollow = true ∧
    r.method = m.text ∧ r.problem = "\n".intercalate ((module.verify F).map Ssa.VerifyError.message) ∧
    r.code = (module.printFunction F.id).2

def Justified (u : CompilationUnit) : Prop := ∀ r ∈ u.rejections, r.OfHollow

/-- A unit whose functions have their places as numbers, and that has rejected nothing but what was hollow. -/
structure Ordered (u : CompilationUnit) : Prop where
  numbered : Numbered u.module
  justified : Justified u

section

variable {world : Universe} {u u' : CompilationUnit} {m : Method} {fn : FuncId}

theorem Justified.of_rejections (h : Justified u) (hr : u'.rejections = u.rejections) : Justified u' := by
  rw [Justified, hr]
  exact h

theorem Numbered.of_functions {m m' : Module} (h : Numbered m) (hf : m'.functions = m.functions)
    (hl : m'.liveFunctions = m.liveFunctions) : Numbered m' :=
  ⟨fun j g hg ↦ h.ids j g (hf ▸ hg), fun j hj ↦ hf ▸ h.live j (hl ▸ hj)⟩

theorem numbered_append (h : Numbered u.module) (b : Nat) (i : Ssa.Instr) : Numbered (u.module.append ⟨fn, b⟩ i).1 := by
  cases hF : u.module.function? fn with
  | none => simp only [Module.append, hF]; exact h
  | some F =>
    rw [append_eq hF]
    exact h.modify hF (append_id F b i)

theorem numbered_addBlock (h : Numbered u.module) (name : String) : Numbered (u.module.addBlock fn name).1 := by
  unfold Module.addBlock
  cases hF : u.module.function? fn with
  | none => exact h
  | some F => exact h.modify hF (addBlock_grown F name).1.id

instance typeless_ordered : Typeless Ordered Justified where
  fails h := h.justified
  compiled h hs := ⟨h.numbered.of_functions hs.functions hs.liveFunctions, h.justified.of_rejections hs.rejections⟩
  abandoned _ h := h.of_rejections rfl

/-- A unit in which lowered code finds what it counts on, and that has rejected nothing but what was hollow. -/
structure Trusted (world : Universe) (u : CompilationUnit) : Prop extends Ordered u where
  sound : Sound world u

instance stable_trusted : Stable (Trusted world) Justified where
  fails h := h.justified
  same h hs := ⟨⟨hs.module ▸ h.numbered, h.justified.of_rejections hs.rejections⟩,
    (lasting_sound world).stable.same h.sound hs⟩
  sameFailed h hs := h.of_rejections hs.rejections

instance growable_trusted : Growable (Trusted world) Justified fn where
  toStable := stable_trusted
  append b i h := ⟨⟨numbered_append h.numbered b i, h.justified⟩,
    ((lasting_sound world).growable fn).append b i h.sound⟩
  memset h := ⟨⟨(memset_spec h.numbered ⟨0⟩).1, h.justified⟩, (lasting_sound world).memset h.sound⟩

theorem trusted_of_both {α : Type} {c : Compile α} (h : Spec Ordered c (fun _ ↦ Ordered) Justified)
    (h' : Spec (Sound world) c (fun _ ↦ Sound world) fun _ ↦ True) :
    Spec (Trusted world) c (fun _ ↦ Trusted world) Justified :=
  (h.and h').imp (fun _ hu ↦ ⟨hu.toOrdered, hu.sound⟩) fun _ _ hu ↦ ⟨hu.1, hu.2⟩

theorem trusted_compileType (t : Ty) : Spec (Trusted world) (compileType world world.nestingLimit t)
    (fun _ ↦ Trusted world) Justified :=
  trusted_of_both (Typeless.spec_compileType _ t) ((lasting_sound world).total.types t)

def Fresh (m : Method) (af : List Ty × FuncId) (u : CompilationUnit) : Prop :=
  af.1 = m.receives ∧ ∃ F, u.module.function? af.2 = some F ∧ F.Built ∧ F.instrs = #[] ∧ F.blocks = #[] ∧
  Declares u m F.signature

theorem ordered_declare (m : Method) : Spec Ordered (declare world m)
    (fun af u ↦ Ordered u ∧ ∃ F, u.module.function? af.2 = some F ∧ F.Built ∧ F.instrs = #[] ∧
    F.blocks = #[]) Justified := by
  refine (Typeless.spec_argumentTypes (J := Ordered) m).bind fun args ↦ ?_
  refine (Typeless.spec_signature m args).bind fun sig ↦ ?_
  refine Spec.bind (Q := fun f u ↦ Ordered u ∧ ∃ F, u.module.function? f = some F ∧ F.Built ∧
    F.instrs = #[] ∧ F.blocks = #[]) (spec_register_of (fun _ hu ↦ hu.justified) fun u name ret params j hu hsig _ ↦ ?_)
    fun f ↦ .pure fun _ hu ↦ hu
  subst hsig
  refine ⟨⟨hu.numbered.withFunction rfl, hu.justified⟩, _, ?_, .declared ⟨u.module.functions.size⟩ name ret params, rfl,
    rfl⟩
  simp [Module.function?, withFunction]

theorem trusted_declare (hm : Found world m) :
    Spec (Trusted world) (declare world m) (fun af u ↦ Trusted world u ∧ Fresh m af u) Justified := by
  refine fun u hu ↦ ⟨fun af u' hc ↦ ?_, (ordered_declare m u hu.toOrdered).2⟩
  obtain ⟨hordered, F, hF, hbuilt, hinstrs, hblocks⟩ := (ordered_declare m u hu.toOrdered).1 af u' hc
  obtain ⟨hargs, ⟨G, hG, hd⟩, -⟩ := (spec_declare_typed hm u (.start hu.sound.typed)).1 af u' hc
  cases hG.symm.trans hF
  exact ⟨⟨hordered, ((lasting_sound world).total.declares hm u hu.sound).1 af u' hc⟩, hargs, F, hF, hbuilt,
    hinstrs, hblocks, hd⟩

def Decided (f : FuncId) (u : CompilationUnit) : Prop :=
  ∃ F, F.id = f ∧ u.module.function? f = some F ∧ (F.isHollow = true ∨ u.module.verify F = [])

theorem Fresh.of_module {af : List Ty × FuncId} (h : Fresh m af u) (hmodule : u'.module = u.module)
    (ht : u'.types = u.types) : Fresh m af u' := by
  obtain ⟨hargs, F, hF, hbuilt, hinstrs, hblocks, ret, params, hsig, hret, hparams⟩ := h
  have hgrown : Extended u u' := ⟨hmodule ▸ .refl _, fun t ct _ hl ↦ ht ▸ hl⟩
  exact ⟨hargs, F, hmodule ▸ hF, hbuilt, hinstrs, hblocks, ret, params, hsig, hret.mono hgrown,
    hparams.imp fun _ _ hp ↦ hp.mono hgrown⟩

instance stable_fresh {af : List Ty × FuncId} : Stable (fun u ↦ Trusted world u ∧ Fresh m af u) Justified where
  fails h := h.1.justified
  same h hs := ⟨stable_trusted.same h.1 hs, h.2.of_module hs.module hs.types⟩
  sameFailed h hs := h.of_rejections hs.rejections

instance stable_justified {M : Module} : Stable (fun u ↦ u.module = M ∧ Justified u) Justified where
  fails h := h.2
  same h hs := ⟨hs.module.trans h.1, h.2.of_rejections hs.rejections⟩
  sameFailed h hs := h.of_rejections hs.rejections

theorem trusted_verify (world : Universe) (m : Method) (f : FuncId) (span : Trace.Span) :
    Spec (fun u ↦ Trusted world u ∧ Decided f u) (verify m f span) (fun _ ↦ Trusted world) Justified := by
  refine .of_get fun v ↦ ?_
  dsimp only
  split
  · exact .pure fun u hu ↦ hu.1 ▸ hu.2.1
  · rename_i herrors
    rintro u ⟨rfl, htrusted, F, rfl, hF, hcase⟩
    have hhollow : F.isHollow = true := hcase.resolve_right fun hnil ↦ herrors (by rw [hF]; exact hnil)
    refine Spec.bind (Q := fun _ u' ↦ u'.module = u.module ∧ Justified u') (spec_endSpan _ _ _) (fun _ ↦ ?_) u
      ⟨rfl, htrusted.justified⟩
    refine Spec.bind (Q := fun _ ↦ Justified) (.modify fun u' hu' r hr ↦ ?_) fun _ ↦ .throw fun _ hu ↦ hu
    obtain ⟨hmodule, hjustified⟩ := hu'
    rcases List.mem_append.mp hr with hr | hr
    · exact hjustified r hr
    · obtain rfl := List.mem_singleton.mp hr
      refine ⟨m, u.module, F, hF, hhollow, rfl, ?_, by rw [← hmodule]⟩
      dsimp only
      rw [hF]
      rfl

theorem trusted_optimise (f : FuncId) (span : Trace.Span) :
    Spec (Trusted world) (optimise f span) (fun _ ↦ Trusted world) Justified := by
  refine .of_get fun v ↦ .forget fun hv ↦ ?_
  split
  · exact .pure fun _ hu ↦ hu
  · rename_i F hF
    have hsame := Passes.sameHeading_runPasses Passes.Pass.all F
    refine Spec.bind (Q := fun _ ↦ Trusted world) (.set fun _ _ ↦ ⟨⟨hv.numbered.modify hF hsame.id, hv.justified⟩, ?_⟩)
      fun _ ↦ .pure fun _ hu ↦ hu
    exact (lasting_sound world).rewrites hv.sound hF hsame.id hsame.name hsame.signature

theorem trusted_lowerBody (hworld : Consistent world) (hplain : PlainOperators world) {fuel : Nat}
    (hmethods : ∀ id m, world.method? id = some m →
      Spec (Trusted world) (compileMethod world fuel m) (fun _ ↦ Trusted world) Justified)
    {F : Function} {body : Body} {args : List Ty} :
    Spec (fun u ↦ Trusted world u ∧ F.id = fn ∧ u.module.function? fn = some F ∧ Fresh m (args, fn) u)
      (lowerBody world (compileMethod world fuel) m body args F) (fun _ u ↦ Trusted world u ∧
      Decided fn u) Justified := by
  rintro u ⟨htrusted, rfl, hF, rfl, G, hG, hbuilt, hinstrs, hblocks, hd⟩
  cases hG.symm.trans hF
  have hadd : ∀ u name, Trusted world u → Trusted world { u with module := (u.module.addBlock F.id name).1 } :=
    fun u name h ↦ ⟨⟨numbered_addBlock h.numbered name, h.justified⟩, (lasting_sound world).addBlock h.sound F.id name⟩
  have hspec : Spec (Trusted world) (lowerBody world (compileMethod world fuel) m body m.receives F)
    (fun _ ↦ Trusted world) Justified :=
    spec_lowerBody rfl trusted_compileType hmethods hadd hadd
  refine ⟨fun count u' hc ↦ ⟨(hspec u htrusted).1 count u' hc, ?_⟩, (hspec u htrusted).2⟩
  obtain ⟨F', hF', hcase⟩ := lowerBody_verifies hworld hplain ⟨htrusted.numbered, hF⟩ hbuilt hinstrs hblocks hd
    htrusted.sound hc
  exact ⟨F', hF'.id_eq, hF'.found, hcase⟩

theorem trusted_buildBody (hworld : Consistent world) (hplain : PlainOperators world) {fuel : Nat}
    (hmethods : ∀ id m, world.method? id = some m →
      Spec (Trusted world) (compileMethod world fuel m) (fun _ ↦ Trusted world) Justified) (body : Body)
      (args : List Ty) (f : FuncId) :
    Spec (fun u ↦ Trusted world u ∧ Fresh m (args, f) u) (buildBody world (compileMethod world fuel) m body args f)
      (fun _ ↦ Trusted world) Justified := by
  unfold buildBody
  refine (spec_beginSpan _ _).bind fun span ↦ spec_inside (.of_get fun v ↦ ?_)
  split
  · exact .pure fun u hu ↦ hu.1 ▸ hu.2.1
  · rename_i F hF
    refine (spec_failing (fun h hs ↦ h.of_rejections hs.rejections) ?_).bind fun blocks ↦
    (trusted_verify world m f span).bind fun _ ↦ ?_
    · refine (trusted_lowerBody hworld hplain hmethods).imp (fun u hu ↦ ?_) fun _ _ hu ↦ hu
      obtain ⟨rfl, htrusted, hfresh⟩ := hu
      exact ⟨htrusted, htrusted.numbered.ids _ F hF, hF, hfresh⟩
    · refine .of_get fun v' ↦ .forget fun _ ↦ ?_
      dsimp only
      split
      · exact (trusted_optimise f span).bind fun _ ↦ spec_endSpan _ _ _
      · exact Spec.bind (Q := fun _ ↦ Trusted world) (.pure fun _ hu ↦ hu) fun _ ↦ spec_endSpan _ _ _

theorem trusted_compileMethod (hworld : Consistent world) (hplain : PlainOperators world) (fuel : Nat)
    (hm : Found world m) : Spec (Trusted world) (compileMethod world fuel m) (fun _ ↦ Trusted world) Justified := by
  induction fuel generalizing m with
  | zero => exact .throw fun _ hu ↦ hu.justified
  | succ fuel ih =>
    rw [compileMethod_succ]
    refine .of_get fun v ↦ .forget fun _ ↦ ?_
    split
    · exact .pure fun _ hu ↦ hu
    · refine (trusted_declare hm).bind fun af ↦ ?_
      dsimp only
      split
      · exact .pure fun _ hu ↦ hu.1
      · exact (trusted_buildBody hworld hplain (fun id m hm ↦ ih (hworld id m hm)) _ af.1 af.2).bind fun _ ↦
          .pure fun _ hu ↦ hu

/-! ### Between requests -/

theorem rollBack_rejections (u : CompilationUnit) : u.rollBack.rejections = u.rejections := by
  refine rollBack_induction (P := fun w ↦ w.rejections = u.rejections) rfl (fun w k hw ↦ ?_)
    (fun w t hw ↦ ?_) fun w hw ↦ hw
  · unfold CompilationUnit.forgetMethod
    split <;> exact hw
  · unfold CompilationUnit.forgetType
    split <;> exact hw

theorem Trusted.request {α : Type} {c : Compile α} (hu : Trusted world u)
    (hc : Spec (Trusted world) c (fun _ ↦ Trusted world) Justified) : Justified (request c u).2 := by
  unfold Lowering.request
  split
  · exact hu.justified
  · have hopened : Trusted world { u with journal := {} } :=
      ⟨⟨hu.numbered, hu.justified⟩, (lasting_sound world).same hu.sound ⟨rfl, rfl, rfl, .nothing⟩⟩
    obtain ⟨hok, herror⟩ := hc _ hopened
    split
    · rename_i a v hrun
      exact (hok a v hrun).justified
    · rename_i e v hrun
      exact (herror e v hrun).of_rejections (rollBack_rejections v)

theorem functionAddress_rejections : (u.functionAddress world m).2.rejections = (getMethod world m u).2.rejections := by
  unfold CompilationUnit.functionAddress
  split
  · rename_i hrun
    rw [hrun]
  · rename_i hrun
    rw [hrun]
    rfl

theorem invokeFor_rejections (fuel : Nat) (args : List UInt64) :
    (u.invokeFor fuel world m args).2.rejections = (u.functionAddress world m).2.rejections := by
  unfold CompilationUnit.invokeFor
  split
  · rename_i hrun
    rw [hrun]
  · rename_i hrun
    rw [hrun]
    rfl

theorem CompilationUnit.Reachable.justified (hworld : Consistent world) (hplain : PlainOperators world)
    (h : u.Reachable world) : Justified u := by
  have htrusted : ∀ {u : CompilationUnit}, u.Reachable world → Justified u → Trusted world u := fun h hu ↦
    ⟨⟨(h.orderly hworld).coherent.numbered, hu⟩, h.sound hworld⟩
  induction h with
  | create => exact fun r hr ↦ absurd hr List.not_mem_nil
  | type t hr ih => exact (htrusted hr ih).request (trusted_compileType t)
  | method hm hr ih => exact (htrusted hr ih).request (trusted_compileMethod hworld hplain _ hm)
  | address hm hr ih =>
    exact ((htrusted hr ih).request (trusted_compileMethod hworld hplain _ hm)).of_rejections
      functionAddress_rejections
  | invoke hm fuel args hr ih =>
    exact ((htrusted hr ih).request (trusted_compileMethod hworld hplain _ hm)).of_rejections
      ((invokeFor_rejections fuel args).trans functionAddress_rejections)
  | close _ ih => exact ih

end

/-- Lowering gives functions that verify, unless they are hollow. Units between requests are such that lowered code
finds in them what it counts on, and each method that such a unit ever rejected was rejected for its function, which is
hollow. And whenever from a unit of this kind a body is lowered into the function that was declared for its method, the
function that comes of it verifies if it is not hollow. -/
theorem lowered_verifies {world : Universe} (hworld : Consistent world) (hplain : PlainOperators world) :
    (∀ u, u.Reachable world → Sound world u ∧ ∀ r ∈ u.rejections, r.OfHollow) ∧
    (∀ (fuel count : Nat) (m : Method) (body : Body) (f : Function) (u u' : CompilationUnit), Sound world u →
    Houses f.id f u →
      f.Built → f.instrs = #[] → f.blocks = #[] → Declares u m f.signature →
      Compiles (lowerBody world (compileMethod world fuel) m body m.receives f) u count u' →
      ∃ F, Houses f.id F u' ∧ (F.isHollow = false → u'.module.verify F = [])) := by
  refine ⟨fun u hu ↦ ⟨hu.sound hworld, hu.justified hworld hplain⟩, fun fuel count m body f u u' hu hf hbuilt hinstrs
    hblocks hd hc ↦ ?_⟩
  obtain ⟨F, hF, hcase⟩ := lowerBody_verifies hworld hplain hf hbuilt hinstrs hblocks hd hu hc
  refine ⟨F, hF, fun hsolid ↦ hcase.resolve_left fun hhollow ↦ ?_⟩
  rw [hhollow] at hsolid
  cases hsolid

/-- Keeps a reference to nothing in a local of the type `t`: `ldarg.0; stloc.0; ret`. -/
def keepMethod (t : Ty) : Method :=
  { id := .defined ⟨0, ""⟩ 0, name := "Keep", owner := none, params := [⟨"p", .byref .void⟩], ret := .void,
    isStatic := true, isCtor := false,
    body := some ⟨8, [t], [0x02, 0x0a, 0x2a]⟩, token := ⟨0x06000001⟩, scope := ⟨0, ""⟩ }

def keepWorld (t : Ty) : Universe := worldOf #[keepMethod t]

def keepFunction : Function :=
  { id := ⟨0⟩, name := "Keep", signature := .func .void [.bytePointer], params := [⟨"", .bytePointer⟩] }

theorem keepWorld_consistent (t : Ty) : Consistent (keepWorld t) := worldOf_single rfl

theorem keepWorld_plain (t : Ty) : PlainOperators (keepWorld t) := by
  intro id m hm hconv
  obtain ⟨row, hrow⟩ := method?_worldOf hm
  obtain _ | row := row
  · cases hrow
    rfl
  · simp at hrow

def keepLowering : Compile Nat :=
  lowerBody (keepWorld (.pointer .void)) (compileMethod (keepWorld (.pointer .void)) 1) (keepMethod (.pointer .void))
    ⟨8, [.pointer .void], [0x02, 0x0a, 0x2a]⟩ (keepMethod (.pointer .void)).receives keepFunction

theorem keepFunction_sound : Sound (keepWorld (.pointer .void)) (openUnit keepFunction) where
  fills j F hF hname := by
    obtain _ | j := j
    · cases hF
      exact absurd hname (by decide)
    · simp [openUnit, freshUnit, withFunction, CompilationUnit.create] at hF
  measured l := nofun
  typed := ⟨nofun, nofun, nofun⟩
  mirrored := ⟨nofun, nofun, nofun⟩

/-- What is kept in a local of type `void*` is kept by a function that verifies. In a local of type `void&` it is not:
the method is rejected, for a function that is hollow. -/
theorem lowered_verifies_keep :
    (∃ r, (getMethod (keepWorld (.byref .void)) (keepMethod (.byref .void)) freshUnit).2.rejections =
    [r] ∧ r.OfHollow) ∧ ∃ count u' F,
    Compiles (lowerBody (keepWorld (.pointer .void)) (compileMethod (keepWorld (.pointer .void)) 1)
        (keepMethod (.pointer .void)) ⟨8, [.pointer .void], [0x02, 0x0a, 0x2a]⟩ (keepMethod (.pointer .void)).receives
        keepFunction)
      (openUnit keepFunction) count u' ∧ Houses ⟨0⟩ F u' ∧ F.isHollow = false ∧ u'.module.verify F = [] := by
  constructor
  · have hreachable : (getMethod (keepWorld (.byref .void)) (keepMethod (.byref .void)) freshUnit).2.Reachable
        (keepWorld (.byref .void)) := .method rfl (.create "" {} false _ {} Trace.Tracing.nop 0)
    have hone : (getMethod (keepWorld (.byref .void)) (keepMethod (.byref .void)) freshUnit).2.rejections.length =
        1 := by
      decide +kernel
    obtain ⟨r, hr⟩ := List.length_eq_one_iff.mp hone
    refine ⟨r, hr, ((lowered_verifies (keepWorld_consistent _) (keepWorld_plain _)).1 _ hreachable).2 r ?_⟩
    rw [hr]
    exact List.mem_singleton_self r
  · have hd : Declares (openUnit keepFunction) (keepMethod (.pointer .void)) keepFunction.signature :=
      ⟨.void, [.bytePointer], rfl, .void rfl, .cons ⟨.bytes rfl rfl, Ssa.Ty.noConfusion⟩ .nil⟩
    have hcompiles := Compiles.of_toOption (c := keepLowering) (u := openUnit keepFunction) (a := 1) (by decide +kernel)
    obtain ⟨F, hF, hverify⟩ := (lowered_verifies (keepWorld_consistent _) (keepWorld_plain _)).2 1 1 _ _ _ _ _
      keepFunction_sound (openUnit_houses rfl) (.declared ⟨0⟩ "Keep" .void [.bytePointer]) rfl rfl hd hcompiles
    have hsolid : F.isHollow = false := by
      have hchecked : ((keepLowering.run.run (openUnit keepFunction)).2.module.function? keepFunction.id).map
        Function.isHollow =
          some false := by
        decide +kernel
      rw [hF.found] at hchecked
      exact Option.some.inj hchecked
    exact ⟨1, _, F, hcompiles, hF, hsolid, hverify hsolid⟩

/-- Not every method that compiles to a function is let pass. -/
theorem keep_rejected : ¬ ∀ (world : Universe) (u : CompilationUnit) (m : Method), Consistent world →
    PlainOperators world → u.Reachable world → Found world m → (getMethod world m u).2.rejections = u.rejections := by
  intro h
  have hone : (getMethod (keepWorld (.byref .void)) (keepMethod (.byref .void)) freshUnit).2.rejections.length = 1 := by
    decide +kernel
  have hsame := h (keepWorld (.byref .void)) freshUnit (keepMethod (.byref .void)) (keepWorld_consistent _)
    (keepWorld_plain _) (.create "" {} false _ {} Trace.Tracing.nop 0) rfl
  rw [hsame] at hone
  cases hone

end CilSsa.Lowering

