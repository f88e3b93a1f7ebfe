import CilSsa.Proofs.BodySimulation
import CilSsa.Proofs.MethodNames
import CilSsa.Proofs.OperandOrder
import CilSsa.Proofs.OptimizedCalls

namespace CilSsa.Lowering

open CilSsa.Bytecode CilSsa.Metadata CilSsa.SlotMachine
open CilSsa.Number (pattern)
open CilSsa.Ssa (FuncId Function)
open CilSsa.StackMachine (State knows)

/-- A static method on 32-bit integers whose body has only instructions that the stack machine knows. The size of the
buffer for its operands, as lowering counts it, is an integer of 32 bits. -/
structure IntegerMethod (m : Method) (body : Body) : Prop where
  static : m.isInstance = false
  params : ∀ p ∈ m.params, p.type = int32
  returns : m.returnType = int32
  present : m.body = some body
  locals : ∀ t ∈ body.locals, t = int32
  fits : bufferSize body.maxStack < 2 ^ 31
  known : ∀ i ∈ (decodeAll body.code).1, knows i.op = true
  few : m.params.length + body.locals.length < 2 ^ 56

section

variable {u u' : CompilationUnit} {world : Universe} {m : Method}

theorem codeTypes_code {ts : List Ty} {k : Nat} {codes : List Ssa.Ty} (hu : KnowsInt32 u) (hts : ∀ t ∈ ts, t = int32)
    (hc : Compiles ((ts.zipIdx k).mapM fun (t, i) ↦ do
      let code ← within (.parameter i m.text) (codeType world t)
      if code = .void then throw (.unsupportedType t .voidParameter)
      return code : Compile (List Ssa.Ty)) u codes u') :
    codes = List.replicate ts.length .i32 ∧ KnowsInt32 u' ∧ ∃ types journal, u' = { u with types, journal } := by
  induction ts generalizing k u codes with
  | nil =>
    rw [List.zipIdx_nil, List.mapM_nil, Compiles.pure_iff] at hc
    obtain ⟨rfl, rfl⟩ := hc
    exact ⟨rfl, hu, _, _, rfl⟩
  | cons t ts ih =>
    rw [List.forall_mem_cons] at hts
    obtain ⟨rfl, hts⟩ := hts
    simp only [List.zipIdx_cons, List.mapM_cons, Compiles.bind_iff, within, Compiles.adapt_iff, Compiles.pure_iff] at hc
    obtain ⟨code, _, ⟨_, _, hc₁, hc₂⟩, codes, _, hc₃, rfl, rfl⟩ := hc
    obtain ⟨rfl, hu₁, types, journal, rfl⟩ := codeType_unit hu hc₁
    have hvoid : ¬ Ssa.Ty.i32 = .void := by decide
    simp only [hvoid, if_false, Compiles.pure_iff] at hc₂
    obtain ⟨rfl, rfl⟩ := hc₂
    obtain ⟨rfl, hu₂, types', journal', rfl⟩ := ih hu₁ hts hc₃
    exact ⟨rfl, hu₂, _, _, rfl⟩

theorem signature_code {ts : List Ty} {sig : Ssa.Ty} (hu : KnowsInt32 u) (hts : ∀ t ∈ ts, t = int32)
    (hret : m.returnType = int32) (hc : Compiles (signature world m ts) u sig u') :
    sig = .func .i32 (List.replicate ts.length .i32) ∧ KnowsInt32 u' ∧ ∃ types journal,
    u' = { u with types, journal } := by
  unfold signature at hc
  obtain ⟨codes, u₁, hc₁, hc⟩ := Compiles.bind_iff.mp hc
  obtain ⟨ret, _, hc₂, hc⟩ := Compiles.bind_iff.mp hc
  obtain ⟨rfl, rfl⟩ := Compiles.pure_iff.mp hc
  obtain ⟨rfl, hu₁, types, journal, rfl⟩ := codeTypes_code hu hts hc₁
  rw [within, Compiles.adapt_iff, hret] at hc₂
  obtain ⟨rfl, hu₂, types', journal', rfl⟩ := codeType_unit hu₁ hc₂
  exact ⟨rfl, hu₂, _, _, rfl⟩

theorem register_code {ret : Ssa.Ty} {params : List Ssa.Ty} {f : FuncId}
    (hc : Compiles (register m (.func ret params)) u f u') :
    ∃ g : Function, g.id = f ∧ g.Built ∧ f = ⟨u.module.functions.size⟩ ∧ g.signature = .func ret params ∧
      g.params.length = params.length ∧ g.blocks = #[] ∧ g.instrs = #[] ∧ u.module.functionCalled? g.name = none ∧
      ∃ journal, u' = { u with module := withFunction u.module g, methods := (m.id, f) :: u.methods, journal } := by
  unfold register at hc
  obtain ⟨_, _, hget, hc⟩ := Compiles.bind_iff.mp hc
  obtain ⟨rfl, rfl⟩ := Compiles.get_iff.mp hget
  generalize freeName _ _ _ _ = name at hc
  cases hname : u.module.functionNamed? name with
  | some g =>
    simp only [Ssa.Module.addFunction, hname, Option.isSome_some, if_true] at hc
    exact absurd hc Compiles.throw_iff
  | none =>
    simp only [Ssa.Module.addFunction, hname, Option.isSome_none, Bool.false_eq_true, if_false, Compiles.bind_iff,
      Compiles.set_iff, Compiles.pure_iff] at hc
    obtain ⟨_, _, rfl, rfl, rfl⟩ := hc
    exact ⟨⟨⟨u.module.functions.size⟩, Text.composed name, .func ret params, params.map fun t ↦ ⟨"", t⟩,
      #[], #[], [], 0⟩, rfl, .declared _ _ _ _, rfl, rfl, by simp, rfl, rfl, hname, _, rfl⟩

end

/-- A function of a module that calls none but the one that fills memory. -/
structure Callable (module : Ssa.Module) (fill : FuncId) (F : Function) : Prop where
  found : module.function? F.id = some F
  called : module.functionCalled? F.name = some F
  callee : ∀ (k : Nat) (i : Ssa.Instr) (g : FuncId), F.instrs[k]? = some i → i.callee = some g → g = fill
  clears : ∀ (k : Nat) (i : Ssa.Instr), F.instrs[k]? = some i → i.callee = some fill →
    ∃ g, module.function? fill = some g ∧ g.name = Ssa.memsetName

/-- The code of a method does what the stack machine does with the body, for every plan of its frame. -/
def Follows (fill : FuncId) (F : Function) (m : Method) (body : Body) : Prop :=
  ∃ plan base E spans, 4 * plan.room < 2 ^ 31 ∧ bufferSize body.maxStack = (4 * plan.room : Nat) ∧
    Realises plan base E spans (decodeAll body.code).1 fill F m.params.length body.locals.length

/-- The function that a unit has for a method has, but for passes, the code `G`, which was verified when the module had
got so far. -/
structure Coded (u : CompilationUnit) (m : Method) (body : Body) (fill : FuncId) (G : Function) : Prop where
  signature : G.signature = .func .i32 (List.replicate m.params.length .i32)
  params : G.params.length = m.params.length
  follows : Follows fill G m body
  sturdy : Sturdy G.id G.paramTypes G
  checked : ∃ M : Ssa.Module, M.Precedes u.module ∧ M.function? G.id = some G ∧ M.verify G = []
  callable : Callable u.module fill (if u.optimize then (Passes.runPasses Passes.Pass.all G).1 else G)

section

variable {u u' : CompilationUnit} {world : Universe} {m : Method} {body : Body} {fill f : FuncId}

theorem verify_unit {span : Trace.Span} {x : Unit} (hc : Compiles (verify m f span) u x u') :
    u' = u ∧ ∀ G, u.module.function? f = some G → u.module.verify G = [] := by
  unfold verify at hc
  obtain ⟨_, _, hget, hc⟩ := Compiles.bind_iff.mp hc
  obtain ⟨rfl, rfl⟩ := Compiles.get_iff.mp hget
  split at hc
  · rename_i hnone
    refine ⟨(Compiles.pure_iff.mp hc).2.symm, fun G hG ↦ ?_⟩
    rwa [hG] at hnone
  · simp only [Compiles.bind_iff] at hc
    obtain ⟨_, _, -, _, _, -, hthrow⟩ := hc
    exact absurd hthrow Compiles.throw_iff

theorem optimise_unit {G : Function} {span span' : Trace.Span} (hG : u.module.function? f = some G)
    (hc : Compiles (optimise f span) u span' u') :
    u' = { u with module := u.module.modifyFunction f fun _ ↦ (Passes.runPasses Passes.Pass.all G).1 } := by
  unfold optimise at hc
  obtain ⟨_, _, hget, hc⟩ := Compiles.bind_iff.mp hc
  obtain ⟨rfl, rfl⟩ := Compiles.get_iff.mp hget
  simp only [hG, Compiles.bind_iff, Compiles.set_iff, Compiles.pure_iff] at hc
  obtain ⟨_, _, rfl, -, rfl⟩ := hc
  rfl

/-- When a registered body is built it is lowered and checked, and if the unit says so its code is optimised. -/
theorem buildBody_inv {compile : Method → Compile FuncId} {ts : List Ty} {g : Function} {x : Unit}
    (hg : u.module.function? f = some g) (hc : Compiles (buildBody world compile m body ts f) u x u') :
    ∃ tracing spans count v, Compiles (lowerBody world compile m body ts g) { u with tracing, spans } count v ∧
      ∀ G, v.module.function? f = some G → v.module.verify G = [] ∧ ∃ tracing spans, u' = { v with
        tracing
        spans
        module := if v.optimize then v.module.modifyFunction f fun _ ↦ (Passes.runPasses Passes.Pass.all G).1 else
        v.module } := by
  unfold buildBody at hc
  obtain ⟨span, _, hc₁, hc⟩ := Compiles.bind_iff.mp hc
  obtain ⟨t, rfl⟩ := beginSpan_unit hc₁
  obtain ⟨w, hinside, rfl⟩ := Compiles.inside_iff.mp hc
  obtain ⟨_, _, hget, hc⟩ := Compiles.bind_iff.mp hinside
  obtain ⟨rfl, rfl⟩ := Compiles.get_iff.mp hget
  simp only [hg] at hc
  obtain ⟨count, v, hc₂, hc⟩ := Compiles.bind_iff.mp hc
  obtain ⟨_, v', hc₃, hc₄⟩ := Compiles.bind_iff.mp hc
  obtain ⟨rfl, hverified⟩ := verify_unit hc₃
  refine ⟨t, _, count, _, Compiles.failing_iff.mp hc₂, fun G hG ↦ ⟨hverified G hG, ?_⟩⟩
  obtain ⟨_, _, hget, hc₅⟩ := Compiles.bind_iff.mp hc₄
  obtain ⟨rfl, rfl⟩ := Compiles.get_iff.mp hget
  split at hc₅
  · rename_i hon
    rw [if_pos hon]
    obtain ⟨_, _, hpass, hc₆⟩ := Compiles.bind_iff.mp hc₅
    obtain rfl := optimise_unit hG hpass
    obtain ⟨t', rfl⟩ := endSpan_unit hc₆
    exact ⟨_, _, rfl⟩
  · rename_i hoff
    rw [if_neg hoff]
    obtain ⟨_, _, hpure, hc₆⟩ := Compiles.bind_iff.mp hc₅
    obtain ⟨rfl, rfl⟩ := Compiles.pure_iff.mp hpure
    obtain ⟨t', rfl⟩ := endSpan_unit hc₆
    exact ⟨_, _, rfl⟩

theorem param_type {g : Function} {ret t : Ssa.Ty} {n i : Nat} (h : g.signature = .func ret (List.replicate n t))
    (hi : i < n) : (g.param i).type = t := by
  simp [Function.param, Function.paramTypes, h, Ssa.Value.type, hi]

theorem IntegerMethod.arguments (hm : IntegerMethod m body) : ∀ t ∈ m.params.map (·.type), t = int32 := by
  intro t ht
  obtain ⟨p, hp, rfl⟩ := List.mem_map.mp ht
  exact hm.params p hp

theorem signature_lowered {ts : List Ty} {g : Function} (h : DeclaredAs world m ts g) (hm : IntegerMethod m body) :
    ts = m.params.map (·.type) ∧ ∃ name, g = ⟨g.id, name, .func .i32 (List.replicate ts.length .i32),
      (List.replicate ts.length Ssa.Ty.i32).map fun t ↦ ⟨"", t⟩, #[], #[], [], 0⟩ := by
  obtain ⟨name, ret, params, hg, ⟨w, w', hargs⟩, v, v', hint, hsig⟩ := h
  simp only [argumentTypes, hm.static, Bool.false_eq_true, if_false, Compiles.pure_iff] at hargs
  obtain ⟨rfl, -⟩ := hargs
  obtain ⟨hsig, -⟩ := signature_code hint hm.arguments hm.returns hsig
  cases hsig
  exact ⟨rfl, name, hg⟩

theorem LoweredInto.code {M : Ssa.Module} (h : LoweredInto world m body f M) (hm : IntegerMethod m body) :
    ∃ fill G, M.function? f = some G ∧ G.id = f ∧ G.signature = .func .i32 (List.replicate m.params.length .i32) ∧
      G.params.length = m.params.length ∧ Follows fill G m body ∧ Sturdy f G.paramTypes G ∧
      ∀ (k : Nat) (i : Ssa.Instr) (x : FuncId), G.instrs[k]? = some i → i.callee = some x → x = fill ∧
      Filler M fill := by
  obtain ⟨fuel, ts, g, u, count, u', hdeclared, rfl, hint, hplain, hnum, hfound, hlower, rfl⟩ := h
  obtain ⟨rfl, name, hg⟩ := signature_lowered hdeclared hm
  have hsig : g.signature = .func .i32 (List.replicate (m.params.map (·.type)).length .i32) := by rw [hg]
  have hinstrs : g.instrs = #[] := by rw [hg]
  have hblocks : g.blocks = #[] := by rw [hg]
  have hb : g.Built := by
    rw [hg]
    exact .declared _ _ _ _
  have hcoding : Coding u.module.memset.2 g.id u g := ⟨hfound, rfl, hnum, hplain, hint, rfl, by simp [hinstrs]⟩
  obtain ⟨G, spans, hG, -, hgrown, -, plan, base, E, hroom, hsize, hreal⟩ :=
    lowerBody_code hcoding hlower hblocks (fun _ ↦ param_type hsig) hm.arguments hm.locals hm.returns hm.fits hm.known
  have hargs : (m.params.map (·.type)).length = g.paramTypes.length := by simp [Function.paramTypes, hsig]
  obtain ⟨G', hG', hsturdy⟩ := lowerBody_sturdy (leaves_compileMethod world fuel) ⟨hnum, hfound⟩ hb
    (.of_empty hinstrs hblocks) hargs hlower
  obtain rfl : G' = G := Option.some.inj (hG'.found.symm.trans hG.found)
  rw [List.length_map] at hreal hsig
  refine ⟨_, G', hG.found, hgrown.id, hgrown.signature.trans hsig, ?_, ⟨plan, base, E, spans, hroom, hsize, hreal⟩, ?_,
    hG.callee⟩
  · rw [hgrown.params, hg]
    simp
  · rw [hsturdy.params]
    exact hsturdy

end

section

variable {u u' : CompilationUnit} {world : Universe} {m : Method} {body : Body} {fill f : FuncId}

theorem Coherent.called (h : Coherent u) {e : MethodId × FuncId} (he : e ∈ u.methods) {F : Function}
    (hF : u.module.function? e.2 = some F) : u.module.functionCalled? F.name = some F := by
  have hlive := (h.live_of_mem he).1
  have hmem : F ∈ u.module.liveFunctions.filterMap fun i ↦ u.module.functions[i]? :=
    List.mem_filterMap.mpr ⟨_, hlive, hF⟩
  cases hfind : u.module.functionCalled? F.name with
  | none => exact absurd (List.find?_eq_none.mp hfind F hmem) (by simp)
  | some g =>
    obtain ⟨hg, hname⟩ := functionCalled?_spec h.numbered hfind
    obtain ⟨i, hi, hgi⟩ := List.mem_filterMap.mp (List.mem_of_find?_eq_some hfind)
    have heq : i = e.2.index := List.inj_on_of_nodup_map h.names hi hlive (by
      rw [Ssa.Module.nameOf, Ssa.Module.nameOf, hgi, show u.module.functions[e.2.index]? = some F from hF,
        Option.map_some, Option.map_some, hname])
    rw [heq] at hgi
    rw [← hgi]
    exact hF

/-- In the unit of a function that calls none but the one that fills memory the passes leave it so. -/
theorem Callable.of_code {module M : Ssa.Module} {F G : Function} (hF : module.function? F.id = some F)
    (hcalled : module.functionCalled? F.name = some F) (hpre : M.Precedes module)
    (hcallee : ∀ (k : Nat) (i : Ssa.Instr) (x : FuncId), G.instrs[k]? = some i → i.callee = some x →
    x = fill ∧ Filler M fill) (hcovers : ∀ (k : Nat) (i : Ssa.Instr), F.instrs[k]? = some i → ∃ j, G.instrs[k]? =
    some j ∧ j.callee = i.callee) : Callable module fill F := by
  refine ⟨hF, hcalled, fun k i x hi hx ↦ ?_, fun k i hi hx ↦ ?_⟩
  · obtain ⟨j, hj, hjx⟩ := hcovers k i hi
    exact (hcallee k j x hj (hjx.trans hx)).1
  · obtain ⟨j, hj, hjx⟩ := hcovers k i hi
    obtain ⟨y, hy, hname⟩ := (hcallee k j _ hj (hjx.trans hx)).2.found
    obtain ⟨z, hz, -, hzname, -⟩ := hpre.functions _ y hy
    exact ⟨z, hz, hzname.trans hname⟩

theorem Orderly.coded (h : Orderly world u) (he : (m.id, f) ∈ u.methods) (hfound : Found world m)
    (hm : IntegerMethod m body) : ∃ fill G, G.id = f ∧ Coded u m body fill G := by
  obtain ⟨M, F, hpre, hF, -, hverify, hlowered, hnow⟩ := h.finished _ he m body hfound hm.present
  obtain ⟨fill, G, hG, rfl, hsig, hparams, hfollows, hsturdy, hcallee⟩ := hlowered.code hm
  obtain rfl : F = G := Option.some.inj (hF.symm.trans hG)
  have hcalled := h.coherent.called he hnow
  have hheading := Passes.sameHeading_runPasses Passes.Pass.all F
  refine ⟨fill, F, rfl, hsig, hparams, hfollows, hsturdy, ⟨M, hpre, hG, hverify⟩, ?_⟩
  split at hnow
  · rename_i hon
    rw [if_pos hon] at hcalled ⊢
    refine .of_code (by rw [hheading.id]; exact hnow) hcalled hpre hcallee fun k i hi ↦ ?_
    obtain ⟨j, hj, heq⟩ := Passes.callee_covers.runPasses Passes.Pass.all F k i hi
    exact ⟨j, hj, heq.symm⟩
  · rename_i hoff
    rw [if_neg hoff] at hcalled ⊢
    exact .of_code hnow hcalled hpre hcallee fun k i hi ↦ ⟨i, hi, rfl⟩

theorem request_ok {α : Type} {c : Compile α} {a : α} :
    request c u = (.ok a, u') ↔ u.closed = false ∧ ∃ v, Compiles c { u with journal := {} } a v ∧
      u' = { v with journal := {} } := by
  unfold request Compiles
  by_cases hclosed : u.closed = true
  · rw [if_pos hclosed]
    constructor
    · intro h
      cases h
    · rintro ⟨hopen, -⟩
      rw [hclosed] at hopen
      cases hopen
  · rw [if_neg hclosed]
    rcases c.run.run { u with journal := {} } with ⟨_ | b, v⟩
    · constructor
      · intro h
        cases h
      · rintro ⟨-, _, h, -⟩
        cases h
    · constructor
      · intro h
        cases h
        exact ⟨by simpa using hclosed, v, rfl, rfl⟩
      · rintro ⟨-, _, h, rfl⟩
        cases h
        rfl

/-- A method that a unit gives out is registered, and nothing that was there before has changed. -/
theorem getMethod_registered (hworld : Consistent world) (hu : u.Reachable world) (hfound : Found world m)
    (hg : getMethod world m u = (.ok f, u')) : Orderly world u' ∧ (m.id, f) ∈ u'.methods ∧ Kept u u' ∧
    u'.closed = false := by
  have horderly := hu.orderly hworld
  have horderly' := (horderly.getMethod hworld hfound).1
  rw [hg] at horderly'
  obtain ⟨hclosed, v, hc, rfl⟩ := request_ok.mp hg
  have hjournal : { u with journal := {} } = u := by rw [← horderly.journal]
  rw [hjournal] at hc
  have hkept := ((spec_compileMethod hworld _ .nothing hfound u horderly.open).1 f v hc).toKept
  have hmem := ((naming_compileMethod hworld _ hfound u (hu.naming hworld)).1 f v hc).1
  exact ⟨horderly', hmem, ⟨horderly'.coherent, hkept.optimize, hkept.functions, hkept.live, hkept.structs, hkept.engine,
    hkept.closed⟩, hkept.closed.trans hclosed⟩

theorem invokeFor_closed (h : u.closed = true) (fuel : Nat) (args : List UInt64) :
    (u.invokeFor fuel world m args).1 = .error (.compile .closed) := by
  simp [CompilationUnit.invokeFor, CompilationUnit.functionAddress, getMethod, request, h]

theorem invokeFor_more {fuel : Nat} {args : List UInt64} {f : Machine.Fault}
    (h : (u.invokeFor fuel world m args).1 = .error (.engine (.fault f))) (more : Nat) :
    (u.invokeFor (fuel + more) world m args).1 = .error (.engine (.fault f)) := by
  unfold CompilationUnit.invokeFor at h ⊢
  rcases hat : u.functionAddress world m with ⟨e | a, v⟩ <;> rw [hat] at h
  · exact h
  simp only [CompilationUnit.onEngine] at h ⊢
  rcases Machine.Engine.callAddress_eq v.module fuel a args v.engine with ⟨err, hcallee, hcall⟩ | ⟨g, t, hcallee, hcall⟩
  · rw [Machine.Engine.callAddress_refused hcallee]
    rwa [hcall] at h
  rw [Machine.Engine.callAddress_called hcallee]
  rw [hcall] at h
  unfold Machine.Engine.execute at h ⊢
  rcases henter : (Machine.enter v.module [] 0 g args).run.run v.engine with ⟨s | fr, e⟩ <;> rw [henter] at h
  · exact h
  · rcases hrun : Machine.run v.module fuel [fr] e with ⟨out, d⟩
    simp only [hrun] at h
    have hout : out ≠ .outOfFuel := by
      rintro rfl
      cases h
    simp only [ended_more hrun hout more]
    exact h

end

/-- Calls of a method with arguments `xs` give what the stack machine returns, or fail because there is too little
stack, and they give nothing else. -/
structure Agrees (world : Universe) (m : Method) (body : Body) (u : CompilationUnit) (xs : List Int32) : Prop where
  complete : ∀ r, StackMachine.Returns (decodeAll body.code).1 (State.start xs body.locals.length) r →
    ∃ n, ∀ fuel, n ≤ fuel → (u.invokeFor fuel world m (xs.map pattern)).1 = .ok (pattern r) ∨
      ∃ fault, fault.code = .stackOverflow ∧
        (u.invokeFor fuel world m (xs.map pattern)).1 = .error (.engine (.fault fault))
  sound : ∀ fuel v, (u.invokeFor fuel world m (xs.map pattern)).1 = .ok v →
    ∃ r, StackMachine.Returns (decodeAll body.code).1 (State.start xs body.locals.length) r ∧ v = pattern r

section

variable {u u' : CompilationUnit} {world : Universe} {m : Method} {body : Body} {f fill : FuncId} {F G : Function}
  {xs : List Int32}

theorem invokeFor_ends (hworld : Consistent world) (hu : u.Reachable world) (hfound : Found world m)
    (hg : getMethod world m u = (.ok F.id, u')) (hfew : u'.engine.addressed.length < 2 ^ 32)
    (hF : Callable u'.module fill F) {B : Ssa.Block} (hB : F.blocks[0]? = some B)
    (hparams : F.params.length = m.params.length) (hxs : xs.length = m.params.length) :
    ∃ e, SlotMachine.Idle e ∧ e.limits = u.engine.limits ∧
      ∀ fuel, Answers (ends u'.module F B (xs.map pattern) fuel e) (u.invokeFor fuel world m (xs.map pattern)).1 := by
  obtain ⟨horderly, -, hkept, hclosed⟩ := getMethod_registered hworld hu hfound hg
  have hopen : u'.engine.closed = false := by
    by_contra hne
    have := horderly.opened (by simpa using hne)
    rw [hclosed] at this
    cases this
  have hargs : (xs.map pattern).length = F.params.length := by rw [List.length_map, hxs, hparams]
  obtain ⟨e, he, hlimits, hanswers⟩ := invokeFor_answers hg hF.found hF.called hopen hfew horderly.idle hB hargs
  exact ⟨e, he, hlimits.trans (by rw [hkept.engine.engine]), hanswers⟩

theorem Coded.block (h : Coded u m body fill G) (hxs : xs.length = m.params.length) : ∃ B, G.blocks[0]? = some B := by
  obtain ⟨plan, base, E, spans, -, -, hreal⟩ := h.follows
  obtain ⟨B, -, -, hB, -⟩ := hreal.first xs hxs
  exact ⟨B, hB⟩

theorem Coded.ret (h : Coded u m body fill G) : G.ret.isStruct = false := by
  rw [Function.ret, h.signature]
  rfl

theorem agrees_complete (h : Coded u m body fill G) (hm : IntegerMethod m body)
    (hG : Callable u.module fill G) (hxs : xs.length = m.params.length) {B : Ssa.Block} (hB : G.blocks[0]? = some B)
    {e : Machine.Engine} (he : SlotMachine.Idle e) {r : Int32}
    (hr : StackMachine.Returns (decodeAll body.code).1 (State.start xs body.locals.length) r) :
    ∃ n, ∀ fuel, n ≤ fuel → ends u.module G B (xs.map pattern) fuel e = .returned ⟨pattern r, []⟩ ∨
      ∃ fault, fault.code = .stackOverflow ∧ ends u.module G B (xs.map pattern) fuel e = .stopped (.fault fault) := by
  obtain ⟨plan, base, E, spans, hroom, -, hreal⟩ := h.follows
  obtain ⟨n, hresult⟩ := result_of_returns hreal hxs hr
  have hcount := hm.few
  have hheight := frameHeight_le plan.room (m.params.length + body.locals.length)
  obtain ⟨hgood, hover⟩ := run_result hG.found hG.clears hresult he hB h.ret (by omega)
  refine ⟨n, fun fuel hfuel ↦ ?_⟩
  unfold ends
  by_cases hdepth : e.limits.maxDepth ≤ 0
  · rw [if_pos hdepth]
    exact .inr ⟨_, rfl, rfl⟩
  · rw [if_neg hdepth]
    generalize frameHeight plan.room (m.params.length + body.locals.length) = height at hgood hover
    by_cases hfits : height ≤ e.limits.stackSize ∨ height = 0
    · obtain ⟨e', hrun, -⟩ := hgood hfits
      rw [hrun fuel hfuel]
      exact .inl rfl
    · obtain ⟨fault, e', hrun, hcode, -⟩ := hover hfits
      rw [hrun fuel hfuel]
      exact .inr ⟨fault, hcode, rfl⟩

theorem agrees_sound (h : Coded u m body fill G) (hm : IntegerMethod m body)
    (hG : Callable u.module fill G) (hxs : xs.length = m.params.length) {B : Ssa.Block} (hB : G.blocks[0]? = some B)
    {e : Machine.Engine} (he : SlotMachine.Idle e) {fuel : Nat} {r : Machine.Returned}
    (hr : ends u.module G B (xs.map pattern) fuel e = .returned r) :
    ∃ y, StackMachine.Returns (decodeAll body.code).1 (State.start xs body.locals.length) y ∧ r = ⟨pattern y, []⟩ := by
  obtain ⟨plan, base, E, spans, hroom, -, hreal⟩ := h.follows
  have hcount := hm.few
  unfold ends at hr
  split at hr
  · cases hr
  · rcases hrun : Machine.run u.module fuel [entryFrame G (xs.map pattern) B] e with ⟨out, e'⟩
    rw [hrun] at hr
    obtain rfl : out = .returned r := hr
    exact returns_of_call hreal hG.found hG.clears h.ret (by omega) he hxs hB hrun

/-- What a unit without passes answers to calls of a method that it gives out. -/
theorem getMethod_plain (hworld : Consistent world) (hu : u.Reachable world) (hm : IntegerMethod m body)
    (hfound : Found world m) (hoff : u.optimize = false) (hg : getMethod world m u = (.ok f, u'))
    (hfew : u'.engine.addressed.length < 2 ^ 32) (hxs : xs.length = m.params.length) : ∃ fill G B e,
    Coded u' m body fill G ∧ Callable u'.module fill G ∧
      G.blocks[0]? = some B ∧ SlotMachine.Idle e ∧ e.limits = u.engine.limits ∧
      ∀ fuel, Answers (ends u'.module G B (xs.map pattern) fuel e) (u.invokeFor fuel world m (xs.map pattern)).1 := by
  obtain ⟨horderly, hmem, hkept, -⟩ := getMethod_registered hworld hu hfound hg
  obtain ⟨fill, G, rfl, h⟩ := horderly.coded hmem hfound hm
  have hG : Callable u'.module fill G := by
    have hcallable := h.callable
    rwa [hkept.optimize, hoff, if_neg Bool.false_ne_true] at hcallable
  obtain ⟨B, hB⟩ := h.block hxs
  obtain ⟨e, he, hlimits, hanswers⟩ := invokeFor_ends hworld hu hfound hg hfew hG hB h.params hxs
  exact ⟨fill, G, B, e, h, hG, hB, he, hlimits, hanswers⟩

/-- A method on 32-bit integers that a unit compiles without passes agrees with the stack machine, whatever the unit was
asked for before. -/
theorem invoke_agrees (hworld : Consistent world) (hu : u.Reachable world) (hm : IntegerMethod m body)
    (hfound : Found world m) (hoff : u.optimize = false) (hg : getMethod world m u = (.ok f, u'))
    (hfew : u'.engine.addressed.length < 2 ^ 32) (hxs : xs.length = m.params.length) : Agrees world m body u xs := by
  obtain ⟨fill, G, B, e, h, hG, hB, he, -, hanswers⟩ := getMethod_plain hworld hu hm hfound hoff hg hfew hxs
  constructor
  · intro r hr
    obtain ⟨n, hn⟩ := agrees_complete h hm hG hxs hB he hr
    refine ⟨n, fun fuel hfuel ↦ ?_⟩
    have hanswer := hanswers fuel
    obtain hret | ⟨fault, hcode, hstop⟩ := hn fuel hfuel
    · rw [hret] at hanswer
      exact .inl hanswer.ok
    · rw [hstop] at hanswer
      exact .inr ⟨fault, hcode, hanswer.fault⟩
  · intro fuel x hx
    have hanswer := hanswers fuel
    rw [hx] at hanswer
    obtain ⟨r, hout, hpattern⟩ := hanswer.value
    obtain ⟨y, hy, rfl⟩ := agrees_sound h hm hG hxs hB he hout
    exact ⟨y, hy, hpattern rfl⟩

end

/-- The larger of two numbers: `ldarg.0; ldarg.1; bgt.s; ldarg.1; ret; ldarg.0; ret`. -/
def maxBody : Body := ⟨8, [], [0x02, 0x03, 0x30, 0x02, 0x03, 0x2a, 0x02, 0x2a]⟩

def maxMethod : Method :=
  { id := .defined ⟨0, ""⟩ 0, name := "Max", owner := none, params := [⟨"a", int32⟩, ⟨"b", int32⟩], ret := int32,
    isStatic := true, isCtor := false, body := some maxBody, token := ⟨0x06000001⟩, scope := ⟨0, ""⟩ }

theorem maxMethod_integer : IntegerMethod maxMethod maxBody :=
  ⟨rfl, by decide, rfl, rfl, nofun, by decide, by decide +kernel, by decide⟩

def maxWorld : Universe := worldOf #[maxMethod, returnMethod]

theorem maxWorld_consistent : Consistent maxWorld := by
  refine worldOf_consistent fun i m hm ↦ ?_
  obtain _ | _ | i := i
  · cases hm
    rfl
  · cases hm
    rfl
  · simp at hm

def newUnit (optimize : Bool) : CompilationUnit := .create "" {} optimize (.ofRequest 0 0 0)

/-- A unit that has compiled another method and has refused to call `Max` with one argument. -/
def usedUnit (optimize : Bool) : CompilationUnit :=
  ((getMethod maxWorld returnMethod (newUnit optimize)).2.invokeFor 0 maxWorld maxMethod [1]).2

theorem usedUnit_reachable (optimize : Bool) : (usedUnit optimize).Reachable maxWorld := by
  have hreturn : Found maxWorld returnMethod := rfl
  have hmax : Found maxWorld maxMethod := rfl
  exact .invoke hmax 0 [1] (.method hreturn (.create "" {} optimize _ {} Trace.Tracing.nop 0))

theorem invoke_agrees_max : Consistent maxWorld ∧ (usedUnit false).Reachable maxWorld ∧
    IntegerMethod maxMethod maxBody ∧ (getMethod maxWorld maxMethod (usedUnit false)).1.toOption = some ⟨2⟩ ∧
    Agrees maxWorld maxMethod maxBody (usedUnit false) [3, -4] := by
  have hg : (getMethod maxWorld maxMethod (usedUnit false)).1.toOption = some ⟨2⟩ := by decide +kernel
  have hfew : (getMethod maxWorld maxMethod (usedUnit false)).2.engine.addressed.length < 2 ^ 32 := by decide +kernel
  exact ⟨maxWorld_consistent, usedUnit_reachable false, maxMethod_integer, hg, invoke_agrees maxWorld_consistent
    (usedUnit_reachable false) maxMethod_integer rfl (by decide +kernel) (Prod.ext (ok_of_toOption hg) rfl) hfew rfl⟩

/-- Returns one: `ldc.i4.1; ret`. The number of operands is what the body declares. -/
def oneMethod (maxStack : Int) : Method :=
  { id := .defined ⟨0, ""⟩ 0, name := "One", owner := none, params := [], ret := int32, isStatic := true,
    isCtor := false, body := some ⟨maxStack, [], [0x17, 0x2a]⟩, token := ⟨0x06000001⟩, scope := ⟨0, ""⟩ }

def oneWorld (maxStack : Int) : Universe := worldOf #[oneMethod maxStack]

def oneUnit (maxStack : Int) : CompilationUnit := (getMethod (oneWorld maxStack) (oneMethod maxStack) (newUnit false)).2

def faultCode? : Except InvokeError UInt64 → Option Machine.FaultCode
  | .error (.engine (.fault f)) => some f.code
  | _ => none

theorem faultCode?_eq {a : Except InvokeError UInt64} {c : Machine.FaultCode} (h : faultCode? a = some c) :
    ∃ f, a = .error (.engine (.fault f)) ∧ f.code = c := by
  unfold faultCode? at h
  split at h
  · exact ⟨_, rfl, Option.some.inj h⟩
  · cases h

/-- A closed unit calls none of the methods that it gave out. And where the size of the buffer, counted in 64 bits, has
wrapped around, a method that a unit gives out fails although there is room on the stack. -/
theorem invoke_disagrees : (getMethod maxWorld maxMethod (usedUnit false)).1.toOption = some ⟨2⟩ ∧
    ¬ Agrees maxWorld maxMethod maxBody (getMethod maxWorld maxMethod (usedUnit false)).2.close [3, -4] ∧
    (getMethod (oneWorld (-2 ^ 60 - 1)) (oneMethod (-2 ^ 60 - 1)) (newUnit false)).1.toOption = some ⟨0⟩ ∧
    ¬ Agrees (oneWorld (-2 ^ 60 - 1)) (oneMethod (-2 ^ 60 - 1)) ⟨-2 ^ 60 - 1, [], [0x17, 0x2a]⟩
    (oneUnit (-2 ^ 60 - 1)) [] := by
  refine ⟨by decide +kernel, fun h ↦ ?_, by decide +kernel, fun h ↦ ?_⟩
  · have hmax : StackMachine.Returns (decodeAll maxBody.code).1 (State.start [3, -4] 0) 3 := ⟨5, by decide +kernel⟩
    obtain ⟨n, hn⟩ := h.complete 3 hmax
    have hclosed : ((getMethod maxWorld maxMethod (usedUnit false)).2.close.invokeFor n maxWorld maxMethod
        ([3, -4].map pattern)).1 = .error (.compile .closed) := invokeFor_closed rfl n _
    obtain hok | ⟨fault, -, hfault⟩ := hn n le_rfl
    · cases hclosed.symm.trans hok
    · cases hclosed.symm.trans hfault
  · have hone : StackMachine.Returns (decodeAll [0x17, 0x2a]).1 (State.start [] 0) 1 := ⟨2, by decide +kernel⟩
    obtain ⟨n, hn⟩ := h.complete 1 hone
    have hfails : faultCode? ((oneUnit (-2 ^ 60 - 1)).invokeFor 1 (oneWorld (-2 ^ 60 - 1))
      (oneMethod (-2 ^ 60 - 1)) []).1 =
        some .badValue := by decide +kernel
    obtain ⟨f, hf, hcode⟩ := faultCode?_eq hfails
    have hmore := invokeFor_more hf n
    obtain hok | ⟨fault, hover, hfault⟩ := hn (1 + n) (Nat.le_add_left n 1)
    · cases hmore.symm.trans hok
    · cases hmore.symm.trans hfault
      cases hcode.symm.trans hover

end CilSsa.Lowering

