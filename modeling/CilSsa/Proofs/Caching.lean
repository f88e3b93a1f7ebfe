import Mathlib.Data.List.Basic
import Mathlib.Data.List.Nodup
import CilSsa.Pipeline.Compile
import CilSsa.Proofs.BinaryFormats
import CilSsa.Proofs.Requests

namespace CilSsa.Pipeline

open CilSsa.Codec CilSsa.Files CilSsa.Lowering CilSsa.Metadata CilSsa.Number CilSsa.Text

/-- The sizes of the texts fit into 32 bits. -/
structure CacheEntry.Short (e : CacheEntry) : Prop where
  selector : (utf8Bytes e.selector).length < 2 ^ 32
  function : (utf8Bytes e.function).length < 2 ^ 32
  code : (utf8Bytes e.code).length < 2 ^ 32

theorem CacheEntry.decode?_encode {e : CacheEntry} (h : e.Short) :
    CacheEntry.decode? (e.encode cacheSchema) = some (cacheSchema, e) := by
  have hkey : ∀ key ∈ keys, (utf8Bytes key).length < 2 ^ 32 := by decide +kernel
  simp only [keys, List.forall_mem_cons, List.not_mem_nil, false_implies, implies_true, and_true] at hkey
  obtain ⟨hschema, hselector, hfunction, hcode⟩ := hkey
  obtain ⟨fuel, hfuel⟩ : ∃ fuel, 2 * (e.encode cacheSchema).length + 2 = fuel + 6 := by
    refine ⟨2 * ((e.encode cacheSchema).length - 2), ?_⟩
    have : 2 ≤ (e.encode cacheSchema).length := by
      rw [encode]
      simp only [List.length_append, MessagePack.head, List.length_cons, bigEndian, List.length_reverse,
        littleEndian_length]
      omega
    omega
  have hpairs : MessagePack.pairsFrom (fuel + 5) 4 (MessagePack.encodeText "Schema" ++ (MessagePack.head 0xCD 2 1 ++
      (MessagePack.encodeText "Selector" ++ (MessagePack.encodeText e.selector ++
        (MessagePack.encodeText "Function" ++ (MessagePack.encodeText e.function ++
          (MessagePack.encodeText "IR" ++ (MessagePack.encodeText e.code ++ [])))))))) =
      some ([(.text "Schema", .int 1), (.text "Selector", .text e.selector), (.text "Function", .text e.function),
        (.text "IR", .text e.code)], []) := by
    refine MessagePack.pairsFrom_text hschema rfl ?_
    refine MessagePack.pairsFrom_text hselector (MessagePack.item_text h.selector _ _) ?_
    refine MessagePack.pairsFrom_text hfunction (MessagePack.item_text h.function _ _) ?_
    exact MessagePack.pairsFrom_text hcode (MessagePack.item_text h.code _ _) rfl
  have hitem : MessagePack.item (fuel + 6) (e.encode cacheSchema) = some (.record
      [("Schema", .int 1), ("Selector", .text e.selector), ("Function", .text e.function),
      ("IR", .text e.code)], []) := by
    have hbytes : e.encode cacheSchema = MessagePack.recordHead 4 ++ (MessagePack.encodeText "Schema" ++
        (MessagePack.head 0xCD 2 1 ++ (MessagePack.encodeText "Selector" ++ (MessagePack.encodeText e.selector ++
          (MessagePack.encodeText "Function" ++ (MessagePack.encodeText e.function ++
            (MessagePack.encodeText "IR" ++ (MessagePack.encodeText e.code ++ [])))))))) := by
      simp [encode, cacheSchema]
    have hhead : ∀ bs, MessagePack.parseHead (MessagePack.recordHead 4 ++ bs) = some (.record 4, bs) := fun _ ↦ rfl
    rw [hbytes, MessagePack.item, hhead]
    simp only [Option.bind_eq_bind, Option.bind_some, hpairs]
    rfl
  rw [decode?, MessagePack.decode?, hfuel, hitem]
  rfl

section store

variable {c : DiskCache} {files files' : FileStore} {key : Bytes} {e : CacheEntry}

theorem lookup_filter_ne {path other : String} (h : path ≠ other) (l : List (String × Bytes)) :
    (l.filter (·.1 ≠ other)).lookup path = l.lookup path := by
  induction l with
  | nil => rfl
  | cons x l ih =>
    obtain ⟨p, bs⟩ := x
    by_cases hp : p = other
    · subst hp
      simp only [List.filter_cons, ne_eq, not_true_eq_false, decide_false, Bool.false_eq_true, if_false,
      List.lookup_cons,
        beq_eq_false_iff_ne.mpr h, ih]
    · simp only [List.filter_cons, ne_eq, hp, not_false_eq_true, decide_true, if_true, List.lookup_cons, ih]

theorem content?_put (h : c.put files key e = .ok files') (path : String) :
    files'.content? path = some (e.encode cacheSchema) ∨ files'.content? path = files.content? path := by
  unfold DiskCache.put FileStore.makeDirs at h
  split at h
  · cases h
  · simp only [bind, Except.bind, FileStore.write] at h
    split at h
    · cases h
    · split at h
      · cases h
      · cases h
        unfold FileStore.content? FileStore.absolute
        dsimp only
        by_cases heq : Files.absolute files.cwd path = Files.absolute files.cwd (c.pathFor key)
        · left
          rw [heq, List.lookup_cons_self]
        · right
          rw [List.lookup_cons, beq_eq_false_iff_ne.mpr heq]
          exact lookup_filter_ne heq _

theorem cachedCode?_eq (c : DiskCache) (files : FileStore) (key : Bytes) (s : String) :
    cachedCode? (some c) files key s = (c.get? files key).bind fun e ↦ if e.selector = s then some ⟨e.function, e.code,
    true⟩ else none := rfl

theorem cachedCode?_put (hshort : e.Short) (h : c.put files key e = .ok files') {key' : Bytes}
    {s : String} {x : Emitted} (hx : cachedCode? (some c) files' key' s = some x) :
    cachedCode? (some c) files key' s = some x ∨ e.selector = s ∧ x = ⟨e.function, e.code, true⟩ := by
  rw [cachedCode?_eq, DiskCache.get?] at hx ⊢
  rcases content?_put h (c.pathFor key') with hnew | hold
  · right
    rw [hnew, Option.bind_some, CacheEntry.decode?_encode hshort] at hx
    dsimp only at hx
    rw [if_pos rfl, Option.bind_some] at hx
    split at hx
    · rename_i hs
      cases hx
      exact ⟨hs, rfl⟩
    · cases hx
  · left
    rwa [hold] at hx

end store

def Emits (ms : List MethodResult) (s : String) (x : Emitted) : Prop :=
  ∃ m ∈ ms, m.selector = s ∧ ∃ y, m.outcome = .ok y ∧ y.function = x.function ∧ y.code = x.code

/-- What is known of a run after some results: whatever is served was served at the start or was emitted since, and what
the results took from the cache was there at the start. -/
structure Course (c : DiskCache) (start files : FileStore) (ms : List MethodResult) : Prop where
  served : ∀ {key s x}, cachedCode? (some c) files key s = some x →
    cachedCode? (some c) start key s = some x ∨ Emits ms s x
  taken : ∀ m ∈ ms, ∀ x, m.outcome = .ok x → x.cached = true → ∃ key, cachedCode? (some c) start key m.selector = some x

def MethodResult.Short (m : MethodResult) : Prop :=
  ∀ x, m.outcome = .ok x → CacheEntry.Short ⟨m.selector, x.function, x.code⟩

instance (e : CacheEntry) : Decidable e.Short :=
  decidable_of_iff ((utf8Bytes e.selector).length < 2 ^ 32 ∧ (utf8Bytes e.function).length < 2 ^ 32 ∧
    (utf8Bytes e.code).length < 2 ^ 32) ⟨fun h ↦ ⟨h.1, h.2.1, h.2.2⟩, fun h ↦ ⟨h.selector, h.function, h.code⟩⟩

instance (m : MethodResult) : Decidable m.Short :=
  decidable_of_iff (m.outcome.toOption.all fun x ↦ CacheEntry.Short ⟨m.selector, x.function, x.code⟩) (by
    unfold MethodResult.Short
    cases m.outcome <;> simp [Except.toOption])

section target

variable {p : Program} {c : DiskCache} {start : FileStore} {t : Target} {u : CompilationUnit} {r : Run}

theorem keepCode_run (cache : Option DiskCache) (key : Bytes) (s : String) (x : Emitted) (r : Run) :
    ((keepCode cache key s x r).2.tracing = r.tracing ∧ (keepCode cache key s x r).2.carrier = r.carrier) ∧
    ((keepCode cache key s x r).2.files = r.files ∨
      ∃ c, cache = some c ∧ c.put r.files key ⟨s, x.function, x.code⟩ = .ok (keepCode cache key s x r).2.files) := by
  unfold keepCode
  simp only [bind, StateT.bind, get, getThe, MonadStateOf.get, StateT.get, pure]
  cases cache with
  | none => exact ⟨⟨rfl, rfl⟩, .inl rfl⟩
  | some c =>
    dsimp only
    cases hput : c.put r.files key ⟨s, x.function, x.code⟩ with
    | error e => exact ⟨⟨rfl, rfl⟩, .inl rfl⟩
    | ok files => exact ⟨⟨rfl, rfl⟩, .inr ⟨c, rfl, hput⟩⟩

theorem compileTarget_miss (cache : Option DiskCache) (r₀ : Run)
    (h : cachedCode? cache r.files (cacheKey (p.closureBytes t.image) t.selector u.optimize) t.selector = none) :
    (compileTarget p cache t u r).1 = (compileTarget p none t u r₀).1 ∧
    ((compileTarget p cache t u r).2.tracing = r.tracing ∧ (compileTarget p cache t u r).2.carrier = r.carrier) ∧
    ((compileTarget p cache t u r).2.files = r.files ∨
      ∃ c x, cache = some c ∧ (compileTarget p cache t u r).1.1.outcome = .ok x ∧
        c.put r.files (cacheKey (p.closureBytes t.image) t.selector u.optimize) ⟨t.selector, x.function, x.code⟩ =
          .ok (compileTarget p cache t u r).2.files) := by
  have hnone : cachedCode? none r₀.files (cacheKey (p.closureBytes t.image) t.selector u.optimize) t.selector = none :=
    rfl
  unfold compileTarget
  simp only [bind, StateT.bind, get, getThe, MonadStateOf.get, StateT.get, pure, h, hnone]
  rcases hm : getMethod p.world t.method u with ⟨e | f, u'⟩
  · exact ⟨rfl, ⟨rfl, rfl⟩, .inl rfl⟩
  · refine ⟨rfl, ?_⟩
    dsimp only
    obtain ⟨hkept, hfiles⟩ := keepCode_run cache (cacheKey (p.closureBytes t.image) t.selector u.optimize) t.selector
      ⟨(((u'.module.printFunction f).1.function? f).map (·.name)).getD "", (u'.module.printFunction f).2, false⟩
      (report t.selector .compile .done (record .compile (report t.selector .compile .working r).2).2).2
    refine ⟨hkept, hfiles.imp_right ?_⟩
    rintro ⟨c, rfl, hput⟩
    exact ⟨c, _, rfl, rfl, hput⟩

theorem compileTarget_hit (cache : Option DiskCache) {x : Emitted}
    (h : cachedCode? cache r.files (cacheKey (p.closureBytes t.image) t.selector u.optimize) t.selector = some x) :
    (compileTarget p cache t u r).1 = (⟨p.graph.nameOf t.image, t.selector, .ok x⟩, u) ∧
    ((compileTarget p cache t u r).2.tracing = r.tracing ∧ (compileTarget p cache t u r).2.carrier = r.carrier) ∧
    (compileTarget p cache t u r).2.files = r.files := by
  unfold compileTarget
  simp only [bind, StateT.bind, get, getThe, MonadStateOf.get, StateT.get, pure, h]
  exact ⟨rfl, ⟨rfl, rfl⟩, rfl⟩

theorem compileTarget_plain (p : Program) (t : Target) (u : CompilationUnit) (r : Run) :
    (compileTarget p none t u r).1.1.selector = t.selector ∧
    ∀ x, (compileTarget p none t u r).1.1.outcome = .ok x → x.cached = false := by
  have hnone : cachedCode? none r.files (cacheKey (p.closureBytes t.image) t.selector u.optimize) t.selector = none :=
    rfl
  unfold compileTarget
  simp only [bind, StateT.bind, get, getThe, MonadStateOf.get, StateT.get, pure, hnone]
  rcases getMethod p.world t.method u with ⟨e | f, u'⟩
  · exact ⟨rfl, nofun⟩
  · refine ⟨rfl, fun x hx ↦ ?_⟩
    cases hx
    rfl

theorem compileTarget_selector (p : Program) (cache : Option DiskCache) (t : Target) (u : CompilationUnit) (r : Run) :
    (compileTarget p cache t u r).1.1.selector = t.selector := by
  cases h : cachedCode? cache r.files (cacheKey (p.closureBytes t.image) t.selector u.optimize) t.selector with
  | some x => rw [(compileTarget_hit cache h).1]
  | none => rw [(compileTarget_miss cache r h).1, (compileTarget_plain p t u r).1]

theorem Course.target {ms : List MethodResult} (h : Course c start r.files ms)
    (hnew : ∀ m ∈ ms, m.selector ≠ t.selector) (hshort : (compileTarget p (some c) t u r).1.1.Short) :
    Course c start (compileTarget p (some c) t u r).2.files (ms ++ [(compileTarget p (some c) t u r).1.1]) := by
  have hselector := compileTarget_selector p (some c) t u r
  have hmore : ∀ {m s x}, Emits ms s x → Emits (ms ++ [m]) s x := by
    rintro m s x ⟨m', hm', hx⟩
    exact ⟨m', List.mem_append_left _ hm', hx⟩
  have hold : ∀ {key s x}, cachedCode? (some c) r.files key s = some x →
      cachedCode? (some c) start key s = some x ∨ Emits (ms ++ [(compileTarget p (some c) t u r).1.1]) s x :=
    fun hx ↦ (h.served hx).imp_right hmore
  have htaken : (∀ x, (compileTarget p (some c) t u r).1.1.outcome = .ok x → x.cached = true →
      ∃ key, cachedCode? (some c) start key t.selector = some x) →
      ∀ m ∈ ms ++ [(compileTarget p (some c) t u r).1.1], ∀ x, m.outcome = .ok x → x.cached = true →
        ∃ key, cachedCode? (some c) start key m.selector = some x := by
    intro hlast m hm
    rcases List.mem_append.mp hm with hm | hm
    · exact h.taken m hm
    · rw [List.mem_singleton.mp hm, hselector]
      exact hlast
  cases hserved : cachedCode? (some c) r.files (cacheKey (p.closureBytes t.image) t.selector u.optimize) t.selector with
  | some x =>
    obtain ⟨hout, -, hfiles⟩ := compileTarget_hit (some c) hserved
    refine ⟨fun hx ↦ hold (hfiles ▸ hx), htaken fun y hy _ ↦ ?_⟩
    rw [hout] at hy
    cases hy
    -- nothing was emitted for this selector, so the entry was there at the start
    rcases h.served hserved with hstart | ⟨m, hm, hs, -⟩
    · exact ⟨_, hstart⟩
    · exact absurd hs (hnew m hm)
  | none =>
    obtain ⟨hplain, -, hfiles⟩ := compileTarget_miss (some c) r hserved
    refine ⟨fun hx ↦ ?_, htaken fun y hy hcached ↦ ?_⟩
    · rcases hfiles with hfiles | ⟨c', x, heq, hout, hput⟩
      · exact hold (hfiles ▸ hx)
      · cases heq
        have hentry := hshort x hout
        rw [hselector] at hentry
        rcases cachedCode?_put hentry hput hx with hx | ⟨rfl, rfl⟩
        · exact hold hx
        · exact .inr ⟨_, List.mem_append_right _ (List.mem_singleton.mpr rfl), hselector, x, hout, rfl, rfl⟩
    · rw [hplain] at hy
      rw [(compileTarget_plain p t u r).2 y hy] at hcached
      cases hcached

end target

section runs

variable {p : Program} {c : DiskCache} {start : FileStore}

def targetStep (p : Program) (cache : Option DiskCache) (acc : List (Nat × MethodResult) × CompilationUnit)
    (tn : Target × Nat) : StateM Run (List (Nat × MethodResult) × CompilationUnit) := do
  let (m, u) ← compileTarget p cache tn.1 acc.2
  return (acc.1 ++ [(tn.2, m)], u)

theorem foldlM_targetStep_cons (cache : Option DiskCache) (out : List (Nat × MethodResult)) (u : CompilationUnit)
    (tn : Target × Nat) (ts : List (Target × Nat)) (r : Run) : (tn :: ts).foldlM (targetStep p cache) (out, u) r =
      ts.foldlM (targetStep p cache) (out ++ [(tn.2, (compileTarget p cache tn.1 u r).1.1)],
        (compileTarget p cache tn.1 u r).1.2) (compileTarget p cache tn.1 u r).2 := by
  rw [List.foldlM_cons]
  rfl

theorem compileTarget_carrier (p : Program) (cache : Option DiskCache) (t : Target) (u : CompilationUnit) (r : Run) :
    (compileTarget p cache t u r).2.carrier = r.carrier := by
  cases h : cachedCode? cache r.files (cacheKey (p.closureBytes t.image) t.selector u.optimize) t.selector with
  | some x => exact (compileTarget_hit cache h).2.1.2
  | none => exact (compileTarget_miss cache r h).2.1.2

theorem foldlM_targetStep_keeps (cache : Option DiskCache) (out : List (Nat × MethodResult)) (u : CompilationUnit)
    (ts : List (Target × Nat)) (r : Run) : out <+: (ts.foldlM (targetStep p cache) (out, u) r).1.1 ∧
      (ts.foldlM (targetStep p cache) (out, u) r).1.1.map (fun x ↦ (x.1, x.2.selector)) =
        out.map (fun x ↦ (x.1, x.2.selector)) ++ ts.map (fun tn ↦ (tn.2, tn.1.selector)) ∧
      (ts.foldlM (targetStep p cache) (out, u) r).2.carrier = r.carrier := by
  induction ts generalizing out u r with
  | nil => exact ⟨List.prefix_refl _, (List.append_nil _).symm, rfl⟩
  | cons tn ts ih =>
    rw [foldlM_targetStep_cons]
    obtain ⟨hkept, horder, hcarrier⟩ := ih (out ++ [(tn.2, (compileTarget p cache tn.1 u r).1.1)])
      (compileTarget p cache tn.1 u r).1.2 (compileTarget p cache tn.1 u r).2
    refine ⟨(List.prefix_append out [_]).trans hkept, ?_, hcarrier.trans (compileTarget_carrier ..)⟩
    rw [horder, List.map_append, List.append_assoc]
    simp [compileTarget_selector]

theorem Course.targets {prev out : List (Nat × MethodResult)} {ts : List (Target × Nat)} {u : CompilationUnit} {r : Run}
    (h : Course c start r.files ((prev ++ out).map (·.2)))
    (hnodup : ((prev ++ out).map (·.2.selector) ++ ts.map (·.1.selector)).Nodup)
    (hshort : ∀ x ∈ (ts.foldlM (targetStep p (some c)) (out, u) r).1.1, x.2.Short) :
    Course c start (ts.foldlM (targetStep p (some c)) (out, u) r).2.files
      ((prev ++ (ts.foldlM (targetStep p (some c)) (out, u) r).1.1).map (·.2)) ∧
    ((∀ key, c.get? start key = none) → ∀ r₀ : Run,
      (ts.foldlM (targetStep p (some c)) (out, u) r).1 = (ts.foldlM (targetStep p none) (out, u) r₀).1) := by
  induction ts generalizing out u r with
  | nil => exact ⟨h, fun _ _ ↦ rfl⟩
  | cons tn ts ih =>
    rw [foldlM_targetStep_cons] at hshort ⊢
    have hfresh : ∀ m ∈ (prev ++ out).map (·.2), m.selector ≠ tn.1.selector := by
      intro m hm heq
      obtain ⟨x, hx, rfl⟩ := List.mem_map.mp hm
      rw [List.nodup_append'] at hnodup
      exact hnodup.2.2 (List.mem_map_of_mem hx) (by simp [heq])
    have hlast : (tn.2, (compileTarget p (some c) tn.1 u r).1.1) ∈
        out ++ [(tn.2, (compileTarget p (some c) tn.1 u r).1.1)] := by simp
    have hstep := h.target hfresh (hshort _ ((foldlM_targetStep_keeps ..).1.subset hlast))
    obtain ⟨hcourse, hplain⟩ := ih (by simpa using hstep)
      (by simpa [compileTarget_selector] using hnodup) hshort
    refine ⟨hcourse, fun hempty r₀ ↦ ?_⟩
    have hmiss : cachedCode? (some c) r.files
        (cacheKey (p.closureBytes tn.1.image) tn.1.selector u.optimize) tn.1.selector = none := by
      rw [← Option.not_isSome_iff_eq_none, Option.isSome_iff_exists]
      rintro ⟨x, hx⟩
      rcases h.served hx with hx | ⟨m, hm, hs, -⟩
      · rw [cachedCode?_eq, hempty] at hx
        cases hx
      · exact hfresh m hm hs
    rw [foldlM_targetStep_cons, ← (compileTarget_miss (some c) r₀ hmiss).1]
    exact hplain hempty _

def unitFor (p : Program) (q : Request) (resolver : Resolver) (image : Nat) (r : Run) : CompilationUnit :=
  { CompilationUnit.create (p.graph.nameOf image) resolver q.optimize q.limits with
    tracing := r.tracing, tracer := r.carrier.tracer, traceParent := r.carrier.parent }

theorem compileImage_run (p : Program) (q : Request) (resolver : Resolver) (image : Nat)
    (ts : List (Target × Nat)) (r : Run) : compileImage p q resolver image ts r =
      let res := ts.foldlM (targetStep p q.cache) ([], unitFor p q resolver image r) r
      ((res.1.1, res.1.2.resolver), { res.2 with tracing := res.1.2.tracing }) := by rfl

theorem compileImage_order (p : Program) (q : Request) (resolver : Resolver) (image : Nat)
    (ts : List (Target × Nat)) (r : Run) : (compileImage p q resolver image ts r).1.1.map
    (fun x ↦ (x.1, x.2.selector)) =
      ts.map fun tn ↦ (tn.2, tn.1.selector) := (foldlM_targetStep_keeps ..).2.1

def targetsOf (targets : List Target) (image : Nat) : List (Target × Nat) := targets.zipIdx.filter (·.1.image = image)

def imageStep (p : Program) (q : Request) (targets : List Target) (acc : List (Nat × MethodResult) × Resolver)
    (image : Nat) : StateM Run (List (Nat × MethodResult) × Resolver) := do
  let (rs, resolver) ← compileImage p q acc.2 image (targetsOf targets image)
  return (acc.1 ++ rs, resolver)

theorem foldlM_imageStep_cons (q : Request) (targets : List Target) (out : List (Nat × MethodResult))
    (resolver : Resolver) (image : Nat) (images : List Nat) (r : Run) : (image :: images).foldlM (imageStep p q targets)
    (out, resolver) r =
      images.foldlM (imageStep p q targets)
        (out ++ (compileImage p q resolver image (targetsOf targets image) r).1.1,
          (compileImage p q resolver image (targetsOf targets image) r).1.2)
        (compileImage p q resolver image (targetsOf targets image) r).2 := by
  rw [List.foldlM_cons]
  rfl

theorem foldlM_imageStep_keeps (q : Request) (targets : List Target) (out : List (Nat × MethodResult))
    (resolver : Resolver) (images : List Nat) (r : Run) :
    out <+: (images.foldlM (imageStep p q targets) (out, resolver) r).1.1 ∧
      (images.foldlM (imageStep p q targets) (out, resolver) r).1.1.map (fun x ↦ (x.1, x.2.selector)) =
        out.map (fun x ↦ (x.1, x.2.selector)) ++
          (images.flatMap (targetsOf targets)).map fun tn ↦ (tn.2, tn.1.selector) := by
  induction images generalizing out resolver r with
  | nil => exact ⟨List.prefix_refl _, (List.append_nil _).symm⟩
  | cons image images ih =>
    rw [foldlM_imageStep_cons]
    obtain ⟨hkept, horder⟩ := ih (out ++ (compileImage p q resolver image (targetsOf targets image) r).1.1)
      (compileImage p q resolver image (targetsOf targets image) r).1.2
      (compileImage p q resolver image (targetsOf targets image) r).2
    refine ⟨(List.prefix_append out _).trans hkept, ?_⟩
    rw [horder, List.map_append, List.flatMap_cons, List.map_append, ← List.append_assoc, compileImage_order]

theorem Course.image {q : Request} (hq : q.cache = some c) {ts : List (Target × Nat)} {image : Nat}
    {out : List (Nat × MethodResult)} {resolver : Resolver} {r : Run} (h : Course c start r.files (out.map (·.2)))
    (hnodup : (out.map (·.2.selector) ++ ts.map (·.1.selector)).Nodup)
    (hshort : ∀ x ∈ (compileImage p q resolver image ts r).1.1, x.2.Short) :
    Course c start (compileImage p q resolver image ts r).2.files
      ((out ++ (compileImage p q resolver image ts r).1.1).map (·.2)) ∧
    ((∀ key, c.get? start key = none) → ∀ r₀ : Run, r₀.tracing = r.tracing → r₀.carrier = r.carrier →
      (compileImage p { q with cache := none } resolver image ts r₀).1 = (compileImage p q resolver image ts r).1 ∧
      (compileImage p { q with cache := none } resolver image ts r₀).2.tracing =
        (compileImage p q resolver image ts r).2.tracing ∧
      (compileImage p { q with cache := none } resolver image ts r₀).2.carrier =
        (compileImage p q resolver image ts r).2.carrier) := by
  simp only [compileImage_run, hq] at hshort ⊢
  rw [← out.append_nil] at h hnodup
  obtain ⟨hcourse, hplain⟩ := h.targets hnodup hshort
  refine ⟨hcourse, fun hempty r₀ htracing hcarrier ↦ ?_⟩
  have hunit : unitFor p { q with cache := none } resolver image r₀ = unitFor p q resolver image r := by
    unfold unitFor
    rw [htracing, hcarrier]
  rw [hunit, hplain hempty r₀]
  exact ⟨rfl, rfl, by rw [(foldlM_targetStep_keeps ..).2.2, (foldlM_targetStep_keeps ..).2.2, hcarrier]⟩

theorem Course.images {q : Request} (hq : q.cache = some c) {targets : List Target} {images : List Nat}
    {out : List (Nat × MethodResult)} {resolver : Resolver} {r : Run} (h : Course c start r.files (out.map (·.2)))
    (hnodup : (out.map (·.2.selector) ++ (images.flatMap (targetsOf targets)).map (·.1.selector)).Nodup)
    (hshort : ∀ x ∈ (images.foldlM (imageStep p q targets) (out, resolver) r).1.1, x.2.Short) :
    Course c start (images.foldlM (imageStep p q targets) (out, resolver) r).2.files
      ((images.foldlM (imageStep p q targets) (out, resolver) r).1.1.map (·.2)) ∧
    ((∀ key, c.get? start key = none) → ∀ r₀ : Run, r₀.tracing = r.tracing → r₀.carrier = r.carrier →
      (images.foldlM (imageStep p { q with cache := none } targets) (out, resolver) r₀).1 =
        (images.foldlM (imageStep p q targets) (out, resolver) r).1) := by
  induction images generalizing out resolver r with
  | nil => exact ⟨h, fun _ _ _ _ ↦ rfl⟩
  | cons image images ih =>
    rw [foldlM_imageStep_cons] at hshort ⊢
    rw [List.flatMap_cons, List.map_append, ← List.append_assoc] at hnodup
    have hfirst : ∀ x ∈ (compileImage p q resolver image (targetsOf targets image) r).1.1, x.2.Short :=
      fun x hx ↦ hshort x ((foldlM_imageStep_keeps ..).1.subset (List.mem_append_right _ hx))
    obtain ⟨hcourse, hplain⟩ := h.image hq hnodup.of_append_left hfirst
    have hselectors : (out ++ (compileImage p q resolver image (targetsOf targets image) r).1.1).map (·.2.selector) =
        out.map (·.2.selector) ++ (targetsOf targets image).map (·.1.selector) := by
      rw [List.map_append]
      have horder := congrArg (List.map Prod.snd) (compileImage_order p q resolver image (targetsOf targets image) r)
      simpa [Function.comp_def] using horder
    obtain ⟨hrest, hplains⟩ := ih hcourse (by rwa [hselectors]) hshort
    refine ⟨hrest, fun hempty r₀ htracing hcarrier ↦ ?_⟩
    obtain ⟨hout, htracing', hcarrier'⟩ := hplain hempty r₀ htracing hcarrier
    rw [foldlM_imageStep_cons, hout]
    exact hplains hempty _ htracing' hcarrier'

def compileAll (p : Program) (q : Request) (targets : List Target) :
    StateM Run (List (Nat × MethodResult) × Resolver) :=
  ((targets.map (·.image)).eraseDups).foldlM (imageStep p q targets) ([], Resolver.ofModules p.modules)

def inOrder (targets : List Target) (out : List (Nat × MethodResult)) : List MethodResult :=
  (List.range targets.length).filterMap fun n ↦ out.lookup n

theorem bind_state {α β : Type} {x : StateM Run α} {f : α → StateM Run β} {a : α} {r r₁ : Run} (h : x r = (a, r₁)) :
    (x >>= f) r = f a r₁ := by
  change f (x r).1 (x r).2 = _
  rw [h]

theorem bind_ok {α β : Type} {x : Pipe α} {f : α → Pipe β} {a : α} {r r₁ : Run} (h : x.run r = (.ok a, r₁)) :
    (x >>= f).run r = (f a).run r₁ := by
  rw [ExceptT.run_bind]
  exact bind_state h

theorem foldlM_ok {α β : Type} {f : β → α → StateM Run β} {g : β → α → Pipe β}
    (h : ∀ b a r, (g b a).run r = (.ok (f b a r).1, (f b a r).2)) (as : List α) (b : β) (r : Run) :
    (as.foldlM g b).run r = (.ok (as.foldlM f b r).1, (as.foldlM f b r).2) := by
  induction as generalizing b r with
  | nil => rfl
  | cons a as ih =>
    rw [List.foldlM_cons, List.foldlM_cons, bind_ok (h b a r)]
    exact ih _ _

theorem forIn_report (targets : List Target) (r : Run) : ∃ r₁ : Run, r₁.files = r.files ∧
    (forIn targets PUnit.unit (fun t _ ↦ do
      report t.selector .compile .queued
      pure (ForInStep.yield PUnit.unit)) : Pipe PUnit).run r = (.ok PUnit.unit, r₁) := by
  induction targets generalizing r with
  | nil => exact ⟨r, rfl, rfl⟩
  | cons t targets ih =>
    obtain ⟨r₁, hfiles, hrun⟩ := ih (report t.selector .compile .queued r).2
    refine ⟨r₁, hfiles, ?_⟩
    rw [List.forIn_cons]
    exact hrun

theorem inSpan_ok {α : Type} (stage : Stage) (counted : String) (count : α → Nat) {x : Pipe α} {r r₁ : Run} {a : α}
    (h : x.run { r with
      tracing := (r.carrier.start r.tracing .stage stage.name).1,
      carrier := (r.carrier.start r.tracing .stage stage.name).2.1 } = (.ok a, r₁)) :
    ((inSpan stage counted count x).run r).1 = .ok a ∧ ((inSpan stage counted count x).run r).2.files = r₁.files := by
  have hrun : (inSpan stage counted count x).run r = (.ok a, { r₁ with
      tracing := ((((r.carrier.start r.tracing .stage stage.name).2.2.attr counted (toString (count a))).finish
        r₁.tracing "ok" false).1), carrier := r.carrier }) := by
    have hcatch : ∀ f : PipelineError → Pipe α, (tryCatch x f).run { r with
        tracing := (r.carrier.start r.tracing .stage stage.name).1,
        carrier := (r.carrier.start r.tracing .stage stage.name).2.1 } = (.ok a, r₁) := by
      intro f
      rw [ExceptT.run_tryCatch]
      exact bind_state h
    exact (bind_ok rfl).trans ((bind_ok rfl).trans (bind_ok (hcatch _)))
  rw [hrun]
  exact ⟨rfl, rfl⟩

theorem compileTargets_run (p : Program) (targets : List Target) (r : Run) : ∃ r₁ : Run, r₁.files = r.files ∧
    ∀ q, ((compileTargets p q targets).run r).1 = .ok (inOrder targets (compileAll p q targets r₁).1.1) ∧
      ((compileTargets p q targets).run r).2.files = (compileAll p q targets r₁).2.files := by
  obtain ⟨r₁, hfiles, hreport⟩ := forIn_report targets
    { r with
      tracing := (r.carrier.start r.tracing .stage Stage.compile.name).1,
      carrier := (r.carrier.start r.tracing .stage Stage.compile.name).2.1 }
  refine ⟨r₁, hfiles, fun q ↦ inSpan_ok .compile "methods" List.length ?_⟩
  rw [bind_ok hreport]
  have himages : ∀ acc image r', (do
      let (rs, resolver) ← compileImage p q acc.2 image (targetsOf targets image)
      return (acc.1 ++ rs, resolver) : Pipe (List (Nat × MethodResult) × Resolver)).run r' =
        (.ok (imageStep p q targets acc image r').1, (imageStep p q targets acc image r').2) := fun _ _ _ ↦ rfl
  exact bind_ok (foldlM_ok himages _ _ _)

end runs

section order

variable {targets : List Target}

theorem nodup_eraseDups (l : List Nat) : l.eraseDups.Nodup := by
  induction hn : l.length using Nat.strongRecOn generalizing l with
  | ind n ih =>
    cases l with
    | nil => exact List.nodup_nil
    | cons a l =>
      rw [List.eraseDups_cons, List.nodup_cons]
      refine ⟨fun hmem ↦ ?_, ih _ ?_ _ rfl⟩
      · simpa using List.mem_eraseDups.mp hmem
      · rw [← hn, List.length_cons]
        exact Nat.lt_succ_of_le (List.length_filter_le _ _)

theorem mem_targetsOf {image : Nat} {tn : Target × Nat} :
    tn ∈ targetsOf targets image ↔ targets[tn.2]? = some tn.1 ∧ tn.1.image = image := by
  simp [targetsOf, List.mem_zipIdx_iff_getElem?]

theorem nodup_compiled {α : Type} {f : Target × Nat → α}
    (h : ∀ x y, targets[x.2]? = some x.1 → targets[y.2]? = some y.1 → f x = f y → x.2 = y.2) :
    ((((targets.map (·.image)).eraseDups).flatMap (targetsOf targets)).map f).Nodup := by
  have hmem : ∀ x ∈ ((targets.map (·.image)).eraseDups).flatMap (targetsOf targets), targets[x.2]? = some x.1 := by
    intro x hx
    obtain ⟨image, -, hx⟩ := List.mem_flatMap.mp hx
    exact (mem_targetsOf.mp hx).1
  refine List.Nodup.map_on (fun x hx y hy heq ↦ ?_) (List.nodup_flatMap.mpr ⟨fun image _ ↦ ?_, ?_⟩)
  · have hnumber := h x y (hmem x hx) (hmem y hy) heq
    have htarget := hmem x hx
    rw [hnumber, hmem y hy] at htarget
    exact Prod.ext (Option.some.inj htarget).symm hnumber
  · refine List.Nodup.filter _ (List.Nodup.of_map Prod.snd ?_)
    rw [List.zipIdx_map_snd]
    exact List.nodup_range'
  · refine (nodup_eraseDups _).imp fun {i j} hne ↦ ?_
    intro x hx hy
    exact hne ((mem_targetsOf.mp hx).2.symm.trans (mem_targetsOf.mp hy).2)

theorem mem_inOrder {out : List (Nat × MethodResult)}
    (h : out.map (fun x ↦ (x.1, x.2.selector)) =
      (((targets.map (·.image)).eraseDups).flatMap (targetsOf targets)).map fun tn ↦ (tn.2, tn.1.selector))
      {m : MethodResult} :
    m ∈ inOrder targets out ↔ ∃ n, (n, m) ∈ out := by
  have hkeys : (out.map (·.1)).Nodup := by
    have hfirst := congrArg (List.map Prod.fst) h
    simp only [List.map_map, Function.comp_def] at hfirst
    rw [hfirst]
    exact nodup_compiled fun x y _ _ heq ↦ heq
  unfold inOrder
  rw [List.mem_filterMap]
  constructor
  · rintro ⟨n, -, hn⟩
    obtain ⟨l₁, l₂, rfl, -⟩ := List.lookup_eq_some_iff.mp hn
    exact ⟨n, by simp⟩
  · rintro ⟨n, hn⟩
    have hcompiled : (n, m.selector) ∈ out.map fun x ↦ (x.1, x.2.selector) := List.mem_map.mpr ⟨(n, m), hn, rfl⟩
    rw [h] at hcompiled
    obtain ⟨tn, htn, heq⟩ := List.mem_map.mp hcompiled
    obtain ⟨rfl, -⟩ := Prod.mk.inj heq
    obtain ⟨image, -, htn⟩ := List.mem_flatMap.mp htn
    have hlt := (List.getElem?_eq_some_iff.mp (mem_targetsOf.mp htn).1).1
    refine ⟨tn.2, List.mem_range.mpr hlt, List.lookup_eq_some_iff.mpr ?_⟩
    obtain ⟨l₁, l₂, rfl⟩ := List.append_of_mem hn
    refine ⟨l₁, l₂, rfl, fun x hx ↦ bne_iff_ne.mpr fun hkey ↦ ?_⟩
    rw [List.map_append, List.nodup_append'] at hkeys
    exact hkeys.2.2 (List.mem_map_of_mem hx) (by simp [hkey])

end order

def resultsOf (x : Except PipelineError (List MethodResult)) : List MethodResult := x.toOption.getD []

theorem compileTargets_ok (p : Program) (q : Request) (targets : List Target) (r : Run) :
    ((compileTargets p q targets).run r).1 = .ok (resultsOf ((compileTargets p q targets).run r).1) := by
  obtain ⟨r₁, -, hrun⟩ := compileTargets_run p targets r
  rw [(hrun q).1]
  rfl

theorem compileTargets_course {p : Program} {q : Request} {c : DiskCache} {targets : List Target} {r : Run}
    {results : List MethodResult} (hq : q.cache = some c) (hdistinct : (targets.map (·.selector)).Nodup)
    (hresults : ((compileTargets p q targets).run r).1 = .ok results) (hshort : ∀ m ∈ results, m.Short) :
    Course c r.files ((compileTargets p q targets).run r).2.files results ∧
    ((∀ key, c.get? r.files key = none) → ((compileTargets p { q with cache := none } targets).run r).1 =
    .ok results) := by
  obtain ⟨r₁, hfiles, hrun⟩ := compileTargets_run p targets r
  obtain ⟨hout, hafter⟩ := hrun q
  rw [hout] at hresults
  cases hresults
  have horder : (compileAll p q targets r₁).1.1.map (fun x ↦ (x.1, x.2.selector)) = _ := (foldlM_imageStep_keeps ..).2
  rw [List.map_nil, List.nil_append] at horder
  have hmem : ∀ {m}, m ∈ inOrder targets (compileAll p q targets r₁).1.1 ↔
    ∃ n, (n, m) ∈ (compileAll p q targets r₁).1.1 :=
    mem_inOrder horder
  have hselectors : ∀ x y : Target × Nat, targets[x.2]? = some x.1 → targets[y.2]? = some y.1 →
      x.1.selector = y.1.selector → x.2 = y.2 := by
    intro x y hx hy heq
    have hlt := (List.getElem?_eq_some_iff.mp hx).1
    exact (List.getElem?_inj (by simpa using hlt) hdistinct).mp (by simp [hx, hy, heq])
  have hstart : Course c r.files r₁.files (([] : List (Nat × MethodResult)).map (·.2)) :=
    ⟨fun hx ↦ .inl (hfiles ▸ hx), nofun⟩
  obtain ⟨hcourse, hplain⟩ := hstart.images hq (nodup_compiled hselectors)
    (fun x hx ↦ hshort x.2 (hmem.mpr ⟨x.1, hx⟩))
  rw [hafter]
  refine ⟨⟨fun hx ↦ (hcourse.served hx).imp_right ?_, fun m hm ↦ hcourse.taken m ?_⟩, fun hempty ↦ ?_⟩
  · rintro ⟨m, hm, hx⟩
    obtain ⟨x, hmx, rfl⟩ := List.mem_map.mp hm
    exact ⟨x.2, hmem.mpr ⟨x.1, hmx⟩, hx⟩
  · obtain ⟨n, hn⟩ := hmem.mp hm
    exact List.mem_map.mpr ⟨(n, m), hn, rfl⟩
  · rw [(hrun { q with cache := none }).1]
    exact congrArg (fun out ↦ Except.ok (inOrder targets out.1)) (hplain hempty r₁ rfl rfl)

/-- The cache is transparent for targets with selectors of their own: a request over an empty cache gives what it gives
without one, and whatever the cache serves afterwards for a selector is what was emitted for it. -/
theorem compileTargets_cached {p : Program} {q : Request} {c : DiskCache} {targets : List Target} {r : Run}
    {results : List MethodResult} (hempty : ∀ key, c.get? r.files key = none)
    (hdistinct : (targets.map (·.selector)).Nodup)
    (hresults : ((compileTargets p { q with cache := some c } targets).run r).1 = .ok results)
    (hshort : ∀ m ∈ results, m.Short) :
    ((compileTargets p { q with cache := none } targets).run r).1 = .ok results ∧
    ∀ key s x, cachedCode? (some c) ((compileTargets p { q with cache := some c } targets).run r).2.files
    key s = some x →
      Emits results s x := by
  obtain ⟨hcourse, hplain⟩ := compileTargets_course (q := { q with cache := some c }) rfl hdistinct hresults hshort
  refine ⟨hplain hempty, fun key s x hx ↦ ?_⟩
  rcases hcourse.served hx with hstart | hemits
  · rw [cachedCode?_eq, hempty] at hstart
    cases hstart
  · exact hemits

def identityMethod (row : Nat) (name : String) (t : Ty) : Method :=
  { popMethod with
    id := .defined ⟨0, ""⟩ row, name, params := [⟨"x", t⟩], ret := t, body := some ⟨8, [], [0x02, 0x2a]⟩,
    token := ⟨0x06000001 + row.toUInt32⟩ }

def overloadProgram : Program where
  graph := ⟨["T"], [[]]⟩
  raw := [[0]]
  modules := [⟨0, ""⟩]
  world := worldOf #[identityMethod 0 "F" (.prim .int32), identityMethod 1 "F" (.prim .int64)]

def plainRequest : Request := { images := [], optimize := false }

def firstTarget : Target := overloadProgram.targetOf 0 (identityMethod 0 "F" (.prim .int32))

def rootCache : DiskCache := ⟨"/"⟩

def blankRun : Run := { files := {} }

def twoTargets : List Target := [overloadProgram.targetOf 0 popMethod, firstTarget]

theorem compileTargets_cached_pop :
    ((compileTargets overloadProgram { plainRequest with cache := none } twoTargets).run blankRun).1 =
      ((compileTargets overloadProgram { plainRequest with cache := some rootCache } twoTargets).run blankRun).1 ∧
    (resultsOf ((compileTargets overloadProgram { plainRequest with cache := none } twoTargets).run blankRun).1).map
      (·.failure?.isSome) = [true, false] := by
  have hshort : ∀ m ∈ resultsOf ((compileTargets overloadProgram { plainRequest with cache := some rootCache }
      twoTargets).run blankRun).1, m.Short := by decide +kernel
  have hdistinct : (twoTargets.map (·.selector)).Nodup := by decide +kernel
  have hempty : ∀ key, rootCache.get? blankRun.files key = none := fun _ ↦ rfl
  have hplain := (compileTargets_cached hempty hdistinct (compileTargets_ok ..) hshort).1
  exact ⟨hplain.trans (compileTargets_ok ..).symm, by decide +kernel⟩

end CilSsa.Pipeline

