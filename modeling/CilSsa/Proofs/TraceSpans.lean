import CilSsa.Trace.Tracer
import Mathlib.Data.List.DropRight
import Mathlib.Tactic.Common
import CilSsa.Proofs.Requests

namespace CilSsa.Trace

namespace Ring

variable {r : Ring} {size : Nat} {es : List Event}

/-- The ring has `size` slots, and the events `es` were stored in it, oldest first. Of these the last `size` are still
there, each in the slot that its number leads to. -/
structure Stored (r : Ring) (size : Nat) (es : List Event) : Prop where
  slots_size : r.slots.size = size
  size_pos : 0 < size
  next : r.next = es.length % size
  count : r.count = min size es.length
  slot : ∀ (i : Nat) (h : i < es.length), es.length ≤ i + size → r.slots[i % size]? = some (some es[i])

theorem stored_ofCapacity {capacity : Int} (h : 0 < capacity) : (ofCapacity capacity).Stored capacity.toNat [] where
  slots_size := by simp [ofCapacity, Int.not_le.mpr h]
  size_pos := by omega
  next := (Nat.zero_mod _).symm
  count := (Nat.min_zero _).symm
  slot _ hi := absurd hi (Nat.not_lt_zero _)

theorem mod_ne_of_close {i n : Nat} (hlt : i < n) (hclose : n < i + size) : n % size ≠ i % size := by
  intro h
  have hdiff : (n - i) % size = 0 := Nat.sub_mod_eq_zero_of_mod_eq h
  rw [Nat.mod_eq_of_lt (by omega)] at hdiff
  omega

theorem Stored.push (h : r.Stored size es) (e : Event) : (r.push e).Stored size (es ++ [e]) := by
  have hlast : es.length % size < r.slots.size := by
    rw [h.slots_size]
    exact Nat.mod_lt _ h.size_pos
  refine ⟨?_, h.size_pos, ?_, ?_, fun i hi hnew ↦ ?_⟩
  · rw [Ring.push, Array.size_setIfInBounds, h.slots_size]
  · rw [Ring.push, h.next, h.slots_size, List.length_append, List.length_singleton, Nat.mod_add_mod]
  · rw [Ring.push, h.count, h.slots_size, List.length_append, List.length_singleton]
    dsimp only
    split <;> omega
  · rw [List.length_append, List.length_singleton] at hi hnew
    rw [Ring.push, h.next, Array.getElem?_setIfInBounds]
    rcases Nat.lt_or_eq_of_le (Nat.le_of_lt_succ hi) with hlt | rfl
    · rw [if_neg (mod_ne_of_close hlt (by omega)), h.slot i hlt (by omega), List.getElem_append_left hlt]
    · rw [if_pos rfl, if_pos hlast, List.getElem_concat_length rfl]

theorem Stored.start (h : r.Stored size es) :
    (r.next + r.slots.size - r.count) % r.slots.size = (es.length - r.count) % size := by
  rw [h.next, h.slots_size, h.count]
  have hmod := Nat.mod_lt es.length h.size_pos
  rcases Nat.lt_or_ge es.length size with hlt | hge
  · rw [Nat.mod_eq_of_lt hlt, Nat.min_eq_right hlt.le, Nat.add_sub_cancel_left, Nat.sub_self,
      Nat.mod_self, Nat.zero_mod]
  · rw [Nat.min_eq_left hge, Nat.add_sub_cancel, Nat.mod_mod, ← Nat.mod_eq_sub_mod hge]

theorem Stored.toList (h : r.Stored size es) : r.toList = es.rtake (min size es.length) := by
  have hread : ∀ i ∈ List.range r.count, (r.slots[((es.length - r.count) % size + i) % size]?).join =
      (es.rtake r.count)[i]? := by
    intro i hi
    have hcount := h.count
    rw [List.mem_range] at hi
    rw [Nat.mod_add_mod, h.slot _ (by omega) (by omega), List.rtake, List.getElem?_drop]
    exact (List.getElem?_eq_getElem _).symm
  have hlength : (es.rtake r.count).length = r.count := by
    rw [List.rtake, List.length_drop, h.count]
    omega
  have hrange : (List.range (es.rtake r.count).length).filterMap (fun i ↦ (es.rtake r.count)[i]?) =
      es.rtake r.count := by
    generalize es.rtake r.count = kept
    induction kept with
    | nil => rfl
    | cons e kept ih =>
      rw [List.length_cons, List.range_succ_eq_map, List.filterMap_cons, List.filterMap_map]
      exact congrArg (e :: ·) ih
  rw [Ring.toList, h.start, h.slots_size, List.filterMap_congr hread, ← h.count]
  rwa [hlength] at hrange

end Ring

namespace Tracing

variable {s : Tracing} {t : TracerId} {l : Level} {r : Ring}

theorem tracer_emit_ring (h : s.tracer t = .ring l r) (e : Event) :
    (s.emit t e).tracer t = .ring l (if l.allows e then r.push e else r) := by
  have hlt : t.index < s.tracers.size := by
    by_contra hge
    rw [tracer, Array.getD_eq_getD_getElem?, Array.getElem?_eq_none (by omega)] at h
    cases h
  rw [emit, emitTo, h]
  dsimp only
  split
  · rw [tracer, Array.getD_eq_getD_getElem?, Array.getElem?_setIfInBounds_self_of_lt hlt, Option.getD_some]
  · exact h

theorem tracer_foldl_emit_ring (h : s.tracer t = .ring l r) (es : List Event) :
    (es.foldl (fun s e ↦ s.emit t e) s).tracer t = .ring l ((es.filter l.allows).foldl Ring.push r) := by
  induction es generalizing s r with
  | nil => exact h
  | cons e es ih =>
    rw [List.foldl_cons, ih (tracer_emit_ring h e), List.filter_cons]
    split <;> rfl

theorem tracer_addRing (s : Tracing) (capacity : Int) (l : Level) :
    (s.addRing capacity l).1.tracer (s.addRing capacity l).2 = .ring l (.ofCapacity capacity) := by
  rw [addRing, add, tracer, Array.getD_eq_getD_getElem?, Array.getElem?_push_size, Option.getD_some]

/-- A new ring with a positive capacity keeps the newest of the events that its level allows: as many as it has slots,
or all if there are not so many. It gives them in the order in which they were emitted, and those of them that failed in
that order too. -/
theorem ring_newest {capacity : Int} (h : 0 < capacity) (s : Tracing) (l : Level) (es : List Event) :
    let kept := es.filter l.allows
    let newest := kept.rtake (min capacity.toNat kept.length)
    ∃ r, (es.foldl (fun s' e ↦ s'.emit (s.addRing capacity l).2 e) (s.addRing capacity l).1).ring?
    (s.addRing capacity l).2 =
      some r ∧ r.toList = newest ∧ r.failures = newest.filter (·.failed) := by
  intro kept newest
  have hstored : ∀ (es before : List Event) (r : Ring), r.Stored capacity.toNat before →
      (es.foldl Ring.push r).Stored capacity.toNat (before ++ es) := by
    intro es
    induction es with
    | nil => exact fun before r hr ↦ by rwa [List.append_nil]
    | cons e es ih => exact fun before r hr ↦ by rw [List.append_cons]; exact ih _ _ (hr.push e)
  have htracer := tracer_foldl_emit_ring (tracer_addRing s capacity l) es
  have hlist := (hstored kept [] _ (Ring.stored_ofCapacity h)).toList
  refine ⟨_, by rw [ring?, htracer], hlist, ?_⟩
  rw [Ring.failures, hlist]
  rfl

/-- A ring of two slots, which is full after the second event and has gone round after the third. -/
def roundEvents : List Event :=
  [{ kind := .begin, scope := .stage, span := 1 }, { kind := .begin, scope := .method, span := 2, parent := 1 },
    { kind := .finish, scope := .method, span := 2, parent := 1, failed := true },
    { kind := .finish, scope := .stage, span := 1 }]

theorem ring_newest_round : (0 : Int) < 2 ∧
    ∃ r, (roundEvents.foldl (fun s' e ↦ s'.emit ⟨1⟩ e) (Tracing.addRing {} 2 .phase).1).ring? ⟨1⟩ = some r ∧
      r.toList = roundEvents.drop 2 ∧
      r.failures = [{ kind := .finish, scope := .method, span := 2, parent := 1, failed := true }] :=
  ⟨by decide, ring_newest (by decide) {} .phase roundEvents⟩

end Tracing

end CilSsa.Trace

/-!
Spans are balanced. Whatever becomes of a request, each span that it begins is ended once, the last one first, and
belongs to a span that is open when it begins.
-/

namespace CilSsa.Trace

/-- Spans that are begun and ended, each within the spans that are open around it. They are numbered from `n` on, the
last one being `k`; a span belongs to one that is open, or to `root`. -/
inductive Nested (root : Nat) : List Nat → Nat → List Event → Nat → Prop
  | nil (around : List Nat) (n : Nat) : Nested root around n [] n
  | span {around : List Nat} {n k k' parent : Nat} {inner rest : List Event} (scope : Scope) (name detail : String)
      (failed : Bool) (attrs : List (String × String)) (hparent : parent = root ∨ parent ∈ around)
      (hinner : Nested root ((n + 1) :: around) (n + 1) inner k) (hrest : Nested root around k rest k') :
      Nested root around n ({ kind := .begin, scope, span := n + 1, parent, name } :: (inner ++
        { kind := .finish, scope, span := n + 1, parent, name, detail, failed, attrs } :: rest)) k'

namespace Tracing

variable {s : Tracing} {t : TracerId}

/-- What the beginning or the end of a span does to a tracing: it is counted, and handed to the tracer if that lets it
pass. -/
def record (t : TracerId) (s : Tracing) (e : Event) : Tracing :=
  if e.kind = .begin then
    let s := { s with spans := s.spans + 1, openSpans := s.openSpans + 1 }
    if (s.level t).covers e.scope then s.emitNext t e else s
  else
    let s := { s with openSpans := s.openSpans - 1 }
    if (s.level t).allows e then s.emitNext t e else { s with seq := s.seq + 1 }

theorem write_counts (spans : Nat) (openSpans : Int) (output : Nat) (text : String) (s : Tracing) :
    { s with spans, openSpans }.write output text = { s.write output text with spans, openSpans } := by
  unfold write
  dsimp only
  split
  · rfl
  · split <;> rfl

theorem emitTo_counts (spans : Nat) (openSpans : Int) (fuel : Nat) (t : TracerId) (e : Event) (s : Tracing) :
    emitTo fuel t e { s with spans, openSpans } = { emitTo fuel t e s with spans, openSpans } := by
  induction fuel generalizing t s with
  | zero => rfl
  | succ fuel ih =>
    have htracer : { s with spans, openSpans }.tracer t = s.tracer t := rfl
    rw [emitTo, emitTo, htracer]
    cases s.tracer t with
    | nop => rfl
    | ring l r =>
      dsimp only
      split <;> rfl
    | stream l f output =>
      dsimp only
      split
      · exact write_counts spans openSpans output _ s
      · rfl
    | multi l children =>
      dsimp only
      induction children generalizing s with
      | nil => rfl
      | cons c children ih' => rw [List.foldl_cons, List.foldl_cons, ih, ih' _ rfl]

theorem emitNext_counts (spans : Nat) (openSpans : Int) (t : TracerId) (e : Event) (s : Tracing) :
    { s with spans, openSpans }.emitNext t e = { s.emitNext t e with spans, openSpans } :=
  emitTo_counts spans openSpans _ t _ { s with seq := s.seq + 1 }

theorem level_set_ring {l : Level} {r : Ring} (h : s.level t = l) (t' : TracerId) :
    { s with tracers := s.tracers.setIfInBounds t.index (.ring l r) }.level t' = s.level t' := by
  rw [level, tracer, Array.getD_eq_getD_getElem?, Array.getElem?_setIfInBounds]
  split
  · rename_i heq
    obtain rfl : t = t' := by
      cases t
      cases t'
      exact congrArg TracerId.mk heq
    split
    · exact h.symm
    · rw [level, tracer, Array.getD_eq_getD_getElem?, Array.getElem?_eq_none (by omega)]
  · rw [level, tracer, Array.getD_eq_getD_getElem?]

theorem level_emitTo (fuel : Nat) (t t' : TracerId) (e : Event) (s : Tracing) : (emitTo fuel t e s).level t' =
    s.level t' := by
  induction fuel generalizing t s with
  | zero => rfl
  | succ fuel ih =>
    rw [emitTo]
    split
    · rfl
    · rename_i l r htracer
      split
      · exact level_set_ring (by rw [level, htracer]; rfl) t'
      · rfl
    · split
      · rw [write]
        split
        · rfl
        · split <;> rfl
      · rfl
    · rename_i l children _
      clear * - ih
      induction children generalizing s with
      | nil => rfl
      | cons c children ih' => rw [List.foldl_cons, ih', ih]

theorem level_record (t t' : TracerId) (s : Tracing) (e : Event) : (s.record t e).level t' = s.level t' := by
  unfold record
  split <;> dsimp only <;> split <;> first | rfl | exact level_emitTo _ _ _ _ _

theorem record_begin {e : Event} (h : e.kind = .begin) : (record t s e).spans = s.spans + 1 ∧ (record t s e).openSpans =
    s.openSpans + 1 := by
  rw [record, if_pos h]
  dsimp only
  split
  · rw [emitNext_counts]
    exact ⟨rfl, rfl⟩
  · exact ⟨rfl, rfl⟩

theorem record_finish {e : Event} (h : e.kind = .finish) : (record t s e).spans = s.spans ∧ (record t s e).openSpans =
    s.openSpans - 1 := by
  rw [record, if_neg (by simp [h])]
  dsimp only
  split
  · rw [emitNext_counts s.spans (s.openSpans - 1) t e s]
    exact ⟨rfl, rfl⟩
  · exact ⟨rfl, rfl⟩

theorem level_foldl_record (t t' : TracerId) (es : List Event) (s : Tracing) : (es.foldl (record t) s).level t' =
    s.level t' := by
  induction es generalizing s with
  | nil => rfl
  | cons e es ih => rw [List.foldl_cons, ih, level_record]

theorem foldl_emitNext_counts (spans : Nat) (openSpans : Int) (t : TracerId) (es : List Event) (s : Tracing) :
    es.foldl (fun s e ↦ s.emitNext t e) { s with spans, openSpans } =
      { es.foldl (fun s e ↦ s.emitNext t e) s with spans, openSpans } := by
  induction es generalizing s with
  | nil => rfl
  | cons e es ih => rw [List.foldl_cons, List.foldl_cons, emitNext_counts, ih]

theorem record_debug (h : s.level t = .debug) (e : Event) :
    ∃ spans openSpans, s.record t e = { s.emitNext t e with spans, openSpans } := by
  unfold record
  split
  · refine ⟨s.spans + 1, s.openSpans + 1, ?_⟩
    exact (if_pos (congrArg (fun l ↦ Level.covers l e.scope) h)).trans (emitNext_counts _ _ t e s)
  · refine ⟨s.spans, s.openSpans - 1, ?_⟩
    refine (if_pos ?_).trans (emitNext_counts _ _ t e s)
    have hall : Level.debug.allows e = true := by
      rw [Level.allows, Level.covers, Bool.or_true]
      rfl
    exact (congrArg (fun l ↦ Level.allows l e) h).trans hall

theorem foldl_record_debug (h : s.level t = .debug) (es : List Event) :
    ∃ spans openSpans, es.foldl (record t) s = { es.foldl (fun s e ↦ s.emitNext t e) s with spans, openSpans } := by
  induction es generalizing s with
  | nil => exact ⟨s.spans, s.openSpans, rfl⟩
  | cons e es ih =>
    rw [List.foldl_cons, List.foldl_cons]
    obtain ⟨a, b, hrecord⟩ := record_debug h e
    obtain ⟨a', b', hes⟩ := ih ((level_record t t s e).trans h)
    exact ⟨a', b', by rw [hes, hrecord, foldl_emitNext_counts]⟩

end Tracing

namespace Nested

variable {root n k k' : Nat} {around : List Nat} {es es' : List Event}

theorem append (h : Nested root around n es k) (h' : Nested root around k es' k') :
    Nested root around n (es ++ es') k' := by
  induction h with
  | nil => exact h'
  | span scope name detail failed attrs hparent hinner hrest _ ih =>
    rw [List.cons_append, List.append_assoc, List.cons_append]
    exact .span scope name detail failed attrs hparent hinner (ih h')

theorem counts (h : Nested root around n es k) (t : TracerId) {s : Tracing} (hs : s.spans = n) :
    (es.foldl (Tracing.record t) s).spans = k ∧ (es.foldl (Tracing.record t) s).openSpans = s.openSpans := by
  induction h generalizing s with
  | nil => exact ⟨hs, rfl⟩
  | @span _ n _ _ parent inner _ scope name detail failed attrs _ _ _ ihInner ihRest =>
    rw [List.foldl_cons, List.foldl_append, List.foldl_cons]
    set s₁ := s.record t { kind := .begin, scope, span := n + 1, parent, name } with hs₁
    obtain ⟨hspans₁, hopen₁⟩ : s₁.spans = s.spans + 1 ∧ s₁.openSpans = s.openSpans + 1 := Tracing.record_begin rfl
    obtain ⟨hspans₂, hopen₂⟩ := ihInner (hspans₁.trans (by rw [hs]))
    set s₂ := inner.foldl (Tracing.record t) s₁ with hs₂
    set s₃ := s₂.record t { kind := .finish, scope, span := n + 1, parent, name, detail, failed, attrs } with hs₃
    obtain ⟨hspans₃, hopen₃⟩ : s₃.spans = s₂.spans ∧ s₃.openSpans = s₂.openSpans - 1 := Tracing.record_finish rfl
    obtain ⟨hspans₄, hopen₄⟩ := ihRest (hspans₃.trans hspans₂)
    exact ⟨hspans₄, by omega⟩

theorem begun (h : Nested root around n es k) :
    n ≤ k ∧ (es.filter (·.kind = .begin)).map (·.span) = List.range' (n + 1) (k - n) := by
  induction h with
  | nil around n => exact ⟨le_rfl, by rw [Nat.sub_self]; rfl⟩
  | @span around n k k' parent inner rest scope name detail failed attrs _ _ _ ihInner ihRest =>
    obtain ⟨hle₁, hinner⟩ := ihInner
    obtain ⟨hle₂, hrest⟩ := ihRest
    refine ⟨by omega, ?_⟩
    have hnumbers : k' - n = (k - (n + 1) + (k' - k)) + 1 := by omega
    have hnext : k + 1 = n + 1 + 1 + (k - (n + 1)) := by omega
    rw [List.filter_cons_of_pos (by rfl), List.filter_append, List.filter_cons_of_neg (by simp), List.map_cons,
      List.map_append, hinner, hrest, hnumbers, List.range'_succ, ← List.range'_append_1, ← hnext]

theorem ended (h : Nested root around n es k) :
    ((es.filter (·.kind = .finish)).map (·.span)).Perm ((es.filter (·.kind = .begin)).map (·.span)) := by
  induction h with
  | nil around n => exact .nil
  | @span around n k k' parent inner rest scope name detail failed attrs _ _ _ ihInner ihRest =>
    rw [List.filter_cons_of_neg (by simp), List.filter_append, List.filter_cons_of_pos (by rfl),
      List.filter_cons_of_pos (by rfl), List.filter_append, List.filter_cons_of_neg (by simp)]
    simp only [List.map_append, List.map_cons]
    exact List.perm_middle.trans ((ihInner.append ihRest).cons _)

end Nested

namespace Span

variable {s : Tracing} {t : TracerId}

theorem begin_on (h : s.isOn t = true) (scope : Scope) (name : String) (parent : Nat) :
    begin s t scope name parent = (s.record t { kind := .begin, scope, span := s.spans + 1, parent, name },
      { tracer := some t, id := s.spans + 1, parent, scope, name }) := by
  rw [begin, h]
  rfl

theorem finish_record (scope : Scope) (name : String) (id parent : Nat) (attrs : List (String × String))
    (detail : String) (failed : Bool) :
    (finish { tracer := some t, id, parent, scope, name, attrs } s detail failed).1 =
      s.record t { kind := .finish, scope, span := id, parent, name, detail, failed, attrs } := rfl

end Span

end CilSsa.Trace

namespace CilSsa.Lowering

open CilSsa.Bytecode CilSsa.Metadata
open CilSsa.Ssa (FuncId Function)
open CilSsa.Trace (Nested Tracing)

section

variable {α : Type} {world : Universe} {around : List Nat} {u v w : CompilationUnit}

/-- Two units in which the same was traced and the same spans are open. -/
structure SameSpans (u v : CompilationUnit) : Prop where
  tracing : v.tracing = u.tracing
  tracer : v.tracer = u.tracer
  traceParent : v.traceParent = u.traceParent
  spans : v.spans = u.spans

/-- The tracer of the unit is on, and its spans are among those that are open. -/
structure Traced (around : List Nat) (u : CompilationUnit) : Prop where
  on : u.tracing.isOn u.tracer = true
  known : ∀ i ∈ u.spans, i ∈ around

/-- From the unit `u` on, every span that was begun was ended. -/
structure Balanced (around : List Nat) (u v : CompilationUnit) : Prop where
  tracer : v.tracer = u.tracer
  traceParent : v.traceParent = u.traceParent
  spans : v.spans = u.spans
  nested : ∃ es, Nested u.traceParent around u.tracing.spans es v.tracing.spans ∧
    v.tracing = es.foldl (Tracing.record u.tracer) u.tracing

theorem Balanced.refl (around : List Nat) (u : CompilationUnit) : Balanced around u u :=
  ⟨rfl, rfl, rfl, [], .nil around _, rfl⟩

theorem Balanced.trans (h : Balanced around u v) (h' : Balanced around v w) : Balanced around u w := by
  obtain ⟨es, hes, htracing⟩ := h.nested
  obtain ⟨es', hes', htracing'⟩ := h'.nested
  refine ⟨h'.tracer.trans h.tracer, h'.traceParent.trans h.traceParent, h'.spans.trans h.spans, es ++ es', ?_, ?_⟩
  · rw [h.traceParent] at hes'
    exact hes.append hes'
  · rw [htracing', h.tracer, htracing, List.foldl_append]

theorem Balanced.same (h : Balanced around u v) (hs : SameSpans v w) : Balanced around u w :=
  h.trans ⟨hs.tracer, hs.traceParent, hs.spans, [], hs.tracing ▸ .nil around _, hs.tracing⟩

theorem Balanced.traced (h : Balanced around u v) (hu : Traced around u) : Traced around v := by
  obtain ⟨es, -, htracing⟩ := h.nested
  constructor
  · rw [htracing, h.tracer, Tracing.isOn, Tracing.level_foldl_record]
    exact hu.on
  · rw [h.spans]
    exact hu.known

/-! ### Within a span -/

/-- The unit when a span was begun in it, and is perhaps the innermost one. -/
def CompilationUnit.opening (u : CompilationUnit) (scope : Trace.Scope) (name : String) (spans : List Nat) :
    CompilationUnit :=
  { u with tracing := (Trace.Span.begin u.tracing u.tracer scope name u.parentSpan).1, spans }

/-- The span that is begun in the unit, with what is noted on it later. -/
def CompilationUnit.openSpan (u : CompilationUnit) (scope : Trace.Scope) (name : String)
    (attrs : List (String × String)) : Trace.Span :=
  { (Trace.Span.begin u.tracing u.tracer scope name u.parentSpan).2 with attrs }

/-- The span that was begun in `u` was ended; `spans` are still those within it. -/
structure Ended (around : List Nat) (u : CompilationUnit) (spans : List Nat) (v : CompilationUnit) : Prop where
  spans : v.spans = spans
  balanced : Balanced around u { v with spans := u.spans }

variable {scope : Trace.Scope} {name : String} {spans : List Nat}

theorem Traced.openSpan (hu : Traced around u) (attrs : List (String × String)) : u.openSpan scope name attrs =
    { tracer := some u.tracer, id := u.tracing.spans + 1, parent := u.parentSpan, scope, name, attrs } := by
  rw [CompilationUnit.openSpan, Trace.Span.begin_on hu.on]

theorem Traced.opening (hu : Traced around u) (hspans : ∀ i ∈ spans, i = u.tracing.spans + 1 ∨ i ∈ around) :
    Traced ((u.tracing.spans + 1) :: around) (u.opening scope name spans) := by
  constructor
  · have hon := hu.on
    rw [Tracing.isOn] at hon
    rw [CompilationUnit.opening, Trace.Span.begin_on hu.on, Tracing.isOn, Tracing.level_record]
    exact hon
  · exact fun i hi ↦ List.mem_cons.mpr (hspans i hi)

theorem Traced.parentSpan (hu : Traced around u) : u.parentSpan = u.traceParent ∨ u.parentSpan ∈ around := by
  have hknown := hu.known
  rw [CompilationUnit.parentSpan]
  cases hspans : u.spans with
  | nil => exact .inl rfl
  | cons i rest =>
    rw [hspans] at hknown
    exact .inr (hknown i List.mem_cons_self)

theorem Balanced.ended (hu : Traced around u)
    (h : Balanced ((u.tracing.spans + 1) :: around) (u.opening scope name spans) v)
    (attrs : List (String × String)) (detail : String) (failed : Bool) :
    Ended around u spans { v with tracing := ((u.openSpan scope name attrs).finish v.tracing detail failed).1 } := by
  obtain ⟨es, hes, htracing⟩ := h.nested
  have hbegin : (u.opening scope name spans).tracing = u.tracing.record u.tracer
      { kind := .begin, scope, span := u.tracing.spans + 1, parent := u.parentSpan, name } := by
    rw [CompilationUnit.opening, Trace.Span.begin_on hu.on]
  rw [hbegin, (Tracing.record_begin rfl).1] at hes
  have hfinish : ((u.openSpan scope name attrs).finish v.tracing detail failed).1 = v.tracing.record u.tracer
      { kind := .finish, scope, span := u.tracing.spans + 1, parent := u.parentSpan, name, detail, failed, attrs } := by
    rw [hu.openSpan, Trace.Span.finish_record]
  have hnested := Nested.span scope name detail failed attrs hu.parentSpan hes (.nil around v.tracing.spans)
  have hcount : ((u.openSpan scope name attrs).finish v.tracing detail failed).1.spans = v.tracing.spans := by
    rw [hfinish]
    exact (Tracing.record_finish rfl).1
  rw [← hcount] at hnested
  refine ⟨h.spans, h.tracer, h.traceParent, rfl, _, hnested, ?_⟩
  dsimp only
  rw [hfinish, List.foldl_cons, List.foldl_append, ← hbegin, htracing]
  rfl

/-! ### Compilation -/

variable {fn : FuncId} {site : Site} {R : α → Prop} {c : Compile α} {compile : Method → Compile FuncId} {m : Method}

instance typeless_balanced : Typeless (Balanced around u) (Balanced around u) where
  fails hv := hv
  compiled hv hs := hv.same ⟨hs.tracing, hs.tracer, hs.traceParent, hs.spans⟩
  abandoned _ hv := hv.same ⟨rfl, rfl, rfl, rfl⟩

instance extendable_balanced : Extendable (Balanced around u) (Balanced around u) fn where
  append _ _ _ hv := hv.same ⟨rfl, rfl, rfl, rfl⟩
  memset hv := hv.same ⟨rfl, rfl, rfl, rfl⟩

/-- A compilation that ends the spans that it begins, whatever unit it starts from and also if it fails. -/
def Balances (R : α → Prop) (c : Compile α) : Prop :=
  ∀ around u, Traced around u → Spec (· = u) c (fun a v ↦ R a ∧ Balanced around u v) (Balanced around u)

theorem Balances.spec (h : Balances R c) (hu : Traced around u) :
    Spec (Balanced around u) c (fun a v ↦ R a ∧ Balanced around u v) (Balanced around u) := by
  intro v hv
  obtain ⟨hok, herror⟩ := h around v (hv.traced hu) v rfl
  exact ⟨fun a w hc ↦ ⟨(hok a w hc).1, hv.trans (hok a w hc).2⟩, fun e w hc ↦ hv.trans (herror e w hc)⟩

theorem Balances.keeps (h : Balances R c) (hu : Traced around u) :
    Spec (Balanced around u) c (fun _ ↦ Balanced around u) (Balanced around u) :=
  (h.spec hu).imp (fun _ hv ↦ hv) fun _ _ hv ↦ hv.2

theorem Traced.spec_beginSpan (hu : Traced around u) (scope : Trace.Scope) (name : String)
    {E : CompilationUnit → Prop} : Spec (· = u) (beginSpan scope name) (fun span v ↦ span = u.openSpan scope name [] ∧
    v = u.opening scope name u.spans) E := by
  refine .of_run (fun _ ↦ rfl) fun v hv ↦ ?_
  subst hv
  refine ⟨?_, rfl⟩
  rw [hu.openSpan]
  exact congrArg (·.2) (Trace.Span.begin_on hu.on scope name _)

theorem Traced.attr (hu : Traced around u) (attrs : List (String × String)) (key value : String) :
    (u.openSpan scope name attrs).attr key value = u.openSpan scope name (attrs ++ [(key, value)]) := by
  rw [hu.openSpan, hu.openSpan]
  rfl

theorem balances_lowerTraced (hsite : ∀ around u, Traced around u →
    Supports (Balanced around u) (Balanced around u) site)
    (number : Nat) (sp : Bytecode.Span) {s : Stage} (hs : s.fn = fn) : Balances (fun p ↦ p.2.fn = fn)
    (lowerTraced number sp site s) := by
  intro around u hu
  have hopen : Traced ((u.tracing.spans + 1) :: around) (u.opening .block (offsetLabel sp.start) u.spans) :=
    hu.opening fun i hi ↦ .inr (hu.known i hi)
  have hsupports := hsite _ _ hopen
  have hblock : SafeAt (Balanced ((u.tracing.spans + 1) :: around) (u.opening .block (offsetLabel sp.start) u.spans))
    (Balanced ((u.tracing.spans + 1) :: around) (u.opening .block (offsetLabel sp.start) u.spans)) fn site
    (lowerBlock number sp) :=
    safe_lowerBlock number sp
  have hended : ∀ {v}, Balanced ((u.tracing.spans + 1) :: around) (u.opening .block (offsetLabel sp.start) u.spans) v →
      ∀ attrs detail failed, Balanced around u
        { v with tracing := ((u.openSpan .block (offsetLabel sp.start) attrs).finish v.tracing detail failed).1 } := by
    intro v hv attrs detail failed
    have h := hv.ended hu attrs detail failed
    exact h.balanced.same ⟨rfl, rfl, rfl, h.spans⟩
  refine (hu.spec_beginSpan _ _).bind fun span ↦ .of_and ?_
  rintro rfl
  refine Spec.bind (((hblock s hs).failing fun hv ↦ hended hv [] _ _).imp ?_ fun _ _ hv ↦ hv) fun out ↦
    .of_and fun hout ↦ ?_
  · rintro _ rfl
    exact .refl _ _
  rw [hu.attr]
  exact Spec.bind (Q := fun _ ↦ Balanced around u) (.modify fun v hv ↦ hended hv _ _ _) fun _ ↦
    .pure fun _ hv ↦ ⟨hout, hv⟩

theorem balances_lowerBody (hcompile : ∀ m, Balances (fun _ ↦ True) (compile m)) (hu : Traced around u) (body : Body)
    (args : List Ty) (F : Function) : Spec (Balanced around u) (lowerBody world compile m body args F)
      (fun _ ↦ Balanced around u) (Balanced around u) := by
  refine spec_lowerBodyWith (fun _ hv ↦ hv) rfl (Typeless.spec_compileType _)
    (fun _ _ _ _ ↦ safe_append fun _ hv ↦ hv.same ⟨rfl, rfl, rfl, rfl⟩) (fun _ hv ↦ hv.same ⟨rfl, rfl, rfl, rfl⟩)
    (fun _ _ hv ↦ hv.same ⟨rfl, rfl, rfl, rfl⟩) fun site _ hsite number sp s hs ↦ ?_
  refine (balances_lowerTraced (fun around u hu ↦ ?_) number sp hs).spec hu
  exact ⟨Typeless.spec_compileType _, fun id m _ ↦ by rw [hsite]; exact (hcompile m).keeps hu⟩

theorem spec_verify_ended (hu : Traced around u) (f : FuncId) :
    Spec (Balanced ((u.tracing.spans + 1) :: around) (u.opening scope name spans))
    (verify m f (u.openSpan scope name []))
      (fun _ ↦ Balanced ((u.tracing.spans + 1) :: around) (u.opening scope name spans)) (Ended around u spans) := by
  refine .of_get fun v ↦ .forget fun _ ↦ ?_
  split
  · exact .pure fun _ hv ↦ hv
  · refine Spec.bind (Q := fun _ ↦ Ended around u spans) (.modify fun _ hv ↦ hv.ended hu _ _ _) fun _ ↦ ?_
    refine Spec.bind (Q := fun _ ↦ Ended around u spans) (.modify fun v hv ↦ ?_) fun _ ↦ .throw fun _ hv ↦ hv
    exact ⟨hv.spans, hv.balanced.same ⟨rfl, rfl, rfl, rfl⟩⟩

theorem Traced.noted (hu : Traced around u) (changes : List (Passes.Pass × Bool)) (attrs : List (String × String)) :
    ∃ attrs', changes.foldl (fun span (p, changed) ↦ if changed then span.attr p.name "changed" else span)
    (u.openSpan scope name attrs) =
      u.openSpan scope name attrs' := by
  induction changes generalizing attrs with
  | nil => exact ⟨attrs, rfl⟩
  | cons p changes ih =>
    obtain ⟨p, changed⟩ := p
    rw [List.foldl_cons]
    cases changed with
    | false => exact ih attrs
    | true =>
      obtain ⟨attrs', h⟩ := ih (attrs ++ [(p.name, "changed")])
      rw [← hu.attr] at h
      exact ⟨attrs', h⟩

theorem Traced.spec_optimise (hu : Traced around u) (f : FuncId) (attrs : List (String × String))
    {J E : CompilationUnit → Prop} (hJ : ∀ {v v'}, J v → SameSpans v v' → J v') :
    Spec J (optimise f (u.openSpan scope name attrs))
      (fun span v ↦ (∃ attrs, span = u.openSpan scope name attrs) ∧ J v) E := by
  refine .of_get fun v ↦ .forget fun hv ↦ ?_
  split
  · exact .pure fun _ hv ↦ ⟨⟨attrs, rfl⟩, hv⟩
  · exact Spec.bind (Q := fun _ ↦ J) (.set fun _ _ ↦ hJ hv ⟨rfl, rfl, rfl, rfl⟩) fun _ ↦ .pure fun _ hv ↦
      ⟨hu.noted _ _, hv⟩

theorem balances_buildBody (hcompile : ∀ m, Balances (fun _ ↦ True) (compile m)) (hu : Traced around u) (body : Body)
    (args : List Ty) {f : FuncId} (hf : (u.module.function? f).isSome) : Spec (· = u)
    (buildBody world compile m body args f)
      (fun _ ↦ Balanced around u) (Balanced around u) := by
  have hinner : Traced ((u.tracing.spans + 1) :: around)
    (u.opening .method m.text ((u.tracing.spans + 1) :: u.spans)) :=
    hu.opening fun i hi ↦ (List.mem_cons.mp hi).imp_right (hu.known i)
  refine (hu.spec_beginSpan _ _).bind fun span ↦ .of_and ?_
  rintro rfl
  have hout : ∀ v, Ended around u ((u.tracing.spans + 1) :: u.spans) v →
      Balanced around u { v with spans := v.spans.tail } := by
    intro v hv
    rw [hv.spans]
    exact hv.balanced
  refine Spec.inside (show Spec (· = u.opening .method m.text ((u.tracing.spans + 1) :: u.spans)) _
    (fun _ ↦ Ended around u ((u.tracing.spans + 1) :: u.spans))
    (Ended around u ((u.tracing.spans + 1) :: u.spans)) from ?_)
    ?_ (fun _ ↦ hout) hout
  · refine .of_get fun v ↦ ?_
    split
    · rename_i hnone
      refine .pure fun w hw ↦ ?_
      obtain ⟨rfl, rfl⟩ := hw
      rw [show (u.opening .method m.text _).module.function? f = u.module.function? f from rfl] at hnone
      rw [hnone] at hf
      cases hf
    · rename_i F _
      have hlower : Spec _ (lowerBody world compile m body args F) _ _ := balances_lowerBody hcompile hinner body args F
      refine Spec.bind ((hlower.failing fun hv ↦ hv.ended hu _ _ _).imp ?_ fun _ _ hv ↦ hv) fun count ↦ ?_
      · rintro w ⟨rfl, rfl⟩
        exact .refl _ _
      refine (spec_verify_ended hu f).bind fun _ ↦ .of_get fun v' ↦ .forget fun _ ↦ ?_
      have hend : ∀ attrs,
        Spec (Balanced ((u.tracing.spans + 1) :: around) (u.opening .method m.text ((u.tracing.spans + 1) :: u.spans)))
          (endSpan ((u.openSpan .method m.text attrs).attr "blocks" (toString count)) "ok" false)
          (fun _ ↦ Ended around u ((u.tracing.spans + 1) :: u.spans))
            (Ended around u ((u.tracing.spans + 1) :: u.spans)) := by
        intro attrs
        rw [hu.attr]
        exact .modify fun _ hv ↦ hv.ended hu _ _ _
      dsimp only
      split
      · refine (hu.spec_optimise f [] fun hv hs ↦ hv.same hs).bind fun span ↦ .of_and ?_
        rintro ⟨attrs, rfl⟩
        exact hend attrs
      · refine Spec.bind (Q := fun span v ↦ span = u.openSpan .method m.text [] ∧ Balanced _ _ v)
          (.pure fun _ hv ↦ ⟨rfl, hv⟩) fun span ↦ .of_and ?_
        rintro rfl
        exact hend []
  · rintro _ rfl
    rw [hu.openSpan]
    rfl

theorem spec_register_found (sig : Ssa.Ty) : Spec (Balanced around u) (register m sig)
    (fun f v ↦ (v.module.function? f).isSome ∧ Balanced around u v) (Balanced around u) := by
  refine .of_get fun v ↦ .forget fun hv ↦ ?_
  dsimp only
  split
  · exact .throw fun _ hv ↦ hv
  · rename_i module f hadd
    have hfound : (module.function? f).isSome := by
      unfold Ssa.Module.addFunction at hadd
      split at hadd
      · split at hadd
        · cases hadd
        · cases hadd
          simp [Ssa.Module.function?]
      · cases hadd
    exact Spec.bind (Q := fun _ w ↦ (w.module.function? f).isSome ∧ Balanced around u w)
      (.set fun _ _ ↦ ⟨hfound, hv.same ⟨rfl, rfl, rfl, rfl⟩⟩) fun _ ↦ .pure fun _ hw ↦ hw

/-- Compiling a method, and whatever methods that needs, ends the spans that it begins. -/
theorem balances_compileMethod (world : Universe) (fuel : Nat) (m : Method) :
    Balances (fun _ ↦ True) (compileMethod world fuel m) := by
  induction fuel generalizing m with
  | zero =>
    refine fun around u hu ↦ .throw ?_
    rintro _ rfl
    exact .refl _ _
  | succ fuel ih =>
    intro around u hu
    suffices h : Spec (Balanced around u) (compileMethod world (fuel + 1) m) (fun _ v ↦ True ∧ Balanced around u v)
      (Balanced around u) by
      refine h.imp ?_ fun _ _ hv ↦ hv
      rintro _ rfl
      exact .refl _ _
    rw [compileMethod]
    refine .of_get fun v ↦ .forget fun _ ↦ ?_
    split
    · exact .pure fun _ hv ↦ ⟨trivial, hv⟩
    refine (Typeless.spec_argumentTypes m).bind fun args ↦ (Typeless.spec_signature m args).bind fun sig ↦
      (spec_register_found sig).bind fun f ↦ ?_
    split
    · exact .pure fun _ hv ↦ ⟨trivial, hv.2⟩
    · rename_i body _
      refine Spec.bind (Q := fun _ ↦ Balanced around u) ?_ fun _ ↦ .pure fun _ hv ↦ ⟨trivial, hv⟩
      rintro v ⟨hf, hv⟩
      have hbuild : Spec _ (buildBody world (compileMethod world fuel) m body args f) _ _ :=
        balances_buildBody ih (hv.traced hu) body args hf
      obtain ⟨hok, herror⟩ := hbuild v rfl
      exact ⟨fun a w hc ↦ hv.trans (hok a w hc), fun e w hc ↦ hv.trans (herror e w hc)⟩

theorem Balanced.rollBack (h : Balanced around u v) : Balanced around u v.rollBack := by
  refine rollBack_induction h (fun w k hw ↦ ?_) (fun w t hw ↦ ?_) fun w hw ↦ hw.same ⟨rfl, rfl, rfl, rfl⟩
  · unfold CompilationUnit.forgetMethod
    split
    · exact hw
    · exact hw.same ⟨rfl, rfl, rfl, rfl⟩
  · unfold CompilationUnit.forgetType
    split
    · exact hw
    · exact hw.same ⟨rfl, rfl, rfl, rfl⟩

theorem Balances.request (h : Balances R c) (hu : Traced around u) : Balanced around u (request c u).2 := by
  have hstart : Balanced around u { u with journal := {} } := (Balanced.refl around u).same ⟨rfl, rfl, rfl, rfl⟩
  obtain ⟨hok, herror⟩ := h.spec hu _ hstart
  unfold Lowering.request
  split
  · exact .refl around u
  · split
    · rename_i a v hrun
      exact (hok a v hrun).2.same ⟨rfl, rfl, rfl, rfl⟩
    · rename_i e v hrun
      exact (herror e v hrun).rollBack

/-- Spans are balanced, whatever becomes of a request for a method. What happens is that spans are begun and ended, each
one within those that are open then; each span belongs to one that is open, or to the parent that the unit was given.
Every span is begun once and ended once, the unit has as many open spans as before, and so has its record of them. A
tracer at the finest level is handed all the events. -/
theorem getMethod_balanced (world : Universe) (m : Method) {u : CompilationUnit} (h : u.tracing.isOn u.tracer = true) :
    let v := (getMethod world m u).2
    ∃ es, Nested u.traceParent u.spans u.tracing.spans es v.tracing.spans ∧
      (es.filter (·.kind = .begin)).map (·.span) = List.range' (u.tracing.spans + 1)
      (v.tracing.spans - u.tracing.spans) ∧ ((es.filter (·.kind = .finish)).map (·.span)).Perm
      ((es.filter (·.kind = .begin)).map (·.span)) ∧
      v.tracing = es.foldl (Tracing.record u.tracer) u.tracing ∧ v.tracing.openSpans = u.tracing.openSpans ∧
      v.spans = u.spans ∧ (u.tracing.level u.tracer = .debug → v.tracing =
        { es.foldl (fun s e ↦ s.emitNext u.tracer e) u.tracing with
          spans := v.tracing.spans, openSpans := v.tracing.openSpans }) := by
  intro v
  have hu : Traced u.spans u := ⟨h, fun _ hi ↦ hi⟩
  have hv : Balanced u.spans u v := (balances_compileMethod world _ m).request hu
  obtain ⟨es, hnested, htracing⟩ := hv.nested
  refine ⟨es, hnested, hnested.begun.2, hnested.ended, htracing, ?_, hv.spans, fun hdebug ↦ ?_⟩
  · rw [htracing]
    exact (hnested.counts u.tracer rfl).2
  · obtain ⟨spans, openSpans, hes⟩ := Tracing.foldl_record_debug hdebug es
    rw [htracing, hes]

def poppingMethod : Method :=
  { id := .defined ⟨0, ""⟩ 0, name := "Pop", owner := none, params := [], ret := .void, isStatic := true,
    isCtor := false, body := some ⟨1, [], [0x26, 0x2A]⟩, token := ⟨0x06000001⟩, scope := ⟨0, ""⟩ }

/-- A unit with a ring for everything that happens, under a span with the number 7. -/
def ringUnit : CompilationUnit :=
  { CompilationUnit.create "" {} false (.ofRequest 0 0 0) with
    tracing := (Tracing.addRing {} 8 .debug).1, tracer := (Tracing.addRing {} 8 .debug).2, traceParent := 7 }

theorem getMethod_balanced_popping : ringUnit.tracing.isOn ringUnit.tracer = true ∧
    ∃ es, Nested 7 [] 0 es (getMethod {} poppingMethod ringUnit).2.tracing.spans ∧
      (getMethod {} poppingMethod ringUnit).2.tracing.openSpans = 0 ∧
      (getMethod {} poppingMethod ringUnit).2.spans = [] ∧
      (getMethod {} poppingMethod ringUnit).2.tracing = { es.foldl (fun s e ↦ s.emitNext ⟨1⟩ e) ringUnit.tracing with
        spans := (getMethod {} poppingMethod ringUnit).2.tracing.spans
        openSpans := (getMethod {} poppingMethod ringUnit).2.tracing.openSpans } := by
  have hon : ringUnit.tracing.isOn ringUnit.tracer = true := rfl
  obtain ⟨es, hnested, -, -, -, hopen, hspans, hdebug⟩ := getMethod_balanced {} poppingMethod hon
  exact ⟨hon, es, hnested, hopen, hspans, hdebug rfl⟩

end

end CilSsa.Lowering

