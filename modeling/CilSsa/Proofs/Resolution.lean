import CilSsa.Metadata.Resolver
import Mathlib.Data.List.Basic

/-! The caller's own module comes first among the questions as written, but the other modules are asked as written
before it is asked again with type arguments. -/

namespace CilSsa.Metadata

abbrev TokenUse.Answer : TokenUse → Type
  | .type => Ty
  | .method => MethodId
  | .field => Field

/-- The entry of one module under a token, with type arguments put in. An entry may name nothing. -/
def Universe.entry (u : Universe) (use : TokenUse) (t : Token) (m : ModuleRef) (args : Option (List Ty)) :
    Except LookupError (Option use.Answer) :=
  match use with
  | .type => (u.resolveType m t args).map fun found ↦ if found = .missing then none else some found
  | .method => (u.resolveMethod m t args).map fun found ↦ some found.id
  | .field => (u.resolveField m t args).map some

def named {α : Type} : Except LookupError (Option α) → Option α
  | .ok found => found
  | .error _ => none

@[simp] theorem named_ok {α : Type} (found : Option α) : named (.ok found) = found := by rfl

@[simp] theorem named_error {α : Type} (e : LookupError) : named (.error e : Except _ (Option α)) = none := rfl

theorem named_eq_some {α : Type} {x : Except LookupError (Option α)} {a : α} :
    named x = some a ↔ x = .ok (some a) := by
  cases x <;> simp

namespace Resolver

def remembered (r : Resolver) (use : TokenUse) (k : ModuleRef × Token) : Option use.Answer :=
  match use with
  | .type => r.types[k]?
  | .method => r.methods[k]?
  | .field => r.fields[k]?

def resolve (r : Resolver) (u : Universe) (use : TokenUse) (caller : Option Method) (t : Token) :
    Except ResolutionError use.Answer × Resolver × List Attempt :=
  match use with
  | .type => r.resolveType u caller t
  | .method => r.resolveMethod u caller t
  | .field => r.resolveField u caller t

/-- The resolvers that questions about a universe lead to. -/
inductive Reachable (u : Universe) : Resolver → Prop
  | start (home : List ModuleRef) : Reachable u (ofModules home)
  | resolve {r : Resolver} (use : TokenUse) (caller : Option Method) (t : Token) :
      Reachable u r → Reachable u (r.resolve u use caller t).2.1

section

variable (u : Universe) (use : TokenUse) (t : Token)

def firstOf (ms : List ModuleRef) (args : Option (List Ty)) : Option use.Answer :=
  ms.findSome? fun m ↦ named (u.entry use t m args)

def others (r : Resolver) (m : ModuleRef) : List ModuleRef := r.known.filter (· ≠ m)

/-- The answer without type arguments: that of `m`, or else that of the first other module that has one. -/
def plainAnswer (r : Resolver) (m : ModuleRef) : Option use.Answer :=
  firstOf u use t (m :: r.others m) none

def retryAnswer (r : Resolver) (c : Method) : Option use.Answer :=
  match c.owner with
  | some owner => if owner.isGeneric then firstOf u use t (c.scope :: r.others c.scope)
    (some owner.genericArgs) else none
  | none => none

end

theorem firstAnswer_toOption {α : Type} (ask : ModuleRef → Option (List Ty) → Except LookupError (Option α))
    (l : List Attempt) :
    (firstAnswer ask l).1.toOption = l.findSome? fun p ↦ named (ask p.1 p.2) := by
  induction l with
  | nil => rfl
  | cons p l ih =>
    obtain ⟨m, args⟩ := p
    simp only [firstAnswer, List.findSome?_cons]
    cases h : ask m args with
    | error e =>
      simp only [named_error]
      rw [← ih]
      cases (firstAnswer ask l).1 <;> rfl
    | ok found =>
      cases found with
      | none => simpa only [named_ok] using ih
      | some a => rfl

variable {u : Universe} {r : Resolver} {use : TokenUse} {c : Method} {t : Token}

theorem attempts_plain :
    (firstAnswer (u.entry use t) (r.attempts c).1).1.toOption = r.plainAnswer u use t c.scope := by
  rw [firstAnswer_toOption, plainAnswer, firstOf, attempts, List.findSome?_map]
  rfl

theorem attempts_retried :
    (firstAnswer (u.entry use t) (r.attempts c).2).1.toOption = r.retryAnswer u use t c := by
  rw [firstAnswer_toOption, retryAnswer, attempts]
  cases c.owner with
  | none => rfl
  | some owner =>
    by_cases hg : owner.isGeneric
    · simp only [hg, if_true, firstOf, List.findSome?_map]
      rfl
    · simp only [hg]
      rfl

theorem run_answer (rem : ModuleRef × Token → Option use.Answer) :
    (r.run use (some c) t rem (u.entry use t)).answer.toOption =
      ((rem (c.scope, t)).or (r.plainAnswer u use t c.scope)).or (r.retryAnswer u use t c) := by
  rw [← attempts_plain, ← attempts_retried, run]
  cases rem (c.scope, t) with
  | some a => rfl
  | none =>
    dsimp only
    rcases firstAnswer (u.entry use t) (r.attempts c).1 with ⟨_ | a, asked⟩
    · rcases firstAnswer (u.entry use t) (r.attempts c).2 with ⟨_ | a, again⟩ <;> rfl
    · rfl

theorem run_remember (rem : ModuleRef × Token → Option use.Answer)
    (h : (r.run use (some c) t rem (u.entry use t)).remember = true) :
    (r.run use (some c) t rem (u.entry use t)).answer.toOption = r.plainAnswer u use t c.scope := by
  rw [← attempts_plain]
  revert h
  rw [run]
  cases rem (c.scope, t) with
  | some a => simp
  | none =>
    dsimp only
    rcases firstAnswer (u.entry use t) (r.attempts c).1 with ⟨_ | a, asked⟩
    · rcases firstAnswer (u.entry use t) (r.attempts c).2 with ⟨_ | a, again⟩ <;> simp
    · exact fun _ ↦ rfl

theorem conclude_answer {α : Type} (caller : Option Method) (o : Outcome α)
    (keep : Resolver → ModuleRef × Token → α → Resolver) : (r.conclude caller t o keep).1 = o.answer := by
  unfold conclude
  cases o.answer <;> cases caller <;> rfl

def keep (use : TokenUse) (r : Resolver) (k : ModuleRef × Token) (a : use.Answer) : Resolver :=
  match use, a with
  | .type, a => { r with types := r.types.insert k a }
  | .method, a => { r with methods := r.methods.insert k a }
  | .field, a => { r with fields := r.fields.insert k a }

theorem resolve_eq (caller : Option Method) :
    r.resolve u use caller t =
      r.conclude caller t (r.run use caller t (r.remembered use) (u.entry use t)) (keep use) := by
  cases use <;> rfl

theorem known_keep (k : ModuleRef × Token) (a : use.Answer) : (keep use r k a).known = r.known := by
  cases use <;> rfl

theorem remembered_learn (m : ModuleRef) : (r.learn m).remembered use = r.remembered use := by
  unfold learn
  split <;> cases use <;> rfl

/-- What is remembered is what the known modules answer without type arguments. -/
def Faithful (u : Universe) (r : Resolver) : Prop :=
  ∀ (use : TokenUse) (k : ModuleRef × Token) (a : use.Answer),
    r.remembered use k = some a → r.plainAnswer u use k.2 k.1 = some a

theorem plainAnswer_congr {r r' : Resolver} (h : r'.known = r.known) (m : ModuleRef) :
    r'.plainAnswer u use t m = r.plainAnswer u use t m := by
  rw [plainAnswer, plainAnswer, others, others, h]

theorem plainAnswer_learn {m : ModuleRef} {a : use.Answer} (h : r.plainAnswer u use t m = some a) (n : ModuleRef) :
    (r.learn n).plainAnswer u use t m = some a := by
  unfold learn
  split
  · exact h
  · simp only [plainAnswer, firstOf, others, List.filter_append] at h ⊢
    rw [← List.cons_append, List.findSome?_append, h]
    rfl

theorem Faithful.learn (h : r.Faithful u) (m : ModuleRef) : (r.learn m).Faithful u := by
  intro use k a hk
  rw [remembered_learn] at hk
  exact plainAnswer_learn (h use k a hk) m

theorem Faithful.keep (h : r.Faithful u) {k : ModuleRef × Token} {a : use.Answer}
    (ha : r.plainAnswer u use k.2 k.1 = some a) : (keep use r k a).Faithful u := by
  intro use' k' b hb
  rw [plainAnswer_congr (known_keep k a)]
  by_cases hu : use = use'
  · subst hu
    by_cases hk : k = k'
    · subst hk
      have hab : some a = some b := by
        rw [← hb]
        cases use <;> simp [Resolver.keep, remembered]
      rw [ha, hab]
    · apply h use k' b
      rw [← hb]
      cases use <;> simp [Resolver.keep, remembered, Std.HashMap.getElem?_insert, hk]
  · apply h use' k' b
    rw [← hb]
    cases use <;> cases use' <;> first | exact absurd rfl hu | rfl

theorem Faithful.stats (h : r.Faithful u) (stats : ResolverStats) :
    ({ r with stats := stats } : Resolver).Faithful u := by
  intro use k a hk
  refine (plainAnswer_congr rfl k.1).trans (h use k a ?_)
  rw [← hk]
  cases use <;> rfl

theorem Faithful.resolve (h : r.Faithful u) (use : TokenUse) (caller : Option Method) (t : Token) :
    (r.resolve u use caller t).2.1.Faithful u := by
  rw [resolve_eq]
  unfold conclude
  cases caller with
  | none => cases (r.run use none t (r.remembered use) (u.entry use t)).answer <;> exact h.stats _
  | some c =>
    cases ha : (r.run use (some c) t (r.remembered use) (u.entry use t)).answer with
    | error e => exact h.stats _
    | ok a =>
      dsimp only
      split
      · rename_i hr
        refine ((h.stats _).keep ?_).learn c.scope
        have hp := run_remember _ hr
        rw [ha] at hp
        exact (plainAnswer_congr rfl c.scope).trans hp.symm
      · exact h.stats _

theorem Reachable.faithful (h : r.Reachable u) : r.Faithful u := by
  induction h with
  | start home =>
    have key : ∀ (ms : List ModuleRef) (r : Resolver), r.Faithful u → (ms.foldl learn r).Faithful u := by
      intro ms
      induction ms with
      | nil => exact fun _ h ↦ h
      | cons m ms ih => exact fun r h ↦ ih _ (h.learn m)
    apply key
    intro use k a hk
    cases use <;> simp [remembered] at hk
  | resolve use caller t _ ih => exact ih.resolve use caller t

theorem Reachable.answer (h : r.Reachable u) (use : TokenUse) (c : Method) (t : Token) :
    (r.resolve u use (some c) t).1.toOption =
      (r.plainAnswer u use t c.scope).or (r.retryAnswer u use t c) := by
  rw [resolve_eq, conclude_answer, run_answer]
  cases hk : r.remembered use (c.scope, t) with
  | none => rfl
  | some a => rw [h.faithful use _ a hk]; rfl

theorem plainAnswer_eq (m : ModuleRef) :
    r.plainAnswer u use t m = (named (u.entry use t m none)).or (firstOf u use t (r.others m) none) := by
  rw [plainAnswer, firstOf, List.findSome?_cons]
  cases named (u.entry use t m none) <;> rfl

theorem retryAnswer_eq {owner : Ty} (ho : c.owner = some owner) (hg : owner.isGeneric = true) :
    r.retryAnswer u use t c = (named (u.entry use t c.scope (some owner.genericArgs))).or
      (firstOf u use t (r.others c.scope) (some owner.genericArgs)) := by
  simp only [retryAnswer, ho, hg, if_true, firstOf, List.findSome?_cons]
  cases named (u.entry use t c.scope (some owner.genericArgs)) <;> rfl

/-- The caller's own entry answers a token as it is written. Where it is refused as it is written, and the caller's type
is generic, the answer is that of the own entry with the type arguments exactly if no other known module answers the
token as it is written, unless by the same answer, and none answers it with the type arguments in place of an own
entry that does not. What is remembered was found without type arguments. -/
theorem resolve_own_entry (h : r.Reachable u) (use : TokenUse) (c : Method) (t : Token) :
    (∀ a, u.entry use t c.scope none = .ok (some a) → (r.resolve u use (some c) t).1 = .ok a) ∧
    (∀ e owner, u.entry use t c.scope none = .error e → c.owner = some owner → owner.isGeneric = true →
      ((r.resolve u use (some c) t).1.toOption = named (u.entry use t c.scope (some owner.genericArgs)) ↔
        (∀ b, firstOf u use t (r.others c.scope) none = some b →
          u.entry use t c.scope (some owner.genericArgs) = .ok (some b)) ∧
        (named (u.entry use t c.scope (some owner.genericArgs)) = none →
          firstOf u use t (r.others c.scope) (some owner.genericArgs) = none))) ∧
    (∀ a, r.remembered use (c.scope, t) = some a →
      ∃ m, (m = c.scope ∨ m ∈ r.known) ∧ u.entry use t m none = .ok (some a)) := by
  refine ⟨?_, ?_, ?_⟩
  · intro a ha
    have hr := h.answer use c t
    rw [plainAnswer_eq, ha] at hr
    cases hres : (r.resolve u use (some c) t).1 with
    | error e => simp [hres, Except.toOption] at hr
    | ok b => simpa [hres, Except.toOption] using hr
  · intro e owner he ho hg
    rw [h.answer use c t, plainAnswer_eq, retryAnswer_eq ho hg, he, named_error, Option.none_or]
    simp only [← named_eq_some]
    cases firstOf u use t (r.others c.scope) none with
    | some b =>
      simp only [Option.some_or, Option.some.injEq, forall_eq', eq_comm]
      exact ⟨fun hb ↦ ⟨hb, fun hn ↦ nomatch hb.trans hn.symm⟩, And.left⟩
    | none => cases named (u.entry use t c.scope (some owner.genericArgs)) <;> simp
  · intro a ha
    have hp := h.faithful use _ a ha
    obtain ⟨m, hm, hma⟩ := List.exists_of_findSome?_eq_some hp
    refine ⟨m, ?_, named_eq_some.mp hma⟩
    rcases List.mem_cons.mp hm with hm | hm
    · exact .inl hm
    · exact .inr (List.mem_filter.mp hm).1

/-- Two modules, each with one entry for a type; that of the first is a type parameter. -/
def parameterAnd (second : Ty) : Universe where
  modules := #[{ ref := ⟨0, "A"⟩, specs := #[.param 0] }, { ref := ⟨1, "B"⟩, specs := #[second] }]

/-- A method of the first module, of a generic type with the argument `int64`. -/
def boxMethod : Method where
  id := .defined ⟨0, "A"⟩ 0
  name := "Get"
  owner := some (.inst (.defined ⟨⟨0, "A"⟩, 0, "", "Box", .valueType, 1⟩) [.prim .int64])
  params := []
  ret := .prim .int64
  isStatic := false
  isCtor := false
  body := none
  token := .make .method 1
  scope := ⟨0, "A"⟩

theorem resolve_own_entry_parameter :
    ((ofModules [⟨0, "A"⟩, ⟨1, "B"⟩]).resolve (parameterAnd (.param 0)) .type (some boxMethod)
      (.make .typeSpec 1)).1.toOption = some (.prim .int64) :=
  ((resolve_own_entry (.start [⟨0, "A"⟩, ⟨1, "B"⟩]) .type boxMethod (.make .typeSpec 1)).2.1
    (.openSpec (.make .typeSpec 1) "A") (.inst (.defined ⟨⟨0, "A"⟩, 0, "", "Box", .valueType, 1⟩) [.prim .int64])
    rfl rfl rfl).mpr ⟨fun _ hb ↦ (nomatch (show none = some _ from hb)), fun hn ↦ nomatch hn⟩

/-- The entry of another module wins over the own entry, which is a type parameter. -/
theorem resolve_own_entry_overruled :
    ((ofModules [⟨0, "A"⟩, ⟨1, "B"⟩]).resolve (parameterAnd (.prim .int32)) .type (some boxMethod)
      (.make .typeSpec 1)).1.toOption = some (.prim .int32) ∧
    (parameterAnd (.prim .int32)).resolveType ⟨0, "A"⟩ (.make .typeSpec 1) (some [.prim .int64]) =
    .ok (.prim .int64) := by
  refine ⟨?_, rfl⟩
  rw [Reachable.answer (.start _)]
  rfl

section sharing

theorem known_resolve {caller : Option Method} (h : ∀ c, caller = some c → c.scope ∈ r.known) :
    (r.resolve u use caller t).2.1.known = r.known := by
  rw [resolve_eq]
  unfold conclude
  cases caller with
  | none => cases (r.run use none t (r.remembered use) (u.entry use t)).answer <;> rfl
  | some c =>
    have hc : r.known.contains c.scope = true := List.contains_iff_mem.mpr (h c rfl)
    cases (r.run use (some c) t (r.remembered use) (u.entry use t)).answer with
    | error e => rfl
    | ok a =>
      dsimp only
      split
      · rw [learn, known_keep, if_pos hc, known_keep]
      · rfl

theorem Faithful.run_again (h : r.Faithful u) (caller : Option Method) :
    (r.run use caller t (r.remembered use) (u.entry use t)).answer =
      (r.run use caller t (fun _ ↦ none) (u.entry use t)).answer := by
  cases caller with
  | none => rfl
  | some c =>
    cases hk : r.remembered use (c.scope, t) with
    | none => simp only [run, hk]
    | some a =>
      have hp : (firstAnswer (u.entry use t) (r.attempts c).1).1.toOption = some a := by
        rw [attempts_plain]
        exact h use _ a hk
      simp only [run, hk]
      rcases hfirst : firstAnswer (u.entry use t) (r.attempts c).1 with ⟨e | b, asked⟩
      · simp [hfirst, Except.toOption] at hp
      · rw [hfirst] at hp
        exact congrArg _ (Option.some.inj hp).symm

theorem run_congr {r r' : Resolver} (h : r'.known = r.known) (caller : Option Method) :
    (r'.run use caller t (fun _ ↦ none) (u.entry use t)).answer =
      (r.run use caller t (fun _ ↦ none) (u.entry use t)).answer := by
  cases caller with
  | none => rfl
  | some c =>
    have ha : r'.attempts c = r.attempts c := by simp only [attempts, scopes, h]
    simp only [run, ha]
    rcases firstAnswer (u.entry use t) (r.attempts c).1 with ⟨e | a, asked⟩
    · rcases firstAnswer (u.entry use t) (r.attempts c).2 with ⟨e' | a, again⟩ <;> rfl
    · rfl

theorem Faithful.resolve_congr {r r' : Resolver} (h : r.Faithful u) (h' : r'.Faithful u) (hk : r'.known = r.known)
    (caller : Option Method) : (r'.resolve u use caller t).1 = (r.resolve u use caller t).1 := by
  rw [resolve_eq, resolve_eq, conclude_answer, conclude_answer, h.run_again, h'.run_again, run_congr hk]

theorem mem_known_learn {m n : ModuleRef} (h : m = n ∨ m ∈ r.known) : m ∈ (r.learn n).known := by
  unfold learn
  split
  · rename_i hn
    rcases h with rfl | h
    · exact List.contains_iff_mem.mp hn
    · exact h
  · rcases h with rfl | h
    · exact List.mem_append_right _ List.mem_cons_self
    · exact List.mem_append_left _ h

theorem mem_known_foldl (ms : List ModuleRef) {m : ModuleRef} :
    ∀ r : Resolver, m ∈ ms ∨ m ∈ r.known → m ∈ (ms.foldl learn r).known := by
  induction ms with
  | nil => exact fun r h ↦ h.resolve_left List.not_mem_nil
  | cons n ms ih =>
    intro r h
    refine ih (r.learn n) ?_
    rw [List.mem_cons, or_assoc] at h
    rcases h with h | h | h
    · exact .inr (mem_known_learn (.inl h))
    · exact .inl h
    · exact .inr (mem_known_learn (.inr h))

/-- A call by one of the units that share a resolver. -/
structure Call where
  unit : Nat
  use : TokenUse
  caller : Option Method
  token : Token

def Call.answer (u : Universe) (r : Resolver) (q : Call) : Except ResolutionError q.use.Answer :=
  (r.resolve u q.use q.caller q.token).1

/-- The answers to calls in the order in which they get through, each with its call. -/
def answers (u : Universe) : Resolver → List Call → List ((q : Call) × Except ResolutionError q.use.Answer)
  | _, [] => []
  | r, q :: qs => ⟨q, q.answer u r⟩ :: answers u (r.resolve u q.use q.caller q.token).2.1 qs

theorem Faithful.answers_eq {fresh : Resolver} (hfresh : fresh.Faithful u) (calls : List Call) :
    (∀ q ∈ calls, ∀ c, q.caller = some c → c.scope ∈ fresh.known) →
    ∀ r : Resolver, r.Faithful u → r.known = fresh.known →
      answers u r calls = calls.map fun q ↦ ⟨q, q.answer u fresh⟩ := by
  induction calls with
  | nil => exact fun _ _ _ _ ↦ rfl
  | cons q qs ih =>
    intro hcalls r hr hk
    have hscope : ∀ c, q.caller = some c → c.scope ∈ r.known := fun c hc ↦ hk ▸ hcalls q List.mem_cons_self c hc
    have hrest := ih (fun q hq ↦ hcalls q (List.mem_cons_of_mem _ hq)) _ (hr.resolve q.use q.caller q.token)
      ((known_resolve hscope).trans hk)
    have hfirst : q.answer u r = q.answer u fresh := hfresh.resolve_congr hr hk q.caller
    rw [answers, List.map_cons, hrest, hfirst]

def callerArgs (c : Method) : List Ty := (c.owner.map Ty.genericArgs).getD []

theorem retryAnswer_callerArgs : r.retryAnswer u use t c =
    if callerArgs c = [] then none else firstOf u use t (c.scope :: r.others c.scope) (some (callerArgs c)) := by
  unfold retryAnswer callerArgs
  cases c.owner with
  | none => rfl
  | some owner => simp [Ty.isGeneric]

/-- Whatever the order in which the calls of all units get through, each of them is answered as by a new resolver, so a
unit sees what it would see alone. The answer depends on the use, the caller's module, the type arguments of the
caller's type and the token. -/
theorem answers_shared (u : Universe) (home : List ModuleRef) (calls : List Call)
    (hhome : ∀ q ∈ calls, ∀ c, q.caller = some c → c.scope ∈ home) :
    answers u (ofModules home) calls = calls.map (fun q ↦ ⟨q, q.answer u (ofModules home)⟩) ∧
    (∀ n, (answers u (ofModules home) calls).filter (·.1.unit = n) =
      answers u (ofModules home) (calls.filter (·.unit = n))) ∧
    (∀ (use : TokenUse) (t : Token) (c c' : Method), c.scope = c'.scope → callerArgs c = callerArgs c' →
      ((ofModules home).resolve u use (some c) t).1.toOption =
      ((ofModules home).resolve u use (some c') t).1.toOption) := by
  have hfresh := Reachable.faithful (.start (u := u) home)
  have hall : ∀ qs : List Call, (∀ q ∈ qs, q ∈ calls) →
      answers u (ofModules home) qs = qs.map fun q ↦ ⟨q, q.answer u (ofModules home)⟩ := by
    intro qs hqs
    refine hfresh.answers_eq qs (fun q hq c hc ↦ ?_) _ hfresh rfl
    exact mem_known_foldl home {} (.inl (hhome q (hqs q hq) c hc))
  refine ⟨hall calls fun _ h ↦ h, fun n ↦ ?_, fun use t c c' hscope hargs ↦ ?_⟩
  · rw [hall calls fun _ h ↦ h, hall _ fun q hq ↦ (List.mem_filter.mp hq).1, List.filter_map]
    rfl
  · rw [Reachable.answer (.start home), Reachable.answer (.start home), retryAnswer_callerArgs, retryAnswer_callerArgs,
      hscope, hargs]

/-- A call from the module of `boxMethod` with type arguments, and one of another unit without. -/
def boxCalls : List Call :=
  [⟨0, .type, some boxMethod, .make .typeSpec 1⟩, ⟨1, .type, some { boxMethod with owner := none }, .make .typeSpec 1⟩]

theorem answers_shared_box :
    (answers (parameterAnd (.prim .int32)) (ofModules [⟨0, "A"⟩, ⟨1, "B"⟩]) boxCalls).filter (·.1.unit = 1) =
      answers (parameterAnd (.prim .int32)) (ofModules [⟨0, "A"⟩, ⟨1, "B"⟩])
        [⟨1, .type, some { boxMethod with owner := none }, .make .typeSpec 1⟩] := by
  refine (answers_shared (parameterAnd (.prim .int32)) [⟨0, "A"⟩, ⟨1, "B"⟩] boxCalls ?_).2.1 1
  intro q hq c hc
  rcases List.mem_pair.mp hq with rfl | rfl <;> cases hc <;> exact List.mem_cons_self

end sharing

end Resolver

end CilSsa.Metadata

