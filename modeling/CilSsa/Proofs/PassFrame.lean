import CilSsa.Passes.Pipeline

namespace CilSsa.Passes

open CilSsa.Ssa

/-- Two functions that differ only in their instructions. -/
structure SameHeading (f g : Function) : Prop where
  id : g.id = f.id
  name : g.name = f.name
  signature : g.signature = f.signature
  params : g.params = f.params
  blocks : g.blocks.size = f.blocks.size

namespace SameHeading

variable {f g h : Function}

theorem refl (f : Function) : SameHeading f f := ⟨rfl, rfl, rfl, rfl, rfl⟩

theorem trans (hg : SameHeading f g) (hh : SameHeading g h) : SameHeading f h :=
  ⟨hh.id.trans hg.id, hh.name.trans hg.name, hh.signature.trans hg.signature, hh.params.trans hg.params,
    hh.blocks.trans hg.blocks⟩

theorem isDeclaration (hg : SameHeading f g) : g.isDeclaration = f.isDeclaration := by
  simp only [Function.isDeclaration, Array.isEmpty, hg.blocks]

theorem removeFrom (f : Function) (b i : Nat) : SameHeading f (f.removeFrom b i) := by
  unfold Function.removeFrom
  split
  · exact ⟨rfl, rfl, rfl, rfl, Array.size_modify⟩
  · exact refl f

/-- A fold over functions, seen through `view`, of which each step keeps the heading. -/
theorem foldl {σ α : Type} (view : σ → Function) {step : σ → α → σ} {as : List α} {s : σ} (hs : SameHeading f (view s))
    (hstep : ∀ s a, SameHeading (view s) (view (step s a))) : SameHeading f (view (as.foldl step s)) := by
  induction as generalizing s with
  | nil => exact hs
  | cons a as ih => exact ih (hs.trans (hstep s a))

theorem replaceAllUses (f : Function) (old new : Value) : SameHeading f (f.replaceAllUses old new) := by
  unfold Function.replaceAllUses
  exact foldl (fun g ↦ g) (refl f) fun _ _ ↦ ⟨rfl, rfl, rfl, rfl, rfl⟩

theorem replaced (f : Function) (old new : Value) (b i : Nat) :
    SameHeading f ((f.replaceAllUses old new).removeFrom b i) :=
  (replaceAllUses f old new).trans (removeFrom _ b i)

end SameHeading

/-- A relation between a function and what passes make of it: it holds through everything that they do to code. -/
structure Covers (R : Function → Function → Prop) : Prop where
  refl : ∀ f, R f f
  trans : ∀ {f g h}, R f g → R g h → R f h
  removed : ∀ f b k, R f (f.removeFrom b k)
  exchanged : ∀ f k v, R f (f.replaceAllUses (f.result k) v)
  reassociated : ∀ f, R f (reassociate f).f

namespace Covers

variable {R : Function → Function → Prop} (hR : Covers R)

include hR

/-- A fold over functions, seen through `view`, of which each step is covered. -/
theorem foldl {σ α : Type} (view : σ → Function) {step : σ → α → σ} {as : List α} {s : σ} {f : Function}
    (hs : R f (view s)) (hstep : ∀ s a, R (view s) (view (step s a))) : R f (view (as.foldl step s)) := by
  induction as generalizing s with
  | nil => exact hs
  | cons a as ih => exact ih (hR.trans hs (hstep s a))

theorem remove (f : Function) (i : Nat) : R f (f.remove i) := by
  unfold Function.remove
  split
  · split
    · exact hR.removed f _ i
    · exact hR.refl f
  · exact hR.refl f

theorem replaced (f : Function) (j : Nat) (v : Value) (b k : Nat) :
    R f ((f.replaceAllUses (f.result j) v).removeFrom b k) :=
  hR.trans (hR.exchanged f j v) (hR.removed _ b k)

theorem forwardStep (known : Escapes) (b : Nat) (s : Forwarding) (k : Nat) : R s.f (forwardStep known b s k).f := by
  unfold Passes.forwardStep
  repeat' split
  all_goals first | exact hR.refl _ | exact hR.replaced ..

theorem forward (known : Escapes) (f : Function) : R f (forward known f).f := by
  unfold Passes.forward
  refine hR.foldl (fun c : Changing ↦ c.f) (hR.refl _) fun c p ↦ ?_
  exact hR.foldl (fun s : Forwarding ↦ s.f) (hR.refl _) (hR.forwardStep known p.2)

theorem dropSlot (before : Function) (b : Nat) (s : Changing × Escapes) (k : Nat) :
    R s.1.f (dropSlot before b s k).1.f := by
  unfold Passes.dropSlot
  dsimp only
  split
  · exact hR.refl _
  · split
    · refine hR.trans ?_ (hR.removed _ b k)
      exact hR.foldl (fun g : Function ↦ g) (hR.refl _) fun g p ↦ hR.remove g p.1
    · exact hR.refl _

theorem promote (known : Escapes) (f : Function) : R f (promote known f).1.f := by
  refine hR.trans (hR.forward known f) ?_
  unfold Passes.promote dropSlots
  refine hR.foldl (fun s : Changing × Escapes ↦ s.1.f) (hR.refl _) fun s p ↦ ?_
  exact hR.foldl (fun s : Changing × Escapes ↦ s.1.f) (hR.refl _) (hR.dropSlot _ p.2)

theorem simplifyStep (b : Nat) (c : Changing) (k : Nat) : R c.f (simplifyStep b c k).f := by
  unfold Passes.simplifyStep
  split
  · exact hR.refl _
  · exact hR.replaced ..

theorem simplifyAll (f : Function) : R f (simplifyAll f).f := by
  unfold Passes.simplifyAll
  refine hR.foldl (fun c : Changing ↦ c.f) (hR.refl _) fun c p ↦ ?_
  exact hR.foldl (fun c : Changing ↦ c.f) (hR.refl _) (hR.simplifyStep p.2)

theorem removeDeadOnce (f : Function) : R f (removeDeadOnce f).f := by
  unfold Passes.removeDeadOnce
  refine hR.foldl (fun c : Changing ↦ c.f) (hR.refl _) fun c p ↦ ?_
  refine hR.foldl (fun c : Changing ↦ c.f) (hR.refl _) fun c k ↦ ?_
  split
  · split
    · exact hR.removed ..
    · exact hR.refl _
  · exact hR.refl _

theorem removeDead (fuel : Nat) (c : Changing) : R c.f (removeDead fuel c).f := by
  induction fuel generalizing c with
  | zero => exact hR.refl _
  | succ fuel ih =>
    rw [Passes.removeDead]
    split
    · exact hR.trans (hR.removeDeadOnce c.f) (ih { f := (Passes.removeDeadOnce c.f).f, changed := true })
    · exact hR.refl _

theorem combineRounds (fuel : Nat) (c : Changing) : R c.f (combineRounds fuel c).f := by
  induction fuel generalizing c with
  | zero => exact hR.refl _
  | succ fuel ih =>
    have hround := hR.trans (hR.simplifyAll c.f)
      (hR.removeDead ((Passes.simplifyAll c.f).f.instructions.length + 1) { f := (Passes.simplifyAll c.f).f })
    rw [Passes.combineRounds]
    split
    · exact hR.trans hround (ih { f := _, changed := true })
    · exact hround

theorem numberStep (b : Nat) (s : Available) (k : Nat) : R s.f (numberStep b s k).f := by
  unfold Passes.numberStep
  dsimp only
  repeat' split
  all_goals first | exact hR.refl _ | exact hR.replaced ..

theorem number (f : Function) : R f (number f).f := by
  unfold Passes.number
  refine hR.foldl (fun c : Changing ↦ c.f) (hR.refl _) fun c p ↦ ?_
  exact hR.foldl (fun s : Available ↦ s.f) (hR.refl _) (hR.numberStep p.2)

theorem run (p : Pass) (f : Function) (known : Escapes) : R f (p.run f known).1.f := by
  cases p with
  | escape | unroll | vectorize => exact hR.refl _
  | promote => exact hR.promote known f
  | combine => exact hR.combineRounds _ { f }
  | reassociate => exact hR.reassociated f
  | number => exact hR.number f

theorem runPasses (passes : List Pass) (f : Function) : R f (runPasses passes f).1 := by
  unfold Passes.runPasses
  split
  · exact hR.refl _
  · exact hR.foldl (fun s : Function × Escapes × List (Pass × Bool) ↦ s.1) (hR.refl _) fun s p ↦ hR.run p s.1 s.2.1

end Covers

theorem SameHeading.covers : Covers SameHeading where
  refl := .refl
  trans := .trans
  removed := .removeFrom
  exchanged f k v := .replaceAllUses f (f.result k) v
  reassociated f := by
    unfold reassociate
    refine SameHeading.foldl (fun c : Changing ↦ c.f) (.refl _) fun c p ↦ ?_
    dsimp only
    split
    · exact ⟨rfl, rfl, rfl, rfl, rfl⟩
    · exact .refl _

theorem sameHeading_runPasses (passes : List Pass) (f : Function) : SameHeading f (runPasses passes f).1 :=
  SameHeading.covers.runPasses passes f

end CilSsa.Passes

