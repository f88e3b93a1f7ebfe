import CilSsa.Proofs.StoredValues

namespace CilSsa.Ssa

/-- The members lie one behind the other. -/
structure Layout.Lines (l : Layout) (ks : List Layout) : Prop where
  count : l.offsets.length = ks.length
  inside : ∀ (i o : Nat) (k : Layout), l.offsets[i]? = some o → ks[i]? = some k → o + k.size ≤ l.size
  apart : ∀ (i j o p : Nat) (k : Layout), i < j → l.offsets[i]? = some o → ks[i]? = some k → l.offsets[j]? = some p →
    o + k.size ≤ p

theorem getElem?_concat {α : Type} {as : List α} {a b : α} {i : Nat} (h : (as ++ [a])[i]? = some b) :
    as[i]? = some b ∨ i = as.length ∧ b = a := by
  rw [List.getElem?_append] at h
  split at h
  · exact .inl h
  · obtain ⟨hi, rfl⟩ := List.getElem?_eq_some_iff.mp h
    rw [List.length_singleton] at hi
    exact .inr ⟨by omega, List.getElem_singleton hi⟩

section

variable {l : Layout} {ks : List Layout} {m : Module} {target : Target} {t : Ty} {fields : List Ty} {s : Layouts}
  {i o : Nat}

theorem Layout.Lines.place (h : l.Lines ks) (k : Layout) : (l.place k).Lines (ks ++ [k]) := by
  have hle := Layout.le_roundUp l.size (max k.align 1)
  have hnew : ∀ {i o}, (l.place k).offsets[i]? = some o →
      l.offsets[i]? = some o ∨ i = ks.length ∧ o = Layout.roundUp l.size (max k.align 1) := by
    intro i o ho
    rw [← h.count]
    exact getElem?_concat ho
  have hsize : (l.place k).size = Layout.roundUp l.size (max k.align 1) + k.size := rfl
  have hlt : ∀ {i} {k' : Layout}, ks[i]? = some k' → i < ks.length := fun hk ↦
    (List.getElem?_eq_some_iff.mp hk).1
  refine ⟨?_, fun i o k' ho hk ↦ ?_, fun i j o p k' hij ho hk hp ↦ ?_⟩
  · show (l.offsets ++ [_]).length = (ks ++ [k]).length
    rw [List.length_append, List.length_append, h.count]
    rfl
  · rw [hsize]
    rcases hnew ho with hold | ⟨hi, rfl⟩ <;> rcases getElem?_concat hk with hk | ⟨hi', rfl⟩
    · have := h.inside i o k' hold hk
      omega
    · have := (List.getElem?_eq_some_iff.mp hold).1
      rw [h.count] at this
      omega
    · have := hlt hk
      omega
    · exact le_rfl
  · rcases getElem?_concat hk with hk | ⟨hi, rfl⟩
    · have hi := hlt hk
      have ho : l.offsets[i]? = some o := by
        rcases hnew ho with ho | ⟨rfl, -⟩
        · exact ho
        · omega
      rcases hnew hp with hp | ⟨-, rfl⟩
      · exact h.apart i j o p k' hij ho hk hp
      · exact (h.inside i o k' ho hk).trans hle
    · rcases hnew hp with hp | ⟨rfl, -⟩
      · have := (List.getElem?_eq_some_iff.mp hp).1
        rw [h.count] at this
        omega
      · omega

theorem Layout.lines_ofMembers (ks : List Layout) : (Layout.ofMembers ks).Lines ks := by
  have hplaced : (ks.foldl Layout.place .empty).Lines ks := by
    induction ks using List.reverseRecOn with
    | nil => constructor <;> simp [Layout.empty]
    | append_singleton ks k ih =>
      rw [List.foldl_append]
      exact ih.place k
  have hle := Layout.le_roundUp (ks.foldl Layout.place .empty).size (ks.foldl Layout.place .empty).align
  exact ⟨hplaced.count, fun i o k ho hk ↦ (hplaced.inside i o k ho hk).trans hle, hplaced.apart⟩

namespace Layouts

theorem LaidOut.members (h : LaidOut m target t l) (hfields : m.fields? t = some fields) :
    ∃ ls, List.Forall₂ (LaidOut m target) fields ls ∧ l = .ofMembers ls := by
  obtain ⟨fuel, h⟩ := h
  cases fuel with
  | zero => cases h
  | succ fuel =>
    cases t with
    | struct id name =>
      obtain ⟨fields', hfields', hmembers⟩ := Option.bind_eq_some_iff.mp h
      obtain ⟨ls, hls, rfl⟩ := Option.map_eq_some_iff.mp hmembers
      cases hfields.symm.trans hfields'
      refine ⟨ls, ?_, rfl⟩
      clear hfields hfields' hmembers h
      induction fields generalizing ls with
      | nil =>
        cases hls
        exact .nil
      | cons r fields ih =>
        rw [List.mapM_cons] at hls
        obtain ⟨k, hk, hrest⟩ := Option.bind_eq_some_iff.mp hls
        obtain ⟨ls', hls', heq⟩ := Option.bind_eq_some_iff.mp hrest
        cases heq
        exact .cons ⟨fuel, hk⟩ (ih ls' hls')
    | _ => cases hfields

theorem fieldOffset_eq (h : Exactly m target s) (hl : LaidOut m target t l) (ho : l.offsets[i]? = some o) :
    (s.fieldOffset m t i).1 = .ok o := by
  have hexact := (of_exact (t := t) h).2
  unfold fieldOffset
  generalize s.of m t = found at hexact
  obtain ⟨x | l', s'⟩ := found
  · exact absurd hl (hexact l)
  · obtain rfl := hl.unique hexact
    dsimp only
    rw [if_neg (by omega), Int.toNat_natCast, ho]

end Layouts

end

end CilSsa.Ssa

namespace CilSsa.Machine

open CilSsa.Ssa CilSsa.Number CilSsa.Text

/-- Stores into the `n` bytes from an address on, one after the other. -/
inductive Engine.StoresInto (m : Module) (a : UInt64) (n : Nat) (e : Engine) : Engine → Prop
  | none : StoresInto m a n e e
  | store {d d' : Engine} {trace : List String} {b v : UInt64} {t : Ty} {l : Layout} : StoresInto m a n e d →
      Layouts.LaidOut m .host t l → a.toNat ≤ b.toNat → b.toNat + l.size ≤ a.toNat + n →
      (store m trace b t v).run.run d = (.ok (), d') → StoresInto m a n e d'

section

variable {m : Module} {limits : Limits} {trace : List String} {e d : Engine} {t ti tj : Ty}
  {a p v : UInt64} {l : Layout} {fields : List Ty} {bs : Bytes} {i j k n o ni nj : Nat}

/-! ### Scalar members -/

theorem Engine.Low.part (he : e.Low m limits) (hm : e.memory.Holds a n) (h : o + k ≤ n) :
    (a + o.toUInt64).toNat = a.toNat + o ∧ e.memory.Holds (a + o.toUInt64) k := by
  have hheap : heapBase.toNat = 65536 := rfl
  have hstack : stackBase.toNat = 1099511627776 := rfl
  have hsize := he.size
  have hlow := he.low
  have hend : a.toNat + n < 2 ^ 64 := by
    rcases hm with ⟨-, -, h⟩ | ⟨-, -, h⟩
    · rw [he.stack] at h
      omega
    · rw [he.heap] at h
      omega
  have ho : (a + o.toUInt64).toNat = a.toNat + o := by
    rw [UInt64.toNat_add, UInt64.toNat_ofNat']
    omega
  refine ⟨ho, hm.imp ?_ ?_⟩ <;>
  · rintro ⟨hbase, -, hend⟩
    have := UInt64.le_iff_toNat_le.mp hbase
    exact ⟨UInt64.le_iff_toNat_le.mpr (by omega), by omega, by omega⟩

theorem Engine.StoresInto.read? (h : Engine.StoresInto m a n e d) (he : e.Low m limits)
    (hp : p.toNat + k ≤ a.toNat ∨ a.toNat + n ≤ p.toNat) :
    d.Low m limits ∧ d.memory.read? p k = e.memory.read? p k := by
  induction h with
  | none => exact ⟨he, rfl⟩
  | @store d d' trace b v t l _ hl hge hle hrun ih =>
    obtain ⟨hlow, hread⟩ := ih
    obtain ⟨l', bs, hl', -, hlength, hmemory⟩ := store_inv hlow hrun
    obtain rfl := hl.unique hl'
    refine ⟨hlow.store hrun, ?_⟩
    rw [hmemory, ← hread]
    exact Memory.read?_write_apart (by omega)

end

end CilSsa.Machine

