import CilSsa.Proofs.Traversals
import CilSsa.Ssa.Layout

namespace CilSsa.Ssa

theorem Module.isStruct_of_fields? {m : Module} {t : Ty} {fields : List Ty} (h : m.fields? t = some fields) :
    t.isStruct = true := by
  cases t <;> first | rfl | cases h

namespace Layouts

def plainAnswer (target : Target) : Ty → Except LayoutError Layout
  | .int bits => .ok (.scalar ((bits + 7) / 8))
  | .float => .ok (.scalar 4)
  | .double => .ok (.scalar 8)
  | .pointer _ => .ok { size := target.pointerSize, align := target.pointerAlign }
  | t => .error (.unsized t)

/-- The walk over the types `fields` comes to `r`, as all in front of it have layouts. -/
def Comes (Q : Ty → Except LayoutError Layout → Prop) (fields : List Ty) (r : Ty) : Prop :=
  ∃ front back, fields = front ++ r :: back ∧ ∀ q ∈ front, ∃ l, Q q (.ok l)

/-- The answers of the walk are as `Q` has them and what it remembers as `I` does, where with so much fuel it comes
along a path to a type as `Z` has it. -/
structure Walk (m : Module) (I : Layouts → Prop) (Q : Ty → Except LayoutError Layout → Prop)
    (Z : Nat → List Ty → Ty → Prop) : Prop where
  exhausted : ∀ {path t}, Z 0 path t → Q t (.error (.unsized t))
  known : ∀ {s t a}, I s → s.memo.lookup t = some a → Q t a
  cyclic : ∀ {fuel path t}, Z (fuel + 1) path t → t ∈ path → Q t (.error (.recursive (path.dropWhile (· ≠ t) ++ [t])))
  plain : ∀ {fuel path t s}, Z (fuel + 1) path t → I s → t.isStruct = false → Q t (plainAnswer s.target t)
  bodyless : ∀ {fuel path t}, Z (fuel + 1) path t → t.isStruct = true → m.fields? t = none → Q t (.error (.noBody t))
  deeper : ∀ {fuel path t fields r}, Z (fuel + 1) path t → t ∉ path → m.fields? t = some fields → Comes Q fields r →
    Z fuel (path ++ [t]) r
  struct : ∀ {t fields ls}, m.fields? t = some fields → List.Forall₂ (fun r l ↦ Q r (.ok l)) fields ls →
    Q t (.ok (.ofMembers ls))
  failed : ∀ {t fields r e}, m.fields? t = some fields → Comes Q fields r → Q r (.error e) → Q t (.error e)
  remember : ∀ {s s' t a}, I s → s.memo.lookup t = none → I s' → Q t a → I (s'.remember t a)

variable {m : Module} {s : Layouts} {t r : Ty} {a b : Except LayoutError Layout} {I : Layouts → Prop}
  {Q : Ty → Except LayoutError Layout → Prop} {Z : Nat → List Ty → Ty → Prop}

@[simp] theorem remember_target : (s.remember t a).target = s.target := by
  unfold remember
  split <;> rfl

theorem lookup_remember (h : (s.remember t a).memo.lookup r = some b) :
    r = t ∧ b = a ∧ (∀ q, a ≠ .error (.noBody q)) ∨ s.memo.lookup r = some b := by
  unfold remember at h
  split at h
  · exact .inr h
  · rename_i hbody
    rw [List.lookup_cons] at h
    split at h
    · exact .inl ⟨eq_of_beq ‹_›, (Option.some.inj h).symm, hbody⟩
    · exact .inr h

theorem each_of {ask : Ty → Layouts → Answer Layout} (front ts : List Ty) (hfront : ∀ q ∈ front, ∃ l, Q q (.ok l))
    (hask : ∀ r, Comes Q (front ++ ts) r → ∀ s, I s → I (ask r s).2 ∧ Q r (ask r s).1) (h : I s) :
    I (each ask ts s).2 ∧ match (each ask ts s).1 with
      | .ok ls => List.Forall₂ (fun r l ↦ Q r (.ok l)) ts ls
      | .error e => ∃ r, Comes Q (front ++ ts) r ∧ Q r (.error e) := by
  induction ts generalizing front s with
  | nil => exact ⟨h, .nil⟩
  | cons t ts ih =>
    have hcomes : Comes Q (front ++ t :: ts) t := ⟨front, ts, rfl, hfront⟩
    obtain ⟨hs, ha⟩ := hask t hcomes s h
    rw [each]
    generalize ask t s = found at hs ha ⊢
    obtain ⟨_ | l, s₁⟩ := found
    · exact ⟨hs, t, hcomes, ha⟩
    · have hfront' : ∀ q ∈ front ++ [t], ∃ l, Q q (.ok l) := fun q hq ↦
        (List.mem_append.mp hq).elim (hfront q) fun hq ↦ ⟨l, List.mem_singleton.mp hq ▸ ha⟩
      rw [List.append_cons] at hask ⊢
      obtain ⟨hs', hrest⟩ := ih (front ++ [t]) hfront' hask hs
      dsimp only
      generalize each ask ts s₁ = found at hs' hrest ⊢
      obtain ⟨_ | ls, s₂⟩ := found
      · exact ⟨hs', hrest⟩
      · exact ⟨hs', .cons ha hrest⟩

/-- All answers are as the answers for members make them, by induction on the fuel. -/
theorem Walk.compute (h : Walk m I Q Z) {fuel : Nat} {path : List Ty} (hz : Z fuel path t) (hs : I s) :
    I (compute m fuel path t s).2 ∧ Q t (compute m fuel path t s).1 := by
  induction fuel generalizing path t s with
  | zero => exact ⟨hs, h.exhausted hz⟩
  | succ fuel ih =>
    unfold Layouts.compute
    split
    · exact ⟨hs, h.known hs ‹_›⟩
    rename_i hnew
    split
    · exact ⟨hs, h.cyclic hz (List.contains_iff_mem.mp ‹_›)⟩
    rename_i hfresh
    have hfresh : t ∉ path := fun hmem ↦ hfresh (List.contains_iff_mem.mpr hmem)
    have hlearn : ∀ found : Answer Layout, I found.2 ∧ Q t found.1 → I (found.2.remember t found.1) ∧ Q t found.1 :=
      fun found hf ↦ ⟨h.remember hs hnew hf.1 hf.2, hf.2⟩
    apply hlearn
    cases t with
    | struct id name =>
      cases hfields : m.fields? (.struct id name) with
      | none =>
        simp only [hfields]
        exact ⟨hs, h.bodyless hz rfl hfields⟩
      | some fields =>
        obtain ⟨hs', heach⟩ := each_of (Q := Q) [] fields (List.forall_mem_nil _)
          (fun r hr s hs ↦ ih (h.deeper hz hfresh hfields hr) hs) hs
        simp only [hfields]
        generalize each (Layouts.compute m fuel (path ++ [.struct id name])) fields s = found at hs' heach ⊢
        obtain ⟨_ | ls, s'⟩ := found
        · obtain ⟨r, hr, hq⟩ := heach
          exact ⟨hs', h.failed hfields hr hq⟩
        · exact ⟨hs', h.struct hfields heach⟩
    | _ => exact ⟨hs, h.plain hz hs rfl⟩

end Layouts

end CilSsa.Ssa

