import CilSsa.Proofs.FiniteLayouts
import CilSsa.Proofs.EngineGrowth
import CilSsa.Proofs.Traversals

namespace CilSsa.Ssa

open Relation

namespace Layouts

def layout? (m : Module) (target : Target) : Nat → Ty → Option Layout
  | 0, _ => none
  | fuel + 1, t => match t with
    | .int bits => some (.scalar ((bits + 7) / 8))
    | .float => some (.scalar 4)
    | .double => some (.scalar 8)
    | .pointer _ => some { size := target.pointerSize, align := target.pointerAlign }
    | .struct id name => (m.fields? (.struct id name)).bind fun fields ↦
        (fields.mapM (layout? m target fuel)).map Layout.ofMembers
    | _ => none

def LaidOut (m : Module) (target : Target) (t : Ty) (l : Layout) : Prop := ∃ fuel, layout? m target fuel t = some l

section

variable {m : Module} {target : Target} {s s' : Layouts} {t r : Ty} {l l' : Layout} {fuel fuel' : Nat}

theorem layout?_succ (h : layout? m target fuel t = some l) : layout? m target (fuel + 1) t = some l := by
  induction fuel generalizing t l with
  | zero => cases h
  | succ fuel ih =>
    cases t with
    | struct id name =>
      obtain ⟨fields, hfields, hmembers⟩ := Option.bind_eq_some_iff.mp h
      obtain ⟨ls, hls, rfl⟩ := Option.map_eq_some_iff.mp hmembers
      exact Option.bind_eq_some_iff.mpr ⟨fields, hfields,
        Option.map_eq_some_iff.mpr ⟨ls, mapM_some_mono (fun _ _ ↦ ih) hls, rfl⟩⟩
    | _ => exact h

theorem layout?_mono (h : layout? m target fuel t = some l) (hle : fuel ≤ fuel') : layout? m target fuel'
    t = some l := by
  induction hle with
  | refl => exact h
  | step _ ih => exact layout?_succ ih

theorem LaidOut.unique (h : LaidOut m target t l) (h' : LaidOut m target t l') : l = l' := by
  obtain ⟨fuel, hl⟩ := h
  obtain ⟨fuel', hl'⟩ := h'
  have := layout?_mono hl (Nat.le_max_left fuel fuel')
  rw [layout?_mono hl' (Nat.le_max_right fuel fuel')] at this
  exact (Option.some.inj this).symm

theorem layout?_member (h : layout? m target fuel t = some l) (hts : m.Embeds t r) :
    ∃ fuel' < fuel, ∃ l', layout? m target fuel' r = some l' := by
  obtain ⟨fields, hfields, hr⟩ := hts
  cases fuel with
  | zero => cases h
  | succ fuel =>
    cases t with
    | struct id name =>
      obtain ⟨fields', hfields', hls⟩ := Option.bind_eq_some_iff.mp h
      obtain ⟨ls, hls, -⟩ := Option.map_eq_some_iff.mp hls
      cases hfields.symm.trans hfields'
      obtain ⟨l', -, hl'⟩ := exists_right_of_forall₂ (mapM_some_iff.mp hls) hr
      exact ⟨fuel, Nat.lt_succ_self fuel, l', hl'⟩
    | _ => cases hfields

theorem layout?_below (h : layout? m target fuel t = some l) (hts : TransGen m.Embeds t r) :
    ∃ fuel' < fuel, ∃ l', layout? m target fuel' r = some l' := by
  induction hts with
  | single hts => exact layout?_member h hts
  | tail _ hsr ih =>
    obtain ⟨fuel₁, hlt, l₁, h₁⟩ := ih
    obtain ⟨fuel₂, hlt', h₂⟩ := layout?_member h₁ hsr
    exact ⟨fuel₂, hlt'.trans hlt, h₂⟩

theorem not_laidOut_of_cycle (hcycle : TransGen m.Embeds t t) : ¬ LaidOut m target t l := by
  rintro ⟨fuel, h⟩
  induction fuel using Nat.strong_induction_on generalizing l with
  | _ fuel ih =>
    obtain ⟨fuel', hlt, l', h'⟩ := layout?_below h hcycle
    exact ih fuel' hlt h'

theorem LaidOut.struct {id : Nat} {name : String} {fields : List Ty} {ls : List Layout}
    (hfields : m.fields? (.struct id name) = some fields) (h : List.Forall₂ (LaidOut m target) fields ls) :
    LaidOut m target (.struct id name) (.ofMembers ls) := by
  have hall : ∃ fuel, fields.mapM (layout? m target fuel) = some ls := by
    clear hfields
    induction h with
    | nil => exact ⟨0, rfl⟩
    | @cons t l ts ls hl _ ih =>
      obtain ⟨fuel, hl⟩ := hl
      obtain ⟨fuel', hls⟩ := ih
      refine ⟨max fuel fuel', ?_⟩
      rw [List.mapM_cons, layout?_mono hl (Nat.le_max_left ..),
        mapM_some_mono (fun _ _ h ↦ layout?_mono h (Nat.le_max_right ..)) hls]
      rfl
  obtain ⟨fuel, hls⟩ := hall
  exact ⟨fuel + 1, Option.bind_eq_some_iff.mpr ⟨fields, hfields, Option.map_eq_some_iff.mpr ⟨ls, hls, rfl⟩⟩⟩

theorem LaidOut.member {fields : List Ty} (h : LaidOut m target t l) (hfields : m.fields? t = some fields)
    (hr : r ∈ fields) : ∃ l', LaidOut m target r l' := by
  obtain ⟨fuel, h⟩ := h
  obtain ⟨fuel', -, l', h'⟩ := layout?_member h ⟨fields, hfields, hr⟩
  exact ⟨l', fuel', h'⟩

/-! ### Answers -/

def Exact (m : Module) (target : Target) (t : Ty) : Except LayoutError Layout → Prop
  | .ok l => LaidOut m target t l
  | .error _ => ∀ l, ¬ LaidOut m target t l

/-- Everything that is remembered is exact. -/
structure Exactly (m : Module) (target : Target) (s : Layouts) : Prop where
  machine : s.target = target
  memo : ∀ t a, s.memo.lookup t = some a → Exact m target t a

theorem Exactly.remember (h : Exactly m target s) {a : Except LayoutError Layout} (ha : Exact m target t a) :
    Exactly m target (s.remember t a) := by
  refine ⟨remember_target.trans h.machine, fun r b hb ↦ ?_⟩
  rcases lookup_remember hb with ⟨rfl, rfl, -⟩ | hb
  · exact ha
  · exact h.memo r b hb

def members (m : Module) : List Ty := m.structs.toList.flatMap fun d ↦ d.body.getD []

theorem mem_members {fields : List Ty} (hfields : m.fields? t = some fields) (hr : r ∈ fields) : r ∈ members m := by
  cases t with
  | struct id name =>
    obtain ⟨d, hd, hbody⟩ := Option.bind_eq_some_iff.mp (show (m.structs[id]?).bind (·.body) = some fields from hfields)
    refine List.mem_flatMap.mpr ⟨d, Array.mem_toList_iff.mpr (Array.mem_of_getElem? hd), ?_⟩
    rw [hbody]
    exact hr
  | _ => cases hfields

theorem length_members_lt (m : Module) : (members m).length < nesting m := by
  have hsum : ∀ (ds : List StructDef) (n : Nat), (ds.flatMap fun d ↦ d.body.getD []).length + n ≤
      ds.foldl (fun n d ↦ n + (d.body.getD []).length) n := by
    intro ds
    induction ds with
    | nil => exact fun n ↦ by simp
    | cons d ds ih =>
      intro n
      have := ih (n + (d.body.getD []).length)
      rw [List.flatMap_cons, List.length_append, List.foldl_cons]
      omega
  unfold nesting members
  rw [← Array.foldl_toList]
  have := hsum m.structs.toList (m.structs.size + 1)
  omega

/-- The structs that are being laid out for `q`, each of which leads down to `t`. -/
structure Nested (m : Module) (q : Ty) (path : List Ty) (t : Ty) : Prop where
  nodup : path.Nodup
  among : ∀ p ∈ path, p = q ∨ p ∈ members m
  here : t = q ∨ t ∈ members m
  leads : ∀ p ∈ path, TransGen m.Embeds p t

variable {q : Ty} {path : List Ty}

theorem Nested.length_le (h : Nested m q path t) : path.length ≤ (members m).length + 1 := by
  have hsub : path ⊆ q :: members m := fun p hp ↦ (h.among p hp).elim (fun heq ↦ heq ▸ List.mem_cons_self)
    (List.mem_cons_of_mem _)
  simpa using (h.nodup.subperm hsub).length_le

theorem Nested.push (h : Nested m q path t) (hfresh : t ∉ path) {fields : List Ty} (hfields : m.fields? t = some fields)
    (hr : r ∈ fields) : Nested m q (path ++ [t]) r := by
  have hstep : m.Embeds t r := ⟨fields, hfields, hr⟩
  refine ⟨List.nodup_append.mpr ⟨h.nodup, List.nodup_singleton t, ?_⟩, fun p hp ↦ ?_, .inr (mem_members hfields hr),
    fun p hp ↦ ?_⟩
  · rintro p hp _ ht rfl
    exact hfresh (List.mem_singleton.mp ht ▸ hp)
  · exact (List.mem_append.mp hp).elim (h.among p) fun hp ↦ List.mem_singleton.mp hp ▸ h.here
  · exact (List.mem_append.mp hp).elim (fun hp ↦ (h.leads p hp).tail hstep)
      fun hp ↦ List.mem_singleton.mp hp ▸ .single hstep

theorem exact_plain (h : s.target = target) (ht : t.isStruct = false) : Exact m target t (plainAnswer s.target t) := by
  cases t with
  | int | float | double => exact ⟨1, rfl⟩
  | pointer => exact ⟨1, by rw [h]; rfl⟩
  | struct => cases ht
  | untyped | void | func =>
    rintro l ⟨_ | n, hl⟩ <;> cases hl

theorem walk_exact : Walk m (Exactly m target) (Exact m target) fun fuel path t ↦
    Nested m q path t ∧ nesting m + 1 ≤ fuel + path.length where
  exhausted h := by
    have := h.1.length_le
    have := length_members_lt m
    omega
  known hs hl := hs.memo _ _ hl
  cyclic h hon _ := not_laidOut_of_cycle (h.1.leads _ hon)
  plain _ hs ht := exact_plain hs.machine ht
  bodyless {_ _ t} _ _ hbody := by
    rintro l ⟨_ | n, hl⟩
    · cases hl
    · cases t with
      | struct =>
        rw [layout?, hbody] at hl
        cases hl
      | _ => cases ‹Ty.isStruct _ = true›
  deeper h hfresh hfields hr := ⟨h.1.push hfresh hfields (hr.elim fun _ ⟨_, heq, _⟩ ↦ by simp [heq]), by
    rw [List.length_append, List.length_singleton]
    omega⟩
  struct {t _ _} hfields hall := by
    cases t with
    | struct => exact .struct hfields hall
    | _ => cases hfields
  failed hfields hr he _ hl := (hl.member hfields (hr.elim fun _ ⟨_, heq, _⟩ ↦ by simp [heq])).elim he
  remember _ _ hs ha := hs.remember ha

theorem of_exact (h : Exactly m target s) : Exactly m target (s.of m t).2 ∧ Exact m target t (s.of m t).1 :=
  walk_exact.compute ⟨⟨List.nodup_nil, List.forall_mem_nil _, .inl rfl, List.forall_mem_nil _⟩, le_rfl⟩ h

theorem laidOut_scalar (h : scalarLayout? t = some l) : LaidOut m .host t l := by
  cases t <;> first | exact ⟨1, h⟩ | cases h

/-- The right answer for an integer or a pointer; of other types it says nothing. -/
def Plainly (t : Ty) (a : Except LayoutError Layout) : Prop := ∀ l, scalarLayout? t = some l → a = .ok l

theorem Plainly.of_struct {a : Except LayoutError Layout} (h : t.isStruct = true) : Plainly t a := by
  intro l hl
  cases t with
  | struct => cases hl
  | _ => cases h

theorem Plain.remember {a : Except LayoutError Layout} (h : s.Plain) (ha : Plainly t a) : (s.remember t a).Plain := by
  refine ⟨by rw [remember_target, h.size], by rw [remember_target, h.align], fun r b l hb hl ↦ ?_⟩
  rcases lookup_remember hb with ⟨rfl, rfl, -⟩ | hb
  · exact ha l hl
  · exact h.memo r b l hb hl

theorem walk_plain : Walk m Plain Plainly fun fuel path t ↦
    Nested m q path t ∧ nesting m + 1 ≤ fuel + path.length where
  exhausted h := by
    have := h.1.length_le
    have := length_members_lt m
    omega
  known hs hl l hscalar := hs.memo _ _ l hl hscalar
  cyclic h hon _ hl := absurd (laidOut_scalar hl) (not_laidOut_of_cycle (h.1.leads _ hon))
  plain {_ _ t _} _ hs _ l hl := by
    cases t with
    | int => cases hl; rfl
    | pointer => cases hl; rw [plainAnswer, hs.size, hs.align]
    | _ => cases hl
  bodyless _ hstruct _ := .of_struct hstruct
  deeper h hfresh hfields hr := ⟨h.1.push hfresh hfields (hr.elim fun _ ⟨_, heq, _⟩ ↦ by simp [heq]), by
    rw [List.length_append, List.length_singleton]
    omega⟩
  struct hfields _ := .of_struct (Module.isStruct_of_fields? hfields)
  failed hfields _ _ := .of_struct (Module.isStruct_of_fields? hfields)
  remember _ _ hs ha := hs.remember ha

theorem Plain.learn (h : s.Plain) (m : Module) (t : Ty) : (s.of m t).2.Plain :=
  (walk_plain.compute ⟨⟨List.nodup_nil, List.forall_mem_nil _, .inl rfl, List.forall_mem_nil _⟩, le_rfl⟩ h).1

theorem Exact.same {a a' : Except LayoutError Layout} (h : Exact m target t a) (h' : Exact m target t a') :
    a'.toOption = a.toOption := by
  cases a with
  | ok l =>
    cases a' with
    | ok l' => exact congrArg some (h'.unique h)
    | error => exact absurd h (h' l)
  | error =>
    cases a' with
    | ok l' => exact absurd h' (h l')
    | error => rfl

end

end Layouts

theorem Layout.le_roundUp (n align : Nat) : n ≤ Layout.roundUp n align := Machine.Region.le_alignUp n align

@[simp]
theorem Layout.size_scalar (n : Nat) : (Layout.scalar n).size = n := by
  unfold Layout.scalar
  split
  · rename_i hn
    rw [hn]
    rfl
  · rfl

def Layout.Modest (l : Layout) : Prop := l.align ≤ max l.size 1

theorem Layout.Modest.place {l member : Layout} (h : l.Modest) (hmember : member.Modest) : (l.place member).Modest := by
  have := Layout.le_roundUp l.size (max member.align 1)
  unfold Modest at *
  unfold Layout.place
  dsimp only
  omega

theorem Layout.modest_ofMembers {ls : List Layout} (h : ∀ l ∈ ls, l.Modest) : (Layout.ofMembers ls).Modest := by
  have hfold : ∀ (ls : List Layout) (l : Layout), l.Modest → (∀ l' ∈ ls, l'.Modest) →
      (ls.foldl Layout.place l).Modest := by
    intro ls
    induction ls with
    | nil => exact fun l hl _ ↦ hl
    | cons l' ls ih =>
      intro l hl hls
      obtain ⟨hl', hls⟩ := List.forall_mem_cons.mp hls
      exact ih _ (hl.place hl') hls
  have hmembers := hfold ls .empty (Nat.le_refl 1) h
  have := Layout.le_roundUp (ls.foldl Layout.place .empty).size (ls.foldl Layout.place .empty).align
  unfold Layout.Modest at *
  unfold Layout.ofMembers
  dsimp only
  omega

theorem Layouts.LaidOut.modest {m : Module} {t : Ty} {l : Layout} (h : Layouts.LaidOut m .host t l) : l.Modest := by
  have hscalar : ∀ n, (Layout.scalar n).Modest := by
    intro n
    unfold Layout.scalar Layout.Modest
    split
    · exact Nat.le_refl 1
    · exact Nat.le_max_left ..
  obtain ⟨fuel, h⟩ := h
  induction fuel generalizing t l with
  | zero => cases h
  | succ fuel ih =>
    cases t with
    | struct id name =>
      obtain ⟨fields, hfields, hmembers⟩ := Option.bind_eq_some_iff.mp h
      obtain ⟨ls, hls, rfl⟩ := Option.map_eq_some_iff.mp hmembers
      exact Layout.modest_ofMembers (forall_of_mapM_some hls fun _ _ ↦ ih)
    | pointer t =>
      cases h
      exact Nat.le_refl 8
    | int n =>
      cases h
      exact hscalar _
    | float =>
      cases h
      exact hscalar _
    | double =>
      cases h
      exact hscalar _
    | _ => cases h

end CilSsa.Ssa

