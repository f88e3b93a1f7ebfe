import CilSsa.Proofs.LayoutWalk
import CilSsa.Proofs.Registry
import Mathlib.Logic.Relation
import Mathlib.Data.List.Perm.Subperm

namespace CilSsa.Ssa

open Relation

/-! ### Containment by value -/

namespace Module

def Known (m : Module) : Ty → Prop
  | .int _ | .float | .double | .pointer _ => True
  | .struct id name => m.structNameOf id = some name
  | .untyped | .void | .func .. => False

def Embeds (m : Module) (t s : Ty) : Prop := ∃ fields, m.fields? t = some fields ∧ s ∈ fields

def Closed (m : Module) : Prop := ∀ t s, m.Embeds t s → m.Known s

/-- A type that has no struct without a body in it and ends everywhere. -/
inductive Sized (m : Module) : Ty → Prop
  | scalar {t : Ty} (known : m.Known t) (plain : t.isStruct = false) : Sized m t
  | struct {t : Ty} {fields : List Ty} (body : m.fields? t = some fields) (members : ∀ s ∈ fields,
      Sized m s) : Sized m t

def Circular (m : Module) (t : Ty) : Prop := ∃ s, ReflTransGen m.Embeds t s ∧ TransGen m.Embeds s s

section

variable {m m' : Module}

theorem Known.lt {id : Nat} {name : String} (h : m.Known (.struct id name)) : id < m.structs.size := by
  obtain ⟨d, hd, -⟩ := Option.map_eq_some_iff.mp (show m.structNameOf id = some name from h)
  exact (Array.getElem?_eq_some_iff.mp hd).1

theorem Known.mono {t : Ty} (h : m.Known t) (hm : m.Precedes m') : m'.Known t := by
  cases t with
  | struct id name =>
    obtain ⟨d, hd, hname⟩ := Option.map_eq_some_iff.mp (show m.structNameOf id = some name from h)
    obtain ⟨d', hd', hname', -⟩ := hm.structs id d hd
    exact Option.map_eq_some_iff.mpr ⟨d', hd', hname'.trans hname⟩
  | _ => exact h

theorem fields?_mono {t : Ty} {fields : List Ty} (h : m.fields? t = some fields) (hm : m.Precedes m') :
    m'.fields? t = some fields := by
  cases t with
  | struct id name =>
    obtain ⟨d, hd, hbody⟩ := Option.bind_eq_some_iff.mp (show (m.structs[id]?).bind (·.body) = some fields from h)
    obtain ⟨d', hd', -, hkept⟩ := hm.structs id d hd
    exact Option.bind_eq_some_iff.mpr ⟨d', hd', hkept fields hbody⟩
  | _ => cases h

theorem Embeds.mono (hm : m.Precedes m') {t s : Ty} (h : m.Embeds t s) : m'.Embeds t s := by
  obtain ⟨fields, hfields, hs⟩ := h
  exact ⟨fields, fields?_mono hfields hm, hs⟩

theorem Sized.mono {t : Ty} (h : m.Sized t) (hm : m.Precedes m') : m'.Sized t := by
  induction h with
  | scalar known plain => exact .scalar (known.mono hm) plain
  | struct body _ ih => exact .struct (fields?_mono body hm) ih

theorem Circular.mono {t : Ty} (h : m.Circular t) (hm : m.Precedes m') : m'.Circular t := by
  obtain ⟨s, hts, hss⟩ := h
  exact ⟨s, ReflTransGen.mono (fun _ _ ↦ Embeds.mono hm) _ _ hts, TransGen.mono (fun _ _ ↦ Embeds.mono hm) _ _ hss⟩

theorem Circular.of_embeds {t s : Ty} (hts : m.Embeds t s) (h : m.Circular s) : m.Circular t := by
  obtain ⟨r, hsr, hrr⟩ := h
  exact ⟨r, .head hts hsr, hrr⟩

end

end Module

/-! ### What an answer says -/

namespace Layouts

/-- An error means what it says: a struct further down lacks its body, or one is in itself. -/
def Means (m : Module) (t : Ty) : LayoutError → Prop
  | .noBody s => ReflTransGen m.Embeds t s ∧ m.Known s ∧ s.isStruct = true ∧ m.fields? s = none
  | .recursive _ | .unsized _ => m.Circular t

def Right (m : Module) (t : Ty) : Except LayoutError Layout → Prop
  | .ok _ => m.Sized t
  | .error e => Means m t e

def Sound (m : Module) (s : Layouts) : Prop :=
  ∀ e ∈ s.memo, Right m e.1 e.2 ∧ ∀ q, e.2 ≠ .error (.noBody q)

section

variable {m m' : Module} {s : Layouts} {t r : Ty}

theorem Right.mono {answer : Except LayoutError Layout} (h : Right m t answer)
    (hbody : ∀ q, answer ≠ .error (.noBody q)) (hm : m.Precedes m') : Right m' t answer := by
  cases answer with
  | ok l => exact Module.Sized.mono h hm
  | error e =>
    cases e with
    | noBody q => exact absurd rfl (hbody q)
    | recursive cycle => exact Module.Circular.mono h hm
    | unsized q => exact Module.Circular.mono h hm

theorem Sound.mono (h : Sound m s) (hm : m.Precedes m') : Sound m' s :=
  fun e he ↦ ⟨(h e he).1.mono (h e he).2 hm, (h e he).2⟩

theorem Means.of_embeds {e : LayoutError} (hts : m.Embeds t r) (h : Means m r e) : Means m t e := by
  cases e with
  | noBody q => exact ⟨.head hts h.1, h.2⟩
  | recursive cycle => exact Module.Circular.of_embeds hts h
  | unsized q => exact Module.Circular.of_embeds hts h

theorem Sound.remember (h : Sound m s) {answer : Except LayoutError Layout} (hright : Right m t answer) :
    Sound m (s.remember t answer) := by
  unfold Layouts.remember
  split
  · exact h
  · rename_i hbody
    intro e he
    rcases List.mem_cons.mp he with rfl | he
    · exact ⟨hright, hbody⟩
    · exact h e he

/-- The structs that are being laid out, each of which leads down to `t`. -/
structure Path (m : Module) (path : List Ty) (t : Ty) : Prop where
  nodup : path.Nodup
  structs : ∀ p ∈ path, m.Known p ∧ p.isStruct = true
  leads : ∀ p ∈ path, TransGen m.Embeds p t

theorem Path.length_le {path : List Ty} (h : Path m path t) : path.length ≤ m.structs.size := by
  have hsub : path ⊆ (List.range m.structs.size).map m.structType := by
    intro p hp
    obtain ⟨hknown, hstruct⟩ := h.structs p hp
    cases p with
    | struct id name =>
      have hname : (m.structs[id]?).map (·.name) = some name := hknown
      refine List.mem_map.mpr ⟨id, List.mem_range.mpr (Module.Known.lt hknown), ?_⟩
      rw [Module.structType, hname]
      rfl
    | _ => cases hstruct
  simpa using (h.nodup.subperm hsub).length_le

theorem Path.push {path : List Ty} (h : Path m path t) (hknown : m.Known t) (hfresh : t ∉ path) (htr : m.Embeds t r) :
    Path m (path ++ [t]) r := by
  refine ⟨List.nodup_append.mpr ⟨h.nodup, List.nodup_singleton t, ?_⟩, ?_, ?_⟩
  · rintro p hp q hq rfl
    exact hfresh (List.mem_singleton.mp hq ▸ hp)
  · intro p hp
    rcases List.mem_append.mp hp with hp | hp
    · exact h.structs p hp
    · rw [List.mem_singleton.mp hp]
      exact ⟨hknown, Module.isStruct_of_fields? htr.choose_spec.1⟩
  · intro p hp
    rcases List.mem_append.mp hp with hp | hp
    · exact (h.leads p hp).tail htr
    · rw [List.mem_singleton.mp hp]
      exact .single htr

theorem Comes.embeds {Q : Ty → Except LayoutError Layout → Prop} {fields : List Ty} (h : Comes Q fields r)
    (hfields : m.fields? t = some fields) : m.Embeds t r := by
  obtain ⟨front, back, rfl, -⟩ := h
  exact ⟨_, hfields, List.mem_append_right _ List.mem_cons_self⟩

theorem walk_right (hclosed : m.Closed) : Walk m (Sound m) (Right m) fun fuel path t ↦
    Path m path t ∧ m.Known t ∧ m.structs.size + 2 ≤ fuel + path.length where
  exhausted h := by
    have := h.1.length_le
    omega
  known hs hl := (hs _ (Lowering.mem_of_lookup hl)).1
  cyclic h hon := ⟨_, .refl, h.1.leads _ hon⟩
  plain {_ _ t _} h _ ht := by
    cases t with
    | int | float | double | pointer => exact .scalar h.2.1 rfl
    | struct => cases ht
    | _ => exact h.2.1.elim
  bodyless h hstruct hbody := ⟨.refl, h.2.1, hstruct, hbody⟩
  deeper h hfresh hfields hr := ⟨h.1.push h.2.1 hfresh (hr.embeds hfields), hclosed _ _ (hr.embeds hfields), by
    rw [List.length_append, List.length_singleton]
    omega⟩
  struct hfields hall := .struct hfields fun _ hr ↦ (exists_right_of_forall₂ hall hr).elim fun _ h ↦ h.2
  failed hfields hr he := Means.of_embeds (hr.embeds hfields) he
  remember _ _ hs ha := hs.remember ha

theorem le_foldl_add {α : Type} (size : α → Nat) (as : List α) (n : Nat) : n ≤ as.foldl (fun n a ↦ n + size a) n := by
  induction as generalizing n with
  | nil => exact le_rfl
  | cons a as ih => exact (Nat.le_add_right n (size a)).trans (ih _)

theorem le_nesting (m : Module) : m.structs.size + 1 ≤ nesting m := by
  unfold nesting
  rw [← Array.foldl_toList]
  exact le_foldl_add _ _ _

theorem of_right (hclosed : m.Closed) (hknown : m.Known t) (h : Sound m s) :
    Sound m (s.of m t).2 ∧ Right m t (s.of m t).1 :=
  (walk_right hclosed).compute ⟨⟨List.nodup_nil, List.forall_mem_nil _, List.forall_mem_nil _⟩, hknown,
    Nat.succ_le_succ (le_nesting m)⟩ h

end

end Layouts

end CilSsa.Ssa

