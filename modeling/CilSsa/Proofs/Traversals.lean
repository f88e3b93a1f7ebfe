import Mathlib.Data.List.Forall2

namespace CilSsa

variable {α β ε ε' : Type}

theorem bind_ok {x : Except ε α} {f : α → Except ε β} {b : β} (h : x >>= f = .ok b) : ∃ a, x = .ok a ∧ f a = .ok b := by
  cases x with
  | error e => cases h
  | ok a => exact ⟨a, rfl, h⟩

theorem ok_bind {x : Except ε α} {f : α → Except ε β} {a : α} (h : x = .ok a) : x >>= f = f a := by
  rw [h]
  rfl

theorem mapError_ok {x : Except ε α} {f : ε → ε'} {a : α} (h : x.mapError f = .ok a) : x = .ok a := by
  cases x with
  | error e => cases h
  | ok a => exact congrArg Except.ok (Except.ok.inj h)

section

variable {R : α → β → Prop} {as : List α} {bs : List β}

theorem exists_left_of_forall₂ (h : List.Forall₂ R as bs) {b : β} (hb : b ∈ bs) : ∃ a ∈ as, R a b := by
  induction h with
  | nil => cases hb
  | cons hr _ ih =>
    rcases List.mem_cons.mp hb with rfl | hb
    · exact ⟨_, List.mem_cons_self, hr⟩
    · obtain ⟨a, ha, hab⟩ := ih hb
      exact ⟨a, List.mem_cons_of_mem _ ha, hab⟩

theorem exists_right_of_forall₂ (h : List.Forall₂ R as bs) {a : α} (ha : a ∈ as) : ∃ b ∈ bs, R a b :=
  exists_left_of_forall₂ h.flip ha

theorem exists_forall₂_iff : (∃ bs, List.Forall₂ R as bs) ↔ ∀ a ∈ as, ∃ b, R a b := by
  constructor
  · rintro ⟨bs, h⟩ a ha
    obtain ⟨b, -, hab⟩ := exists_right_of_forall₂ h ha
    exact ⟨b, hab⟩
  · intro h
    induction as with
    | nil => exact ⟨[], .nil⟩
    | cons a as ih =>
      obtain ⟨hb, hbs⟩ := List.forall_mem_cons.mp h
      obtain ⟨b, hb⟩ := hb
      obtain ⟨bs, hbs⟩ := ih hbs
      exact ⟨b :: bs, .cons hb hbs⟩

theorem getElem?_of_forall₂ (h : List.Forall₂ R as bs) (k : Nat) : Option.Rel R as[k]? bs[k]? := by
  induction h generalizing k with
  | nil => exact .none
  | cons hr _ ih =>
    cases k with
    | zero => exact .some hr
    | succ k => exact ih k

end

section

variable {f : α → Except ε β} {as : List α} {bs : List β}

theorem mapM_ok_iff : as.mapM f = .ok bs ↔ List.Forall₂ (f · = .ok ·) as bs := by
  induction as generalizing bs with
  | nil => exact ⟨fun h ↦ by cases h; exact .nil, fun h ↦ by cases h; rfl⟩
  | cons a as ih =>
    rw [List.mapM_cons]
    constructor
    · intro h
      obtain ⟨b, hb, h⟩ := bind_ok h
      obtain ⟨bs, hbs, h⟩ := bind_ok h
      cases h
      exact .cons hb (ih.mp hbs)
    · rintro (_ | ⟨hb, hbs⟩)
      rw [ok_bind hb, ok_bind (ih.mpr hbs)]
      rfl

theorem exists_mapM_ok (h : ∀ a ∈ as, ∃ b, f a = .ok b) : ∃ bs, as.mapM f = .ok bs := by
  obtain ⟨bs, hbs⟩ := exists_forall₂_iff.mpr h
  exact ⟨bs, mapM_ok_iff.mpr hbs⟩

theorem exists_of_mapM_ok (h : as.mapM f = .ok bs) {a : α} (ha : a ∈ as) : ∃ b ∈ bs, f a = .ok b :=
  exists_right_of_forall₂ (mapM_ok_iff.mp h) ha

theorem mem_of_mapM_ok (h : as.mapM f = .ok bs) {b : β} (hb : b ∈ bs) : ∃ a ∈ as, f a = .ok b :=
  exists_left_of_forall₂ (mapM_ok_iff.mp h) hb

theorem forall_of_mapM_ok {P : β → Prop} (h : as.mapM f = .ok bs) (hf : ∀ a b, f a = .ok b → P b) : ∀ b ∈ bs, P b := by
  intro b hb
  obtain ⟨a, -, hab⟩ := mem_of_mapM_ok h hb
  exact hf a b hab

theorem length_of_mapM_ok (h : as.mapM f = .ok bs) : bs.length = as.length := (mapM_ok_iff.mp h).length_eq.symm

theorem getElem?_mapM_ok (h : as.mapM f = .ok bs) (k : Nat) (b : β) : bs[k]? = some b ↔ ∃ a, as[k]? = some a ∧
    f a = .ok b := by
  have hrel := getElem?_of_forall₂ (mapM_ok_iff.mp h) k
  generalize as[k]? = a?, bs[k]? = b? at hrel
  cases hrel with
  | none => simp
  | some hr => simp [hr]

theorem mapM_ok_map {g : α → β} (h : ∀ a ∈ as, f a = .ok (g a)) : as.mapM f = .ok (as.map g) :=
  mapM_ok_iff.mpr (List.forall₂_map_right_iff.mpr (List.forall₂_same.mpr h))

end

section

variable {f g : α → Option β} {as : List α} {bs : List β}

theorem mapM_some_iff : as.mapM f = some bs ↔ List.Forall₂ (f · = some ·) as bs := by
  induction as generalizing bs with
  | nil => exact ⟨fun h ↦ by cases h; exact .nil, fun h ↦ by cases h; rfl⟩
  | cons a as ih =>
    rw [List.mapM_cons]
    constructor
    · intro h
      obtain ⟨b, hb, h⟩ := Option.bind_eq_some_iff.mp h
      obtain ⟨bs, hbs, h⟩ := Option.bind_eq_some_iff.mp h
      cases h
      exact .cons hb (ih.mp hbs)
    · rintro (_ | ⟨hb, hbs⟩)
      exact Option.bind_eq_some_iff.mpr ⟨_, hb, Option.bind_eq_some_iff.mpr ⟨_, ih.mpr hbs, rfl⟩⟩

theorem forall_of_mapM_some {P : β → Prop} (h : as.mapM f = some bs) (hf : ∀ a b, f a = some b → P b) :
    ∀ b ∈ bs, P b := by
  intro b hb
  obtain ⟨a, -, hab⟩ := exists_left_of_forall₂ (mapM_some_iff.mp h) hb
  exact hf a b hab

theorem mapM_some_mono (h : ∀ a b, f a = some b → g a = some b) (hf : as.mapM f = some bs) : as.mapM g = some bs :=
  mapM_some_iff.mpr ((mapM_some_iff.mp hf).imp fun a b ↦ h a b)

end

end CilSsa

