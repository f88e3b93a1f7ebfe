import Mathlib.Data.List.Forall2
import Mathlib.Data.List.Nodup
import CilSsa.Codec.ImageData

namespace CilSsa.Codec

open CilSsa.Image

/-- An item stands for data as a format reads it. The entries of a record may stand in any order. -/
inductive Represents {ν : Type} (r : Reading Option ν) : Data → ν → Prop
  | text {s : String} {v : ν} : r.text v = some s → Represents r (.text s) v
  | int {n : Int} {v : ν} : r.int v = some n → Represents r (.int n) v
  | bool {b : Bool} {v : ν} : r.bool v = some b → Represents r (.bool b) v
  | null {v : ν} : r.list v = some none → Represents r .null v
  | list {ds : List Data} {vs : List ν} {v : ν} : r.list v = some (some vs) → List.Forall₂ (Represents r) ds vs →
      Represents r (.list ds) v
  | record {es : List (String × Data)} {ts : List ((String × Data) × ν)} {v : ν} :
      (∀ keys : List String, keys.Nodup → (∀ e ∈ es, e.1 ∈ keys) →
        r.fields keys v = some (some (ts.map fun t ↦ (t.1.1, t.2)))) →
      (es.map (·.1)).Nodup → (ts.map (·.1)).Perm es → (∀ t ∈ ts, Represents r t.1.2 t.2) → Represents r (.record es) v

section reading

variable {ν α β : Type} {r : Reading Option ν}

/-- Fields that are each set once come to what they are set to, whatever their order. -/
theorem foldlM_copies {set : α → String → ν → Option α} {copy : α → String → α} {old : α} (ws : List (String × ν))
    (done : List String) (hnodup : (done ++ ws.map (·.1)).Nodup)
    (hset : ∀ w ∈ ws, ∀ ks : List String, w.1 ∉ ks → set (ks.foldl copy old) w.1 w.2 =
    some (copy (ks.foldl copy old) w.1)) : ws.foldlM (fun x w ↦ set x w.1 w.2) (done.foldl copy old) =
    some ((done ++ ws.map (·.1)).foldl copy old) := by
  induction ws generalizing done with
  | nil => simp
  | cons w ws ih =>
    have hw : w.1 ∉ done := fun hmem ↦
      (List.nodup_append'.mp hnodup).2.2 hmem (by simp)
    rw [List.foldlM_cons, hset w List.mem_cons_self done hw, Option.bind_eq_bind, Option.bind_some]
    have hdone : copy (done.foldl copy old) w.1 = (done ++ [w.1]).foldl copy old := by
      rw [List.foldl_append, List.foldl_cons, List.foldl_nil]
    have happend : done ++ (w :: ws).map (·.1) = (done ++ [w.1]) ++ ws.map (·.1) := by simp
    rw [happend] at hnodup ⊢
    rw [hdone]
    exact ih _ hnodup fun w' hw' ↦ hset w' (List.mem_cons_of_mem _ hw')

theorem Represents.read_record {es : List (String × Data)} {v : ν} (h : Represents r (.record es) v)
    {keys : List String} (hkeys : keys.Nodup) (hmem : ∀ e ∈ es, e.1 ∈ keys) {set : α → String → ν → Option α}
    {copy : α → String → α} (empty old : α) (hset : ∀ k d, (k, d) ∈ es → ∀ w, Represents r d w →
    ∀ ks : List String, k ∉ ks →
      set (ks.foldl copy old) k w = some (copy (ks.foldl copy old) k)) :
    ∃ ks : List String, (∀ k, k ∈ ks ↔ k ∈ es.map (·.1)) ∧ r.record empty keys set old v =
    some (ks.foldl copy old) := by
  cases h with
  | @record _ ts _ hfields hnodup hperm hreps =>
    have hnames : (ts.map fun t ↦ (t.1.1, t.2)).map (·.1) = (ts.map (·.1)).map (·.1) := by
      rw [List.map_map, List.map_map]
      rfl
    have hsame := hperm.map (·.1)
    refine ⟨(ts.map (·.1)).map (·.1), fun k ↦ hsame.mem_iff, ?_⟩
    rw [Reading.record, hfields keys hkeys hmem, ← hnames]
    refine foldlM_copies _ [] (by rw [hnames]; exact hsame.nodup_iff.mpr hnodup) fun w hw ks hks ↦ ?_
    obtain ⟨t, ht, rfl⟩ := List.mem_map.mp hw
    exact hset _ _ (hperm.mem_iff.mp (List.mem_map_of_mem ht)) _ (hreps t ht) ks hks

theorem Represents.read_texts {ss : List String} {v : ν} (h : Represents r (.list (ss.map .text)) v)
    (old : List String) : r.texts old v = some ss := by
  cases h with
  | list hlist hall =>
    rw [Reading.texts, hlist, Option.bind_eq_bind, Option.bind_some]
    clear hlist
    rw [List.forall₂_map_left_iff] at hall
    induction hall with
    | nil => rfl
    | cons hs _ ih =>
      cases hs with
      | text hs =>
        dsimp only at ih ⊢
        rw [List.mapM_cons, hs, ih]
        rfl

theorem Represents.read_slots {f : β → Data} {g : β → α} {xs : List β} {v : ν} {empty : α} {read : α → ν → Option α}
    (h : Represents r (.list (xs.map f)) v) (hread : ∀ x ∈ xs, ∀ w, Represents r (f x) w → read empty w = some (g x)) :
    r.slots empty read {} v = some ⟨xs.map g, some xs.length⟩ := by
  cases h with
  | @list _ vs _ hlist hall =>
    have hlen : vs.length = xs.length := by rw [← hall.length_eq, List.length_map]
    have hitems : Reading.reread empty read [] vs = some (xs.map g) := by
      clear hlist hlen
      rw [List.forall₂_map_left_iff] at hall
      induction hall with
      | nil => rfl
      | @cons x w xs vs hx _ ih =>
        have hhead := hread x List.mem_cons_self w hx
        have htail := ih fun y hy ↦ hread y (List.mem_cons_of_mem _ hy)
        rw [Reading.reread, List.head?_nil, Option.getD_none, hhead, List.tail_nil, htail]
        rfl
    rw [Reading.slots, hlist, Option.bind_eq_bind, Option.bind_some]
    dsimp only
    rw [hitems, hlen]
    rfl

end reading

@[simp] theorem mem_optional {key : String} {empty : Bool} {d : Data} {e : String × Data} :
    e ∈ optional key empty d ↔ empty = false ∧ e = (key, d) := by
  cases empty <;> simp [optional]

@[simp] theorem map_optional (key : String) (empty : Bool) (d : Data) :
    (optional key empty d).map (·.1) = if empty then [] else [key] := by
  cases empty <;> rfl

theorem ite_mem_cons {α : Type} (key k : String) (ks : List String) (new old : α) :
    (if key ∈ ks then new else if k = key then new else old) = if key ∈ k :: ks then new else old := by
  by_cases hk : k = key
  · simp [hk]
  · simp [hk, Ne.symm hk]

section images

variable {ν : Type} {r : Reading Option ν} {v : ν}

def copyField (f x : FieldDecl) (k : String) : FieldDecl :=
  ⟨if k = "name" then f.name else x.name, if k = "type" then f.type else x.type,
    if k = "static" then f.isStatic else x.isStatic⟩

theorem foldl_copyField (f x : FieldDecl) (ks : List String) : ks.foldl (copyField f) x =
    ⟨if "name" ∈ ks then f.name else x.name, if "type" ∈ ks then f.type else x.type,
      if "static" ∈ ks then f.isStatic else x.isStatic⟩ := by
  induction ks generalizing x with
  | nil => rfl
  | cons k ks ih => simp only [List.foldl_cons, ih, copyField, ite_mem_cons]

def fieldEntries (f : FieldDecl) : List (String × Data) :=
  [("name", .text f.name), ("type", .text f.type)] ++ boolEntry "static" f.isStatic

theorem setField_copies {f : FieldDecl} {k : String} {d : Data} (hd : (k, d) ∈ fieldEntries f) (hv : Represents r d v)
    (x : FieldDecl) : setField r x k v = some (copyField f x k) := by
  simp only [fieldEntries, boolEntry, List.mem_append, List.mem_cons, List.not_mem_nil, or_false, mem_optional,
    Prod.mk.injEq] at hd
  rcases hd with (⟨rfl, rfl⟩ | ⟨rfl, rfl⟩) | ⟨-, rfl, rfl⟩ <;> cases hv <;> rename_i hv <;>
    simp [setField, copyField, hv]

theorem readField_represents {f : FieldDecl} (h : Represents r (fieldData f) v) : readField r {} v = some f := by
  have hmem : ∀ e ∈ fieldEntries f, e.1 ∈ fieldKeys := by simp [fieldEntries, fieldKeys, boolEntry]
  have h : Represents r (.record (fieldEntries f)) v := h
  obtain ⟨ks, hks, hread⟩ := h.read_record (by decide) hmem {} {} fun k d hd w hw ks _ ↦ setField_copies hd hw _
  rw [readField, hread, foldl_copyField]
  cases f
  simp [hks, fieldEntries, boolEntry]

def copyMethod (m x : MethodDecl) (k : String) : MethodDecl where
  name := if k = "name" then m.name else x.name
  isStatic := if k = "static" then m.isStatic else x.isStatic
  isCtor := if k = "ctor" then m.isCtor else x.isCtor
  returns := if k = "returns" then m.returns else x.returns
  params := if k = "params" then m.params else x.params
  maxStack := if k = "maxstack" then m.maxStack else x.maxStack
  locals := if k = "locals" then m.locals else x.locals
  source := if k = "il" then m.source else x.source
  hex := if k = "hex" then m.hex else x.hex

theorem foldl_copyMethod (m x : MethodDecl) (ks : List String) : ks.foldl (copyMethod m) x =
    ⟨if "name" ∈ ks then m.name else x.name, if "static" ∈ ks then m.isStatic else x.isStatic,
      if "ctor" ∈ ks then m.isCtor else x.isCtor, if "returns" ∈ ks then m.returns else x.returns,
      if "params" ∈ ks then m.params else x.params, if "maxstack" ∈ ks then m.maxStack else x.maxStack,
      if "locals" ∈ ks then m.locals else x.locals, if "il" ∈ ks then m.source else x.source,
      if "hex" ∈ ks then m.hex else x.hex⟩ := by
  induction ks generalizing x with
  | nil => rfl
  | cons k ks ih => simp only [List.foldl_cons, ih, copyMethod, ite_mem_cons]

def methodEntries (m : MethodDecl) : List (String × Data) :=
  [("name", .text m.name)] ++ boolEntry "static" m.isStatic ++ boolEntry "ctor" m.isCtor ++
    textEntry "returns" m.returns ++ listEntry "params" .text m.params ++ intEntry "maxstack" m.maxStack ++
    listEntry "locals" .text m.locals ++ textEntry "il" m.source ++ textEntry "hex" m.hex

theorem setMethod_copies {m : MethodDecl} {k : String} {d : Data} (hd : (k, d) ∈ methodEntries m)
    (hv : Represents r d v) (x : MethodDecl) : setMethod r x k v = some (copyMethod m x k) := by
  simp only [methodEntries, boolEntry, textEntry, intEntry, listEntry, List.mem_append, List.mem_cons, List.not_mem_nil,
    or_false, mem_optional, Prod.mk.injEq] at hd
  rcases hd with (((((((⟨rfl, rfl⟩ | ⟨-, rfl, rfl⟩) | ⟨-, rfl, rfl⟩) | ⟨-, rfl, rfl⟩) | ⟨-, rfl, rfl⟩) | ⟨-, rfl,
    rfl⟩) | ⟨-, rfl, rfl⟩) | ⟨-, rfl, rfl⟩) | ⟨-, rfl, rfl⟩
  case inl.inl.inl.inl.inr | inl.inl.inr => simp [setMethod, copyMethod, hv.read_texts]
  all_goals
    cases hv
    rename_i hv
    simp [setMethod, copyMethod, hv]

theorem readMethod_represents {m : MethodDecl} (h : Represents r (methodData m) v) : readMethod r {} v = some m := by
  have hmem : ∀ e ∈ methodEntries m, e.1 ∈ methodKeys := by
    intro e he
    simp only [methodEntries, boolEntry, textEntry, intEntry, listEntry, List.mem_append, List.mem_cons,
      List.not_mem_nil, or_false, mem_optional] at he
    rcases he with (((((((rfl | ⟨-, rfl⟩) | ⟨-, rfl⟩) | ⟨-, rfl⟩) | ⟨-, rfl⟩) | ⟨-, rfl⟩) | ⟨-, rfl⟩) | ⟨-, rfl⟩) | ⟨-,
      rfl⟩ <;> simp [methodKeys]
  have h : Represents r (.record (methodEntries m)) v := h
  obtain ⟨ks, hks, hread⟩ := h.read_record (by decide) hmem {} {} fun k d hd w hw ks _ ↦ setMethod_copies hd hw _
  rw [readMethod, hread, foldl_copyMethod]
  cases m
  simp [hks, methodEntries, boolEntry, textEntry, intEntry, listEntry]
  exact Eq.symm

def slotsOf {α : Type} (xs : List α) : Slots α := ⟨xs, some xs.length⟩

@[simp] theorem toList_empty {α : Type} : ({} : Slots α).toList = [] := rfl

@[simp] theorem toList_slotsOf {α : Type} (xs : List α) : (slotsOf xs).toList = xs := by
  simp [slotsOf, Slots.toList, Slots.toList?]

def copyType (t : TypeDecl) (x : TypeDraft) (k : String) : TypeDraft where
  head :=
    { space := if k = "namespace" then t.space else x.head.space
      name := if k = "name" then t.name else x.head.name
      kind := if k = "kind" then t.kind else x.head.kind
      arity := if k = "arity" then t.arity else x.head.arity
      fields := x.head.fields
      methods := x.head.methods }
  fields := if k = "fields" then slotsOf t.fields else x.fields
  methods := if k = "methods" then slotsOf t.methods else x.methods

theorem foldl_copyType (t : TypeDecl) (x : TypeDraft) (ks : List String) : ks.foldl (copyType t) x =
    ⟨⟨if "namespace" ∈ ks then t.space else x.head.space, if "name" ∈ ks then t.name else x.head.name,
        if "kind" ∈ ks then t.kind else x.head.kind, if "arity" ∈ ks then t.arity else x.head.arity, x.head.fields,
        x.head.methods⟩,
      if "fields" ∈ ks then slotsOf t.fields else x.fields, if "methods" ∈ ks then slotsOf
      t.methods else x.methods⟩ := by
  induction ks generalizing x with
  | nil => rfl
  | cons k ks ih => simp only [List.foldl_cons, ih, copyType, ite_mem_cons]

def typeEntries (t : TypeDecl) : List (String × Data) :=
  textEntry "namespace" t.space ++ [("name", .text t.name), ("kind", .text t.kind)] ++ intEntry "arity" t.arity ++
    listEntry "fields" fieldData t.fields ++ listEntry "methods" methodData t.methods

theorem setType_copies {t : TypeDecl} {k : String} {d : Data} (hd : (k, d) ∈ typeEntries t) (hv : Represents r d v)
    {ks : List String} (hk : k ∉ ks) :
    setType r (ks.foldl (copyType t) {}) k v = some (copyType t (ks.foldl (copyType t) {}) k) := by
  simp only [typeEntries, textEntry, intEntry, listEntry, List.mem_append, List.mem_cons, List.not_mem_nil, or_false,
    mem_optional, Prod.mk.injEq] at hd
  rcases hd with (((⟨-, rfl, rfl⟩ | ⟨rfl, rfl⟩ | ⟨rfl, rfl⟩) | ⟨-, rfl, rfl⟩) | ⟨-, rfl, rfl⟩) | ⟨-, rfl, rfl⟩
  case inl.inr =>
    have hslots := hv.read_slots (g := id) fun f _ w hw ↦ readField_represents hw
    simp [foldl_copyType, setType, copyType, hk, hslots, slotsOf]
  case inr =>
    have hslots := hv.read_slots (g := id) fun m _ w hw ↦ readMethod_represents hw
    simp [foldl_copyType, setType, copyType, hk, hslots, slotsOf]
  all_goals
    cases hv
    rename_i hv
    simp [setType, copyType, hv]

def draftOf (t : TypeDecl) : TypeDraft :=
  ⟨{ t with fields := [], methods := [] }, if t.fields = [] then {} else slotsOf t.fields,
    if t.methods = [] then {} else slotsOf t.methods⟩

theorem decl_draftOf (t : TypeDecl) : (draftOf t).decl = t := by
  obtain ⟨space, name, kind, arity, fields, methods⟩ := t
  cases fields <;> cases methods <;> simp [draftOf, TypeDraft.decl]

theorem readType_represents {t : TypeDecl} (h : Represents r (typeData t) v) : readType r {} v = some (draftOf t) := by
  have hmem : ∀ e ∈ typeEntries t, e.1 ∈ typeKeys := by
    intro e he
    simp only [typeEntries, textEntry, intEntry, listEntry, List.mem_append, List.mem_cons, List.not_mem_nil, or_false,
      mem_optional] at he
    rcases he with (((⟨-, rfl⟩ | rfl | rfl) | ⟨-, rfl⟩) | ⟨-, rfl⟩) | ⟨-, rfl⟩ <;> simp [typeKeys]
  have h : Represents r (.record (typeEntries t)) v := h
  obtain ⟨ks, hks, hread⟩ := h.read_record (by decide) hmem ({} : TypeDraft) {} fun k d hd w hw ks hk ↦
    setType_copies hd hw hk
  rw [readType, hread, foldl_copyType]
  cases t
  simp [draftOf, hks, typeEntries, textEntry, intEntry, listEntry]
  exact Eq.symm

def copyImage (i : Image) (x : ImageDraft) (k : String) : ImageDraft where
  name := if k = "name" then i.name else x.name
  imports := if k = "imports" then i.imports else x.imports
  types := if k = "types" then (i.types.map fun ts ↦ slotsOf (ts.map draftOf)).getD {} else x.types

theorem foldl_copyImage (i : Image) (x : ImageDraft) (ks : List String) : ks.foldl (copyImage i) x =
    ⟨if "name" ∈ ks then i.name else x.name, if "imports" ∈ ks then i.imports else x.imports,
      if "types" ∈ ks then (i.types.map fun ts ↦ slotsOf (ts.map draftOf)).getD {} else x.types⟩ := by
  induction ks generalizing x with
  | nil => rfl
  | cons k ks ih => simp only [List.foldl_cons, ih, copyImage, ite_mem_cons]

def typesData (i : Image) : Data :=
  match i.types with
  | some ts => .list (ts.map typeData)
  | none => .null

def imageEntries (i : Image) : List (String × Data) :=
  [("name", .text i.name)] ++ listEntry "imports" .text i.imports ++ [("types", typesData i)]

theorem setImage_copies {i : Image} {k : String} {d : Data} (hd : (k, d) ∈ imageEntries i) (hv : Represents r d v)
    {ks : List String} (hk : k ∉ ks) :
    setImage r (ks.foldl (copyImage i) {}) k v = some (copyImage i (ks.foldl (copyImage i) {}) k) := by
  simp only [imageEntries, listEntry, List.mem_append, List.mem_cons, List.not_mem_nil, or_false, mem_optional,
    Prod.mk.injEq] at hd
  rcases hd with (⟨rfl, rfl⟩ | ⟨-, rfl, rfl⟩) | ⟨rfl, rfl⟩
  · cases hv with
    | text hv => simp [setImage, copyImage, hv]
  · simp [setImage, copyImage, hv.read_texts]
  · unfold typesData at hv
    cases htypes : i.types with
    | none =>
      rw [htypes] at hv
      cases hv with
      | null hv => simp [foldl_copyImage, setImage, copyImage, hk, htypes, Reading.slots, hv]
    | some ts =>
      rw [htypes] at hv
      have hslots := hv.read_slots fun t _ w hw ↦ readType_represents hw
      simp [foldl_copyImage, setImage, copyImage, hk, htypes, hslots, slotsOf]

theorem readImage_represents {i : Image} (h : Represents r (imageData i) v) : readImage r v = some i := by
  have hmem : ∀ e ∈ imageEntries i, e.1 ∈ imageKeys := by
    intro e he
    simp only [imageEntries, listEntry, List.mem_append, List.mem_cons, List.not_mem_nil, or_false, mem_optional] at he
    rcases he with (rfl | ⟨-, rfl⟩) | rfl <;> simp [imageKeys]
  have h : Represents r (.record (imageEntries i)) v := h
  obtain ⟨ks, hks, hread⟩ := h.read_record (by decide) hmem ({} : ImageDraft) {} fun k d hd w hw ks hk ↦
    setImage_copies hd hw hk
  rw [readImage, readDraft, hread, foldl_copyImage]
  obtain ⟨name, imports, types⟩ := i
  have htypes : (slotsOf ((types.getD []).map draftOf)).toList?.map (·.map TypeDraft.decl) = some (types.getD []) := by
    simp [slotsOf, Slots.toList?, Function.comp_def, decl_draftOf]
  cases types with
  | none => simp [hks, imageEntries, listEntry, ImageDraft.image, Slots.toList?]
  | some ts => simpa [hks, imageEntries, listEntry, ImageDraft.image] using htypes

end images

end CilSsa.Codec

