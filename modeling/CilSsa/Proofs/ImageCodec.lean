import CilSsa.Proofs.BinaryFormats

namespace CilSsa.Image

open CilSsa.Text

/-- The texts of a field have fewer than `t` bytes. -/
structure FieldDecl.Within (t : Nat) (f : FieldDecl) : Prop where
  name : (utf8Bytes f.name).length < t
  type : (utf8Bytes f.type).length < t

/-- The texts of a method have fewer than `t` bytes and its lists fewer than `l` items, and its number has 64 bits. -/
structure MethodDecl.Within (t l : Nat) (m : MethodDecl) : Prop where
  texts : ∀ s ∈ [m.name, m.returns, m.source, m.hex] ++ m.params ++ m.locals, (utf8Bytes s).length < t
  params : m.params.length < l
  locals : m.locals.length < l
  maxStack : -2 ^ 63 ≤ m.maxStack ∧ m.maxStack < 2 ^ 63

structure TypeDecl.Within (t l : Nat) (d : TypeDecl) : Prop where
  texts : ∀ s ∈ [d.space, d.name, d.kind], (utf8Bytes s).length < t
  arity : -2 ^ 63 ≤ d.arity ∧ d.arity < 2 ^ 63
  fields : d.fields.length < l
  methods : d.methods.length < l
  eachField : ∀ f ∈ d.fields, f.Within t
  eachMethod : ∀ m ∈ d.methods, m.Within t l

end CilSsa.Image

namespace CilSsa

open CilSsa.Codec CilSsa.Image CilSsa.Text

structure Image.Within (t l : Nat) (i : Image) : Prop where
  texts : ∀ s ∈ i.name :: i.imports, (utf8Bytes s).length < t
  imports : i.imports.length < l
  types : i.typeList.length < l
  eachType : ∀ d ∈ i.typeList, d.Within t l

end CilSsa

namespace CilSsa.Codec

open CilSsa.Image CilSsa.Text

section within

variable {t l : Nat}

theorem within_texts {ss : List String} (hl : ss.length < l) (h : ∀ s ∈ ss, (utf8Bytes s).length < t) (n : Nat) :
    (Data.list (ss.map .text)).Within t l (n + 1) := by
  refine .list (by rwa [List.length_map]) fun d hd ↦ ?_
  obtain ⟨s, hs, rfl⟩ := List.mem_map.mp hd
  exact .text (h s hs)

theorem within_record {es : List (String × Data)} {keys : List String} {n : Nat} (hkeys : (es.map (·.1)).Sublist keys)
    (hnodup : keys.Nodup) (hshort : ∀ k ∈ keys, (utf8Bytes k).length < t) (hl : keys.length < l)
    (h : ∀ e ∈ es, e.2.Within t l n) : (Data.record es).Within t l (n + 1) := by
  refine .record ?_ (hkeys.nodup hnodup) (fun e he ↦ hshort _ (hkeys.subset (List.mem_map_of_mem he))) h
  rw [← List.length_map (f := (·.1))]
  exact hkeys.length_le.trans_lt hl

theorem sublist_optional {es : List (String × Data)} {ks : List String} (h : (es.map (·.1)).Sublist ks) (key : String)
    (empty : Bool) (d : Data) : ((es ++ optional key empty d).map (·.1)).Sublist (ks ++ [key]) := by
  rw [List.map_append, map_optional]
  refine h.append ?_
  cases empty
  · exact List.Sublist.refl _
  · exact List.nil_sublist _

theorem keys_fieldEntries (f : FieldDecl) : ((fieldEntries f).map (·.1)).Sublist fieldKeys := by
  change List.Sublist _ (["name", "type"] ++ ["static"])
  exact sublist_optional (.refl _) _ _ _

theorem keys_methodEntries (m : MethodDecl) : ((methodEntries m).map (·.1)).Sublist methodKeys := by
  change List.Sublist _ (["name"] ++ ["static"] ++ ["ctor"] ++ ["returns"] ++ ["params"] ++ ["maxstack"] ++
    ["locals"] ++ ["il"] ++ ["hex"])
  unfold methodEntries
  repeat' refine sublist_optional ?_ _ _ _
  exact .refl _

theorem keys_typeEntries (d : TypeDecl) : ((typeEntries d).map (·.1)).Sublist typeKeys := by
  change List.Sublist _ (["namespace"] ++ ["name", "kind"] ++ ["arity"] ++ ["fields"] ++ ["methods"])
  unfold typeEntries
  refine sublist_optional (sublist_optional (sublist_optional ?_ _ _ _) _ _ _) _ _ _
  rw [List.map_append]
  refine List.Sublist.append ?_ (.refl _)
  exact @sublist_optional [] [] (.refl []) "namespace" _ _

theorem keys_imageEntries (i : Image) : ((imageEntries i).map (·.1)).Sublist imageKeys := by
  change List.Sublist _ (["name"] ++ ["imports"] ++ ["types"])
  rw [imageEntries, List.map_append]
  refine .append (sublist_optional (.refl _) _ _ _) (.refl _)

theorem key_length_le : ∀ k ∈ imageKeys ++ typeKeys ++ fieldKeys ++ methodKeys, (utf8Bytes k).length ≤ 9 := by
  decide +kernel

variable (ht : 9 < t) (hl : 9 < l)

include ht hl

theorem within_fieldData {f : FieldDecl} (h : f.Within t) (n : Nat) : (fieldData f).Within t l (n + 1) := by
  refine within_record (keys_fieldEntries f) (by decide) (fun k hk ↦ ?_) (lt_trans (by decide) hl) ?_
  · exact (key_length_le k (by simp [hk])).trans_lt ht
  · intro e he
    simp only [boolEntry, List.mem_append, List.mem_cons, List.not_mem_nil, or_false, mem_optional] at he
    rcases he with (rfl | rfl) | ⟨-, rfl⟩
    · exact .text h.name
    · exact .text h.type
    · exact .bool

theorem within_methodData {m : MethodDecl} (h : m.Within t l) (n : Nat) : (methodData m).Within t l (n + 2) := by
  refine within_record (keys_methodEntries m) (by decide) (fun k hk ↦ ?_) (lt_of_le_of_lt (by decide) hl) ?_
  · exact (key_length_le k (by simp [hk])).trans_lt ht
  · have hparams := within_texts h.params (fun s hs ↦ h.texts s (by simp [hs])) n
    have hlocals := within_texts h.locals (fun s hs ↦ h.texts s (by simp [hs])) n
    intro e he
    simp only [boolEntry, textEntry, intEntry, listEntry, List.mem_append, List.mem_cons, List.not_mem_nil,
      or_false, mem_optional] at he
    rcases he with (((((((rfl | ⟨-, rfl⟩) | ⟨-, rfl⟩) | ⟨-, rfl⟩) | ⟨-, rfl⟩) | ⟨-, rfl⟩) | ⟨-, rfl⟩) | ⟨-, rfl⟩) | ⟨-,
      rfl⟩
    · exact .text (h.texts _ (by simp))
    · exact .bool
    · exact .bool
    · exact .text (h.texts _ (by simp))
    · exact hparams
    · exact .int h.maxStack.1 h.maxStack.2
    · exact hlocals
    · exact .text (h.texts _ (by simp))
    · exact .text (h.texts _ (by simp))

theorem within_typeData {d : TypeDecl} (h : d.Within t l) (n : Nat) : (typeData d).Within t l (n + 4) := by
  refine within_record (keys_typeEntries d) (by decide) (fun k hk ↦ ?_) (lt_of_le_of_lt (by decide) hl) ?_
  · exact (key_length_le k (by simp [hk])).trans_lt ht
  · intro e he
    simp only [textEntry, intEntry, listEntry, List.mem_append, List.mem_cons, List.not_mem_nil, or_false,
      mem_optional] at he
    rcases he with (((⟨-, rfl⟩ | rfl | rfl) | ⟨-, rfl⟩) | ⟨-, rfl⟩) | ⟨-, rfl⟩
    · exact .text (h.texts _ (by simp))
    · exact .text (h.texts _ (by simp))
    · exact .text (h.texts _ (by simp))
    · exact .int h.arity.1 h.arity.2
    · refine .list (by rw [List.length_map]; exact h.fields) fun x hx ↦ ?_
      obtain ⟨f, hf, rfl⟩ := List.mem_map.mp hx
      exact within_fieldData ht hl (h.eachField f hf) _
    · refine .list (by rw [List.length_map]; exact h.methods) fun x hx ↦ ?_
      obtain ⟨m, hm, rfl⟩ := List.mem_map.mp hx
      exact within_methodData ht hl (h.eachMethod m hm) _

theorem within_typesData {i : Image} (h : i.Within t l) (n : Nat) : (typesData i).Within t l (n + 5) := by
  unfold typesData
  cases htypes : i.types with
  | none => exact .null
  | some ts =>
    have hlist : i.typeList = ts := by rw [Image.typeList, htypes, Option.getD_some]
    refine .list (by rw [List.length_map, ← hlist]; exact h.types) fun x hx ↦ ?_
    obtain ⟨d, hd, rfl⟩ := List.mem_map.mp hx
    exact within_typeData ht hl (h.eachType d (hlist ▸ hd)) _

theorem within_imageData {i : Image} (h : i.Within t l) (n : Nat) : (imageData i).Within t l (n + 6) := by
  refine within_record (keys_imageEntries i) (by decide) (fun k hk ↦ ?_)
    (lt_of_le_of_lt (by decide) hl) ?_
  · exact (key_length_le k (by simp [hk])).trans_lt ht
  · have himports := within_texts h.imports (fun s hs ↦ h.texts s (by simp [hs])) (n + 4)
    intro e he
    simp only [listEntry, List.mem_append, List.mem_cons, List.not_mem_nil, or_false, mem_optional] at he
    rcases he with (rfl | ⟨-, rfl⟩) | rfl
    · exact .text (h.texts _ (by simp))
    · exact himports
    · exact within_typesData ht hl h n

end within

def Libraries.of? (libs : Libraries) : Format → Option Library
  | .messagePack => some libs.messagePack
  | .cbor => some libs.cbor
  | .yaml | .other _ => none

/-- With a library that reads what it wrote, an image is the same after it was encoded and decoded, and no two fields of
an image, a type, a field or a method have one key. -/
theorem decodeImage_encodeImage (libs : Libraries) (f : Format) (lib : Library)
    (hlib : libs.of? f = some lib) {t l : Nat} (ht : 9 < t) (hl : 9 < l) (hconforms : lib.Conforms t l) (i : Image)
    (h : i.Within t l) : (∃ bs, encodeImage libs f i = .ok bs ∧ decodeImage libs f bs = .ok i) ∧
      imageKeys.Nodup ∧ typeKeys.Nodup ∧ fieldKeys.Nodup ∧ methodKeys.Nodup := by
  refine ⟨?_, by decide, by decide, by decide, by decide⟩
  obtain ⟨x, hx, hrep⟩ := hconforms _ (within_imageData ht hl h 26)
  have hread : lib.decodeImage? (lib.encode (imageData i)) = some i := by
    rw [Library.decodeImage?, hx, Option.bind_some, readImage_represents hrep]
  have hok : orMalformed (lib.decodeImage? (lib.encode (imageData i))) = .ok i := by
    rw [hread]
    rfl
  cases f with
  | messagePack =>
    cases hlib
    exact ⟨_, rfl, hok⟩
  | cbor =>
    cases hlib
    exact ⟨_, rfl, hok⟩
  | yaml => cases hlib
  | other n => cases hlib

def counterImage : Image where
  name := "Counter"
  imports := ["Core"]
  types := some [{ space := "App", name := "Counter", kind := "class", arity := 1
                   fields := [⟨"n", "int32", true⟩]
                   methods := [{ name := "Next", isStatic := true, returns := "int32", params := ["!0"], maxStack := 2,
                                 source := "ldarg.0\nret" }] }]

theorem decodeImage_encodeImage_counter : ∃ bs bs',
    encodeImage .standard .messagePack counterImage = .ok bs ∧ decodeImage .standard .messagePack bs =
    .ok counterImage ∧
      encodeImage .standard .cbor counterImage = .ok bs' ∧ decodeImage .standard .cbor bs' = .ok counterImage := by
  have hfits : ∀ t l : Nat, 16 ≤ t → 2 ≤ l → counterImage.Within t l := by
    intro t l ht hl
    have htexts : ∀ s ∈ ["Counter", "Core", "App", "class", "n", "int32", "Next", "!0", "", "ldarg.0\nret"],
        (utf8Bytes s).length < 16 := by decide +kernel
    refine ⟨fun s hs ↦ ?_, hl, hl, fun d hd ↦ ?_⟩
    · exact (htexts s (by simp [counterImage] at hs; simp; tauto)).trans_le ht
    · cases List.mem_singleton.mp hd
      refine ⟨fun s hs ↦ ?_, by decide, hl, hl, fun f hf ↦ ?_, fun m hm ↦ ?_⟩
      · exact (htexts s (by simp at hs; simp; tauto)).trans_le ht
      · cases List.mem_singleton.mp hf
        exact ⟨(htexts "n" (by simp)).trans_le ht, (htexts "int32" (by simp)).trans_le ht⟩
      · cases List.mem_singleton.mp hm
        refine ⟨fun s hs ↦ ?_, hl, (Nat.zero_le 1).trans_lt hl, by decide⟩
        exact (htexts s (by simp at hs; simp; tauto)).trans_le ht
  obtain ⟨⟨bs, henc, hdec⟩, -⟩ := decodeImage_encodeImage .standard .messagePack MessagePack.library rfl
    (by decide) (by decide) MessagePack.conforms counterImage (hfits _ _ (by decide) (by decide))
  obtain ⟨⟨bs', henc', hdec'⟩, -⟩ := decodeImage_encodeImage .standard .cbor Cbor.library rfl (by decide) (by decide)
    Cbor.conforms counterImage (hfits _ _ (by decide) (by decide))
  exact ⟨bs, bs', henc, hdec, henc', hdec'⟩

end CilSsa.Codec

