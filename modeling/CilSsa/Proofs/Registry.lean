import CilSsa.Lowering.Method
import CilSsa.Lowering.Request
import CilSsa.Proofs.Composition
import CilSsa.Proofs.Effects
import Mathlib.Data.List.Nodup
import Mathlib.Data.List.Perm.Subperm
import Std.Data.String.ToNat

namespace CilSsa.Lowering

open CilSsa.Metadata CilSsa.Text
open CilSsa.Ssa (memsetName)

def PlainText (s : String) : Prop := ∀ c ∈ s.toList, c.toNat < 0xC0

theorem PlainText.append {s t : String} (hs : PlainText s) (ht : PlainText t) : PlainText (s ++ t) := by
  intro c hc
  rw [String.toList_append, List.mem_append] at hc
  exact hc.elim (hs c) (ht c)

theorem digitChar_plain (n : Nat) : n.digitChar.toNat < 0xC0 := by
  rcases Nat.lt_or_ge n 16 with h | h
  · decide +revert
  · unfold Nat.digitChar
    repeat rw [if_neg (by omega)]
    decide

theorem toDigits_plain {b : Nat} (hb : 1 < b) (n : Nat) : ∀ c ∈ b.toDigits n, c.toNat < 0xC0 := by
  induction n using Nat.strongRecOn with
  | ind n ih =>
    intro c hc
    rw [Nat.toDigits_eq_if hb] at hc
    split at hc
    · obtain rfl := List.mem_singleton.mp hc
      exact digitChar_plain n
    · rename_i hn
      rcases List.mem_append.mp hc with hc | hc
      · exact ih _ (Nat.div_lt_self (by omega) hb) c hc
      · obtain rfl := List.mem_singleton.mp hc
        exact digitChar_plain _

theorem plain_hexDigits (n : Nat) : PlainText (hexDigits n) := by
  intro c hc
  rw [hexDigits, String.toList_ofList] at hc
  exact toDigits_plain (by decide) n c hc

theorem plain_toString (n : Nat) : PlainText (toString n) := by
  intro c hc
  have hn : (toString n).toList = Nat.toDigits 10 n := by
    change (String.ofList (Nat.toDigits 10 n)).toList = _
    exact String.toList_ofList
  rw [hn] at hc
  exact toDigits_plain (by decide) n c hc

def candidate (base : String) (i : Nat) : String := if i = 0 then base else base ++ "." ++ toString i

theorem plain_dot (i : Nat) : PlainText ("." ++ toString i) :=
  PlainText.append (by simp [PlainText]) (plain_toString i)

theorem composed_candidate (base : String) {i : Nat} (hi : i ≠ 0) :
    composed (candidate base i) = composed base ++ ("." ++ toString i) := by
  rw [candidate, if_neg hi, String.append_assoc]
  exact composed_append_plain _ _ (plain_dot i)

theorem composed_candidate_injective (base : String) : Function.Injective fun i ↦ composed (candidate base i) := by
  have hne : ∀ i, i ≠ 0 → composed (candidate base i) ≠ composed base := by
    intro i hi h
    rw [composed_candidate base hi] at h
    have := congrArg String.length h
    simp only [String.length_append] at this
    have hdot : (".").length = 1 := rfl
    omega
  intro i j hij
  dsimp only at hij
  by_cases hi : i = 0
  · by_cases hj : j = 0
    · rw [hi, hj]
    · subst hi
      exact absurd hij.symm (hne j hj)
  · by_cases hj : j = 0
    · subst hj
      exact absurd hij (hne i hi)
    · rw [composed_candidate base hi, composed_candidate base hj, String.append_right_inj,
        String.append_right_inj] at hij
      exact Nat.repr_inj.mp hij

theorem freeName_cases (taken : String → Bool) (base : String) (fuel i : Nat) :
    (∃ j, i ≤ j ∧ j < i + fuel ∧ freeName taken base fuel i = candidate base j ∧ taken (candidate base j) = false) ∨
    (freeName taken base fuel i = base ∧ ∀ j, i ≤ j → j < i + fuel → taken (candidate base j) = true) := by
  induction fuel generalizing i with
  | zero => exact .inr ⟨rfl, fun j _ _ ↦ by omega⟩
  | succ fuel ih =>
    rw [freeName]
    change (∃ j, _ ∧ _ ∧ (if taken (candidate base i) then _ else candidate base i) = _ ∧ _) ∨
      (if taken (candidate base i) then _ else candidate base i) = _ ∧ _
    by_cases ht : taken (candidate base i) = true
    · rw [if_pos ht]
      rcases ih (i + 1) with ⟨j, h1, h2, h3, h4⟩ | ⟨h1, h2⟩
      · exact .inl ⟨j, by omega, by omega, h3, h4⟩
      · refine .inr ⟨h1, fun j hj hj' ↦ ?_⟩
        rcases Nat.eq_or_lt_of_le hj with rfl | hj
        · exact ht
        · exact h2 j (by omega) (by omega)
    · rw [if_neg ht]
      exact .inl ⟨i, Nat.le_refl i, by omega, rfl, by simpa using ht⟩

theorem freeName_candidate (taken : String → Bool) (base : String) (fuel : Nat) :
    ∃ j, freeName taken base fuel 0 = candidate base j := by
  rcases freeName_cases taken base fuel 0 with ⟨j, -, -, h, -⟩ | ⟨h, -⟩
  · exact ⟨j, h⟩
  · exact ⟨0, h⟩

theorem freeName_free {taken : String → Bool} {names : List (Option String)}
    (h : ∀ n, taken n = true → some (composed n) ∈ names) (base : String) :
    taken (freeName taken base (names.length + 1) 0) = false := by
  rcases freeName_cases taken base (names.length + 1) 0 with ⟨j, -, -, hj, hfree⟩ | ⟨-, hall⟩
  · rw [hj, hfree]
  · have hnodup : ((List.range (names.length + 1)).map fun i ↦ some (composed (candidate base i))).Nodup :=
      List.Nodup.map (fun i j hij ↦ composed_candidate_injective base (Option.some.inj hij)) List.nodup_range
    have hsub : ((List.range (names.length + 1)).map fun i ↦ some (composed (candidate base i))) ⊆ names := by
      intro n hn
      obtain ⟨i, hi, rfl⟩ := List.mem_map.mp hn
      exact h _ (hall i (Nat.zero_le i) (by simpa using hi))
    have := (hnodup.subperm hsub).length_le
    simp only [List.length_map, List.length_range] at this
    omega

theorem composed_tagged (s : String) (n : Nat) :
    composed (s ++ "_0x" ++ hexDigits n) = composed s ++ ("_0x" ++ hexDigits n) := by
  rw [String.append_assoc]
  exact composed_append_plain _ _ (PlainText.append (by simp [PlainText]) (plain_hexDigits n))

theorem functionName_ne_memset (m : Method) (j : Nat) : composed (candidate (functionName m) j) ≠ memsetName := by
  intro h
  have hmem : '_' ∈ (composed (candidate (functionName m) j)).toList := by
    by_cases hj : j = 0
    · rw [candidate, if_pos hj, functionName, composed_tagged]
      simp
    · rw [composed_candidate _ hj, functionName, composed_tagged]
      simp
  rw [h] at hmem
  exact absurd hmem (by decide)

end CilSsa.Lowering

namespace CilSsa.Ssa.Module

def nameOf (m : Module) (i : Nat) : Option String := (m.functions[i]?).map (·.name)

def structNameOf (m : Module) (i : Nat) : Option String := (m.structs[i]?).map (·.name)

def functionList (m : Module) : List Function := m.liveFunctions.filterMap fun i ↦ m.functions[i]?

def structList (m : Module) : List StructDef := m.liveStructs.filterMap fun i ↦ m.structs[i]?

/-- What a module keeps as it grows: its functions with their signatures and its structs, with their bodies once set. -/
structure Precedes (m m' : Module) : Prop where
  functions : ∀ (i : Nat) (g : Function), m.functions[i]? = some g →
    ∃ g', m'.functions[i]? = some g' ∧ g'.id = g.id ∧ g'.name = g.name ∧ g'.signature = g.signature
  structs : ∀ (i : Nat) (d : StructDef), m.structs[i]? = some d →
    ∃ d', m'.structs[i]? = some d' ∧ d'.name = d.name ∧ ∀ ts, d.body = some ts → d'.body = some ts

theorem Precedes.refl (m : Module) : Precedes m m :=
  ⟨fun _ g h ↦ ⟨g, h, rfl, rfl, rfl⟩, fun _ d h ↦ ⟨d, h, rfl, fun _ h ↦ h⟩⟩

theorem Precedes.trans {m m' m'' : Module} (h : Precedes m m') (h' : Precedes m' m'') : Precedes m m'' := by
  constructor
  · intro i g hg
    obtain ⟨g', hg', h1, h2, h3⟩ := h.functions i g hg
    obtain ⟨g'', hg'', h1', h2', h3'⟩ := h'.functions i g' hg'
    exact ⟨g'', hg'', h1'.trans h1, h2'.trans h2, h3'.trans h3⟩
  · intro i d hd
    obtain ⟨d', hd', h1, h2⟩ := h.structs i d hd
    obtain ⟨d'', hd'', h1', h2'⟩ := h'.structs i d' hd'
    exact ⟨d'', hd'', h1'.trans h1, fun ts h ↦ h2' ts (h2 ts h)⟩

end CilSsa.Ssa.Module

namespace CilSsa.Lowering

open CilSsa.Bytecode CilSsa.Metadata CilSsa.Text
open CilSsa.Ssa (BlockId FuncId Function Instr Module StructDef memsetName)

/-! ### Types and methods in step with the module -/

def CompiledType.struct? (ct : CompiledType) : Option Nat :=
  match ct.code with
  | .struct id _ => some id
  | _ => none

theorem CompiledType.struct?_eq_some_iff {ct : CompiledType} {id : Nat} :
    ct.struct? = some id ↔ ∃ name, ct.code = .struct id name := by
  unfold CompiledType.struct?
  constructor
  · intro h
    split at h
    · rename_i hcode
      cases h
      exact ⟨_, hcode⟩
    · cases h
  · rintro ⟨name, hcode⟩
    rw [hcode]

/-- The functions of a unit's methods are those of its module that do not fill memory, in the same order, and the
structs of its types are those of the module. All names differ. -/
structure Coherent (u : CompilationUnit) : Prop where
  numbered : Numbered u.module
  keys : (u.methods.map (·.1)).Nodup
  functions : (u.methods.map (·.2.index)).reverse = u.module.liveFunctions.filter fun i ↦
    u.module.nameOf i ≠ some memsetName
  names : (u.module.liveFunctions.map u.module.nameOf).Nodup
  spelled : ∀ (i : Nat) (g : Function), u.module.functions[i]? = some g → composed g.name = g.name
  structs : (u.types.filterMap (·.2.struct?)).reverse = u.module.liveStructs
  structNames : (u.module.liveStructs.map u.module.structNameOf).Nodup
  structSpelled : ∀ (i : Nat) (d : StructDef), u.module.structs[i]? = some d → composed d.name = d.name
  kinds : ∀ e ∈ u.types, e.1.kind = .valueType ↔ e.2.struct?.isSome = true
  entries : ∀ e ∈ u.types, ∀ id name, e.2.code = .struct id name → u.module.structNameOf id = some name
  structKeys : ((u.types.filter (·.2.struct?.isSome)).map (·.1)).Nodup

section

variable {u : CompilationUnit} {fn : FuncId} {F F' : Function}

theorem nameOf_modify {m : Module} (h : m.function? fn = some F) (hname : F'.name = F.name) (i : Nat) :
    (m.modifyFunction fn fun _ ↦ F').nameOf i = m.nameOf i := by
  simp only [Module.nameOf, Module.modifyFunction, Array.getElem?_modify]
  split
  · rename_i hi
    subst hi
    rw [show m.functions[fn.index]? = some F from h]
    simp [hname]
  · rfl

theorem Coherent.modify (h : Coherent u) (hF : u.module.function? fn = some F) (hid : F'.id = F.id)
    (hname : F'.name = F.name) : Coherent { u with module := u.module.modifyFunction fn fun _ ↦ F' } := by
  have hnames := funext (nameOf_modify hF hname)
  refine ⟨h.numbered.modify hF hid, h.keys, ?_, ?_, ?_, h.structs, h.structNames, h.structSpelled, h.kinds, h.entries,
    h.structKeys⟩
  · rw [hnames]
    exact h.functions
  · rw [hnames]
    exact h.names
  · intro i g hg
    simp only [Module.modifyFunction, Array.getElem?_modify] at hg
    split at hg
    · rename_i hi
      subst hi
      rw [show u.module.functions[fn.index]? = some F from hF] at hg
      cases hg
      rw [hname]
      exact h.spelled fn.index F hF
    · exact h.spelled i g hg

theorem nameOf_withFunction_old {m : Module} (g : Function) {i : Nat} (h : i < m.functions.size) :
    (withFunction m g).nameOf i = m.nameOf i := by
  rw [Module.nameOf, withFunction, Array.getElem?_push, if_neg (by omega), Module.nameOf]

theorem nameOf_withFunction_new (m : Module) (g : Function) : (withFunction m g).nameOf m.functions.size =
    some g.name := by
  simp [Module.nameOf, withFunction]

theorem not_mem_of_functionCalled? {m : Module} {name : String} (h : m.functionCalled? name = none) :
    some name ∉ m.liveFunctions.map m.nameOf := by
  intro hmem
  obtain ⟨i, hi, hname⟩ := List.mem_map.mp hmem
  obtain ⟨g, hg, rfl⟩ := Option.map_eq_some_iff.mp hname
  have := List.find?_eq_none.mp h g (List.mem_filterMap.mpr ⟨i, hi, hg⟩)
  simp at this

theorem Coherent.withFunction_names (h : Coherent u) {g : Function} (hfree : u.module.functionCalled? g.name = none) :
    ((withFunction u.module g).liveFunctions.map (withFunction u.module g).nameOf).Nodup := by
  have hmap : (withFunction u.module g).liveFunctions.map (withFunction u.module g).nameOf =
      u.module.liveFunctions.map u.module.nameOf ++ [some g.name] := by
    have hlive : (withFunction u.module g).liveFunctions = u.module.liveFunctions ++ [u.module.functions.size] := rfl
    rw [hlive, List.map_append, List.map_singleton, nameOf_withFunction_new]
    congr 1
    exact List.map_congr_left fun i hi ↦ nameOf_withFunction_old g (h.numbered.live i hi)
  rw [hmap]
  refine List.nodup_append.mpr ⟨h.names, List.nodup_singleton _, ?_⟩
  rintro n hn _ hm rfl
  rw [List.mem_singleton] at hm
  subst hm
  exact not_mem_of_functionCalled? hfree hn

theorem Coherent.withFunction_spelled (h : Coherent u) {g : Function} (hg : composed g.name = g.name) (i : Nat)
    (f : Function) (hf : (withFunction u.module g).functions[i]? = some f) : composed f.name = f.name := by
  rw [withFunction, Array.getElem?_push] at hf
  split at hf
  · cases hf
    exact hg
  · exact h.spelled i f hf

theorem Coherent.withFunction_filter (h : Coherent u) (g : Function) :
    (u.module.liveFunctions.filter fun i ↦ (withFunction u.module g).nameOf i ≠ some memsetName) =
      u.module.liveFunctions.filter fun i ↦ u.module.nameOf i ≠ some memsetName := by
  apply List.filter_congr
  intro i hi
  rw [nameOf_withFunction_old g (h.numbered.live i hi)]

theorem memset_cases (m : Module) : m.memset.1 = m ∨ m.functionCalled? memsetName = none ∧
    ∃ g : Function, g.id = ⟨m.functions.size⟩ ∧ g.name = memsetName ∧ g.signature = Ssa.memsetSignature ∧
      m.memset.1 = withFunction m g := by
  cases hf : m.functionCalled? (composed memsetName) with
  | some f =>
    left
    simp only [Module.memset, Module.functionNamed?, hf]
  | none =>
    right
    refine ⟨by rwa [composed_memsetName] at hf, ⟨⟨m.functions.size⟩, composed memsetName, Ssa.memsetSignature,
      [⟨"", .bytePointer⟩, ⟨"", .i8⟩, ⟨"", .i64⟩, ⟨"", .i1⟩], #[], #[], [], 0⟩, rfl, composed_memsetName, rfl, ?_⟩
    simp only [Module.memset, Module.addFunction, Module.functionNamed?, hf, Ssa.memsetSignature]
    rfl

theorem Coherent.memset (h : Coherent u) : Coherent { u with module := u.module.memset.1 } := by
  rcases memset_cases u.module with hms | ⟨hf, g, hgid, hgname, -, hms⟩
  · rw [hms]
    exact h
  · rw [hms]
    rw [← hgname] at hf
    refine ⟨h.numbered.withFunction hgid, h.keys, ?_, h.withFunction_names hf,
      h.withFunction_spelled (by rw [hgname]; exact composed_memsetName), h.structs, h.structNames,
      h.structSpelled, h.kinds,
      h.entries, h.structKeys⟩
    have hlive : (withFunction u.module g).liveFunctions = u.module.liveFunctions ++ [u.module.functions.size] := rfl
    rw [hlive, List.filter_append, h.withFunction_filter, h.functions]
    simp [nameOf_withFunction_new, hgname]

theorem Coherent.register (h : Coherent u) {g : Function} {k : MethodId} (hid : g.id = ⟨u.module.functions.size⟩)
    (hfree : u.module.functionCalled? g.name = none) (hspelled : composed g.name = g.name) (hname : g.name ≠ memsetName)
    (hk : k ∉ u.methods.map (·.1)) (j : Journal) :
    Coherent { u with module := withFunction u.module g, methods := (k, g.id) :: u.methods, journal := j } := by
  refine ⟨h.numbered.withFunction hid, ?_, ?_, h.withFunction_names hfree, h.withFunction_spelled hspelled, h.structs,
    h.structNames, h.structSpelled, h.kinds, h.entries, h.structKeys⟩
  · exact List.nodup_cons.mpr ⟨hk, h.keys⟩
  · have hlive : (withFunction u.module g).liveFunctions = u.module.liveFunctions ++ [u.module.functions.size] := rfl
    rw [hlive, List.filter_append, h.withFunction_filter, List.map_cons, List.reverse_cons, h.functions, hid]
    simp [nameOf_withFunction_new, hname]

theorem Coherent.structNameOf_live (h : Coherent u) {i : Nat} (hi : i ∈ u.module.liveStructs) :
    ∃ name, u.module.structNameOf i = some name := by
  rw [← h.structs, List.mem_reverse, List.mem_filterMap] at hi
  obtain ⟨e, he, hs⟩ := hi
  obtain ⟨name, hcode⟩ := CompiledType.struct?_eq_some_iff.mp hs
  exact ⟨name, h.entries e he i name hcode⟩

theorem Coherent.liveStruct_lt (h : Coherent u) {i : Nat} (hi : i ∈ u.module.liveStructs) :
    i < u.module.structs.size := by
  obtain ⟨name, hname⟩ := h.structNameOf_live hi
  obtain ⟨d, hd, -⟩ := Option.map_eq_some_iff.mp hname
  exact (Array.getElem?_eq_some_iff.mp hd).1

def withStruct (m : Module) (name : String) : Module :=
  { m with structs := m.structs.push ⟨name, none⟩, liveStructs := m.liveStructs ++ [m.structs.size] }

theorem structNameOf_withStruct_old {m : Module} (name : String) {i : Nat} (h : i < m.structs.size) :
    (withStruct m name).structNameOf i = m.structNameOf i := by
  rw [Module.structNameOf, withStruct, Array.getElem?_push, if_neg (by omega), Module.structNameOf]

theorem structNameOf_withStruct_new (m : Module) (name : String) :
    (withStruct m name).structNameOf m.structs.size = some name := by
  simp [Module.structNameOf, withStruct]

theorem Coherent.withStruct (h : Coherent u) {t : Ty} {name : String} (hkind : t.kind = .valueType)
    (hkey : t ∉ u.types.map (·.1)) (hfree : some name ∉ u.module.liveStructs.map u.module.structNameOf)
    (hspelled : composed name = name) (members : List Field) (j : Journal) :
    Coherent { u with
      module := withStruct u.module name
      types := (t, ⟨t, .struct u.module.structs.size name, members⟩) :: u.types
      journal := j } := by
  have hold : ∀ i ∈ u.module.liveStructs, (Lowering.withStruct u.module name).structNameOf i =
    u.module.structNameOf i :=
    fun i hi ↦ structNameOf_withStruct_old name (h.liveStruct_lt hi)
  have hlive : (Lowering.withStruct u.module name).liveStructs = u.module.liveStructs ++ [u.module.structs.size] := rfl
  refine ⟨⟨h.numbered.ids, h.numbered.live⟩, h.keys, h.functions, h.names, h.spelled, ?_, ?_, ?_, ?_, ?_, ?_⟩
  · rw [hlive, ← h.structs, ← List.reverse_cons]
    rfl
  · rw [hlive, List.map_append, List.map_singleton, structNameOf_withStruct_new, List.map_congr_left hold]
    refine List.nodup_append.mpr ⟨h.structNames, List.nodup_singleton _, ?_⟩
    rintro n hn _ hm rfl
    rw [List.mem_singleton] at hm
    exact hfree (hm ▸ hn)
  · intro i d hd
    rw [Lowering.withStruct, Array.getElem?_push] at hd
    split at hd
    · cases hd
      exact hspelled
    · exact h.structSpelled i d hd
  · intro e he
    rcases List.mem_cons.mp he with rfl | he
    · exact ⟨fun _ ↦ rfl, fun _ ↦ hkind⟩
    · exact h.kinds e he
  · intro e he id n hcode
    rcases List.mem_cons.mp he with rfl | he
    · cases hcode
      exact structNameOf_withStruct_new _ _
    · have hn := h.entries e he id n hcode
      obtain ⟨d, hd, -⟩ := Option.map_eq_some_iff.mp hn
      rw [structNameOf_withStruct_old name (Array.getElem?_eq_some_iff.mp hd).1]
      exact hn
  · refine List.nodup_cons.mpr ⟨fun hmem ↦ hkey ?_, h.structKeys⟩
    obtain ⟨e, he, hte⟩ := List.mem_map.mp hmem
    exact List.mem_map.mpr ⟨e, (List.mem_filter.mp he).1, hte⟩

theorem Coherent.remember (h : Coherent u) {ct : CompiledType} (hkind : ct.source.kind ≠ .valueType)
    (hcode : ct.struct? = none) (j : Journal) :
    Coherent { u with types := (ct.source, ct) :: u.types, journal := j } := by
  refine ⟨h.numbered, h.keys, h.functions, h.names, h.spelled, ?_, h.structNames, h.structSpelled, ?_, ?_, ?_⟩
  · rw [← h.structs]
    simp [hcode]
  · intro e he
    rcases List.mem_cons.mp he with rfl | he
    · simp [hkind, hcode]
    · exact h.kinds e he
  · intro e he id n hn
    rcases List.mem_cons.mp he with rfl | he
    · rw [CompiledType.struct?_eq_some_iff.mpr ⟨n, hn⟩] at hcode
      cases hcode
    · exact h.entries e he id n hn
  · rw [List.filter_cons_of_neg (by simp [hcode])]
    exact h.structKeys

def withBody (m : Module) (id : Nat) (body : List Ssa.Ty) : Module :=
  { m with structs := m.structs.modify id fun d ↦ { d with body := some body } }

theorem getElem?_withBody (m : Module) (id : Nat) (body : List Ssa.Ty) (i : Nat) : (withBody m id body).structs[i]? =
    if id = i then (m.structs[i]?).map fun d ↦ { d with body := some body } else m.structs[i]? := Array.getElem?_modify

theorem structNameOf_setBody (m : Module) (id : Nat) (body : List Ssa.Ty) (i : Nat) :
    (withBody m id body).structNameOf i = m.structNameOf i := by
  simp only [Module.structNameOf, getElem?_withBody]
  split
  · rename_i hi
    subst hi
    cases m.structs[id]? <;> rfl
  · rfl

theorem Coherent.setBody (h : Coherent u) (id : Nat) (body : List Ssa.Ty) :
    Coherent { u with module := withBody u.module id body } := by
  have hnames := funext (structNameOf_setBody u.module id body)
  refine ⟨⟨h.numbered.ids, h.numbered.live⟩, h.keys, h.functions, h.names, h.spelled, h.structs, ?_, ?_, h.kinds, ?_,
    h.structKeys⟩
  · rw [hnames]
    exact h.structNames
  · intro i d hd
    rw [getElem?_withBody] at hd
    split at hd
    · obtain ⟨d', hd', rfl⟩ := Option.map_eq_some_iff.mp hd
      exact h.structSpelled _ d' hd'
    · exact h.structSpelled i d hd
  · rw [hnames]
    exact h.entries

end

/-! ### What is taken back -/

section

variable {u : CompilationUnit}

theorem eraseP_eq_filter {α β : Type} [BEq β] [LawfulBEq β] [DecidableEq β] {f : α → β} {l : List α}
    (h : (l.map f).Nodup) (b : β) : l.eraseP (fun a ↦ f a == b) = l.filter fun a ↦ f a ≠ b := by
  induction l with
  | nil => rfl
  | cons a l ih =>
    obtain ⟨ha, hl⟩ := List.nodup_cons.mp h
    by_cases hab : f a = b
    · rw [List.eraseP_cons_of_pos (by simpa using hab), List.filter_cons_of_neg (by simpa using hab)]
      symm
      rw [List.filter_eq_self]
      intro a' ha'
      have : f a' ≠ f a := fun he ↦ ha (he ▸ List.mem_map_of_mem ha')
      simpa [hab] using this
    · rw [List.eraseP_cons_of_neg (by simpa using hab), List.filter_cons_of_pos (by simpa using hab), ih hl]

theorem mem_of_lookup {α β : Type} [BEq α] [LawfulBEq α] {l : List (α × β)} {a : α} {b : β} (h : l.lookup a = some b) :
    (a, b) ∈ l := by
  induction l with
  | nil => cases h
  | cons e l ih =>
    obtain ⟨k, v⟩ := e
    rw [List.lookup_cons] at h
    split at h
    · rename_i hk
      cases h
      rw [eq_of_beq hk]
      exact List.mem_cons_self
    · exact List.mem_cons_of_mem _ (ih h)

theorem lookup_isNone_iff {α β : Type} [BEq α] [LawfulBEq α] {l : List (α × β)} {a : α} :
    (l.lookup a).isNone = true ↔ a ∉ l.map (·.1) := by
  rw [Option.isNone_iff_eq_none, List.lookup_eq_none_iff]
  refine ⟨fun h hmem ↦ ?_, fun h e he ↦ by simpa using fun heq : a = e.1 ↦ h (heq ▸ List.mem_map_of_mem he)⟩
  obtain ⟨e, he, rfl⟩ := List.mem_map.mp hmem
  simpa using h e he

theorem not_mem_keys_of_lookup {α β : Type} [BEq α] [LawfulBEq α] {l : List (α × β)} {a : α} (h : l.lookup a = none) :
    a ∉ l.map (·.1) :=
  lookup_isNone_iff.mp (Option.isNone_iff_eq_none.mpr h)

theorem Coherent.live_of_mem (h : Coherent u) {e : MethodId × FuncId} (he : e ∈ u.methods) :
    e.2.index ∈ u.module.liveFunctions ∧ u.module.nameOf e.2.index ≠ some memsetName := by
  have hmem : e.2.index ∈ (u.methods.map (·.2.index)).reverse :=
    List.mem_reverse.mpr (List.mem_map_of_mem (f := fun e : MethodId × FuncId ↦ e.2.index) he)
  rw [h.functions, List.mem_filter] at hmem
  exact ⟨hmem.1, by simpa using hmem.2⟩

theorem Coherent.values (h : Coherent u) : (u.methods.map (·.2.index)).Nodup := by
  rw [← List.nodup_reverse, h.functions]
  exact (List.Nodup.of_map _ h.names).filter _

theorem Coherent.function?_of_mem (h : Coherent u) {e : MethodId × FuncId} (he : e ∈ u.methods) :
    ∃ g, u.module.function? e.2 = some g ∧ u.module.nameOf e.2.index = some g.name := by
  have hlt := h.numbered.live _ (h.live_of_mem he).1
  exact ⟨u.module.functions[e.2.index], Array.getElem?_eq_getElem hlt, by simp [Module.nameOf, hlt]⟩

theorem forgetMethod_eq (h : Coherent u) {k : MethodId} {f : FuncId} (hk : u.methods.lookup k = some f) :
    u.forgetMethod k = { u with
      module := { u.module with liveFunctions := u.module.liveFunctions.filter (· ≠ f.index) }
      methods := u.methods.filter (·.1 ≠ k) } := by
  have hmem := mem_of_lookup hk
  obtain ⟨g, hg, hname⟩ := h.function?_of_mem hmem
  unfold CompilationUnit.forgetMethod
  rw [hk]
  dsimp only
  rw [hg]
  dsimp only [Module.removeFunction]
  have hspell : composed g.name = g.name := h.spelled _ g hg
  have herase := eraseP_eq_filter h.names (some g.name)
  dsimp only [Module.nameOf] at herase
  rw [hspell, herase]
  congr 2
  apply List.filter_congr
  intro i hi
  refine decide_eq_decide.mpr (not_congr ?_)
  constructor
  · intro hi'
    exact List.inj_on_of_nodup_map h.names hi (h.live_of_mem hmem).1 (hi'.trans hname.symm)
  · rintro rfl
    exact hname

theorem Coherent.forgetMethod (h : Coherent u) (k : MethodId) : Coherent (u.forgetMethod k) := by
  cases hk : u.methods.lookup k with
  | none =>
    rw [CompilationUnit.forgetMethod, hk]
    exact h
  | some f =>
    have hmem := mem_of_lookup hk
    rw [forgetMethod_eq h hk]
    refine ⟨⟨h.numbered.ids, fun i hi ↦ h.numbered.live i (List.mem_filter.mp hi).1⟩, ?_, ?_, ?_, h.spelled, h.structs,
      h.structNames, h.structSpelled, h.kinds, h.entries, h.structKeys⟩
    · exact h.keys.sublist (List.filter_sublist.map _)
    · have hcongr : u.methods.filter (·.1 ≠ k) = u.methods.filter fun e ↦ e.2.index ≠ f.index := by
        apply List.filter_congr
        intro e he
        refine decide_eq_decide.mpr (not_congr ?_)
        constructor
        · intro hek
          rw [List.inj_on_of_nodup_map h.keys he hmem hek]
        · intro hef
          rw [List.inj_on_of_nodup_map h.values he hmem hef]
      have hfilter : ((u.methods.filter (·.1 ≠ k)).map (·.2.index)).reverse =
          (u.methods.map (·.2.index)).reverse.filter (· ≠ f.index) := by
        rw [hcongr, List.filter_reverse, List.filter_map]
        rfl
      rw [hfilter, h.functions, List.filter_comm]
      rfl
    · exact h.names.sublist (List.filter_sublist.map _)

theorem forgetType_eq (h : Coherent u) {t : Ty} {ct : CompiledType} (ht : u.types.lookup t = some ct) :
    u.forgetType t = { u with
      module := { u.module with liveStructs := u.module.liveStructs.filter fun i ↦ ct.struct? ≠ some i }
      types := u.types.filter (·.1 ≠ t) } := by
  have hmem := mem_of_lookup ht
  unfold CompilationUnit.forgetType
  rw [ht]
  dsimp only
  cases hs : ct.struct? with
  | none =>
    have hmodule : ∀ m : Module,
        { m with liveStructs := m.liveStructs.filter fun i ↦ (none : Option Nat) ≠ some i } = m := by
      intro m
      simp
    rw [hmodule]
    split
    · rename_i id name hcode
      rw [CompiledType.struct?_eq_some_iff.mpr ⟨name, hcode⟩] at hs
      cases hs
    · rfl
  | some id =>
    obtain ⟨name, hcode⟩ := CompiledType.struct?_eq_some_iff.mp hs
    have hname := h.entries _ hmem id name hcode
    obtain ⟨d, hd, hdname⟩ := Option.map_eq_some_iff.mp hname
    have hspell : composed name = name := hdname ▸ h.structSpelled id d hd
    have hlive : id ∈ u.module.liveStructs := by
      rw [← h.structs, List.mem_reverse, List.mem_filterMap]
      exact ⟨_, hmem, hs⟩
    rw [hcode]
    dsimp only [Module.removeStruct]
    have herase := eraseP_eq_filter h.structNames (some name)
    dsimp only [Module.structNameOf] at herase
    rw [hspell, herase]
    congr 2
    apply List.filter_congr
    intro i hi
    refine decide_eq_decide.mpr (not_congr ?_)
    constructor
    · intro hi'
      exact congrArg some (List.inj_on_of_nodup_map h.structNames hi hlive (hi'.trans hname.symm)).symm
    · intro hi'
      cases hi'
      exact hname

theorem Coherent.eq_of_struct (h : Coherent u) {e e' : Ty × CompiledType} (he : e ∈ u.types) (he' : e' ∈ u.types)
    (hkey : e.1 = e'.1) (hs : e'.2.struct?.isSome = true) : e = e' := by
  have hs' : e.2.struct?.isSome = true := (h.kinds e he).mp (hkey ▸ (h.kinds e' he').mpr hs)
  exact List.inj_on_of_nodup_map h.structKeys (List.mem_filter.mpr ⟨he, by simpa using hs'⟩)
    (List.mem_filter.mpr ⟨he', by simpa using hs⟩) hkey

theorem Coherent.eq_of_struct?_eq (h : Coherent u) {e e' : Ty × CompiledType} (he : e ∈ u.types) (he' : e' ∈ u.types)
    {i : Nat} (hs : e.2.struct? = some i) (hs' : e'.2.struct? = some i) : e = e' := by
  have hnodup : ((u.types.filter (·.2.struct?.isSome)).map (·.2.struct?)).Nodup := by
    have hlive : (u.types.filterMap (·.2.struct?)).Nodup := by
      rw [← List.nodup_reverse, h.structs]
      exact List.Nodup.of_map _ h.structNames
    have hmap : (u.types.filterMap (·.2.struct?)).map some =
        (u.types.filter (·.2.struct?.isSome)).map (·.2.struct?) := by
      induction u.types with
      | nil => rfl
      | cons e es ih => cases he : e.2.struct? <;> simp [he, ih]
    rw [← hmap]
    exact hlive.map (Option.some_injective _)
  exact List.inj_on_of_nodup_map hnodup (List.mem_filter.mpr ⟨he, by simp [hs]⟩)
    (List.mem_filter.mpr ⟨he', by simp [hs']⟩) (hs.trans hs'.symm)

theorem Coherent.forgetType (h : Coherent u) (t : Ty) : Coherent (u.forgetType t) := by
  cases ht : u.types.lookup t with
  | none =>
    rw [CompilationUnit.forgetType, ht]
    exact h
  | some ct =>
    have hmem := mem_of_lookup ht
    rw [forgetType_eq h ht]
    have hsub : ∀ e ∈ u.types.filter (·.1 ≠ t), e ∈ u.types := fun e he ↦ (List.mem_filter.mp he).1
    refine ⟨⟨h.numbered.ids, h.numbered.live⟩, h.keys, h.functions, h.names, h.spelled, ?_, ?_, h.structSpelled,
      fun e he ↦ h.kinds e (hsub e he), fun e he ↦ h.entries e (hsub e he), ?_⟩
    · rw [← h.structs, List.filter_reverse, List.filterMap_filter, List.filter_filterMap]
      congr 1
      apply List.filterMap_congr
      intro e he
      cases hs : e.2.struct? with
      | none => simp
      | some i =>
        by_cases hkey : e.1 = t
        · have heq := h.eq_of_struct hmem he hkey.symm (by simp [hs])
          have hct : ct.struct? = some i := by rw [← hs, ← heq]
          simp [hkey, hct, Option.filter]
        · have hct : ct.struct? ≠ some i := fun hct ↦ hkey (congrArg (·.1) (h.eq_of_struct?_eq he hmem hs hct))
          simp [hkey, hct, Option.filter]
    · exact h.structNames.sublist (List.filter_sublist.map _)
    · exact h.structKeys.sublist ((List.filter_sublist.filter _).map _)

end

end CilSsa.Lowering

