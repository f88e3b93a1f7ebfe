import CilSsa.Ssa.Module
import Mathlib.Data.List.Nodup
import Mathlib.Data.List.Perm.Subperm
import Mathlib.Tactic.Common
import Std.Data.String.ToNat
import CilSsa.Proofs.Effects
import CilSsa.Proofs.ListingText
import CilSsa.Proofs.PassSteps
import CilSsa.Proofs.SymbolNames

namespace CilSsa.Ssa

namespace Function

def taken (f : Function) : List String := f.names.map (·.1)

def suffixed (base : String) (n : Nat) : String := base ++ "." ++ toString n

theorem suffixed_injective (base : String) : Function.Injective (suffixed base) := by
  intro i j h
  exact Nat.repr_inj.mp ((String.append_right_inj _).mp h)

theorem suffixed_ne_empty (base : String) (n : Nat) : suffixed base n ≠ "" := by
  intro h
  have hlength := congrArg String.length h
  simp only [suffixed, String.length_append] at hlength
  have hdot : ".".length = 1 := rfl
  have hnone : "".length = 0 := rfl
  omega

/-- Where the search is when its fuel runs out: it stopped at a candidate that is free, or tried as many as it had fuel
for. In either case all that it tried before are taken. -/
theorem freshSuffix_cases (base : String) (names : List (String × Nat)) (fuel n : Nat) :
    ∃ k, n ≤ k ∧ freshSuffix base names fuel n = suffixed base k ∧
      (∀ j, n ≤ j → j < k → suffixed base j ∈ names.map (·.1)) ∧ (suffixed base k ∉ names.map (·.1) ∨
      k = n + fuel) := by
  induction fuel generalizing n with
  | zero => exact ⟨n, Nat.le_refl _, rfl, fun j hj hlt ↦ by omega, .inr rfl⟩
  | succ fuel ih =>
    rw [freshSuffix]
    by_cases hfree : (names.lookup (suffixed base n)).isNone = true
    · refine ⟨n, Nat.le_refl _, if_pos hfree, fun j hj hlt ↦ by omega, .inl (Lowering.lookup_isNone_iff.mp hfree)⟩
    · obtain ⟨k, hle, heq, htried, hend⟩ := ih (n + 1)
      refine ⟨k, by omega, (if_neg hfree).trans heq, fun j hj hlt ↦ ?_, hend.imp_right fun h ↦ by omega⟩
      rcases Nat.eq_or_lt_of_le hj with rfl | hj
      · exact not_not.mp fun h ↦ hfree (Lowering.lookup_isNone_iff.mpr h)
      · exact htried j hj hlt

theorem exists_not_taken (base : String) (names : List String) (n : Nat) :
    ∃ j, n ≤ j ∧ j < n + (names.length + 1) ∧ suffixed base j ∉ names := by
  by_contra hnone
  have hall : ∀ j, n ≤ j → j < n + (names.length + 1) → suffixed base j ∈ names := by
    intro j hj hlt
    by_contra hfree
    exact hnone ⟨j, hj, hlt, hfree⟩
  have hnodup : ((List.range' n (names.length + 1)).map (suffixed base)).Nodup :=
    List.Nodup.map (suffixed_injective base) List.nodup_range'
  have hsub : (List.range' n (names.length + 1)).map (suffixed base) ⊆ names := by
    intro name hname
    obtain ⟨j, hj, rfl⟩ := List.mem_map.mp hname
    obtain ⟨hle, hlt⟩ := List.mem_range'_1.mp hj
    exact hall j hle hlt
  have hlength := (hnodup.subperm hsub).length_le
  rw [List.length_map, List.length_range'] at hlength
  omega

theorem freshSuffix_first (base : String) (names : List (String × Nat)) (n : Nat) :
    ∃ k, n ≤ k ∧ freshSuffix base names (names.length + 1) n = suffixed base k ∧ suffixed base k ∉ names.map (·.1) ∧
      ∀ j, n ≤ j → j < k → suffixed base j ∈ names.map (·.1) := by
  obtain ⟨k, hle, heq, htried, hend⟩ := freshSuffix_cases base names (names.length + 1) n
  refine ⟨k, hle, heq, hend.resolve_right ?_, htried⟩
  rintro rfl
  obtain ⟨j, hj, hlt, hfree⟩ := exists_not_taken base (names.map (·.1)) n
  rw [List.length_map] at hlt
  exact hfree (htried j hj hlt)

variable {f : Function} {name : String}

theorem keys_counted (names : List (String × Nat)) (name : String) :
    (names.map fun (k, c) ↦ if k = name then (k, c + 1) else (k, c)).map (·.1) = names.map (·.1) := by
  rw [List.map_map]
  refine List.map_congr_left fun p _ ↦ ?_
  dsimp only [Function.comp_apply]
  split <;> rfl

theorem uniqueName_fresh (f : Function) (h : name ≠ "") : (f.uniqueName name).1 ≠ "" ∧ (f.uniqueName name).1 ∉ f.taken ∧
    (f.uniqueName name).2.taken = (f.uniqueName name).1 :: f.taken := by
  unfold uniqueName
  rw [if_neg h]
  split
  · rename_i hnone
    exact ⟨h, Lowering.lookup_isNone_iff.mp (by rw [hnone]; rfl), rfl⟩
  · rename_i n _
    dsimp only
    generalize hcounted : f.names.map _ = counted
    have hkeys : counted.map (·.1) = f.taken := hcounted ▸ keys_counted f.names name
    obtain ⟨k, -, heq, hfree, -⟩ := freshSuffix_first name counted n
    rw [hkeys] at hfree
    rw [heq]
    exact ⟨suffixed_ne_empty name k, hfree, by rw [taken, List.map_cons, hkeys]⟩

theorem uniqueName_empty (f : Function) : f.uniqueName "" = ("", f) := if_pos rfl

end Function

/-- What asks a function for a name. -/
inductive NameRequest
  | block (name : String)
  | instr (block : Nat) (i : Instr)

namespace Function

def wanted : NameRequest → String
  | .block name => if name = "" then "bb" else name
  | .instr _ i => i.name

/-- The name that the new block or instruction got, and the function with it. -/
def answer (f : Function) : NameRequest → String × Function
  | .block name => (((f.addBlock name).1.blocks[(f.addBlock name).2]?.map (·.name)).getD "", (f.addBlock name).1)
  | .instr b i => (((f.append b i).1.instrs[(f.append b i).2]?.map (·.name)).getD "", (f.append b i).1)

def answers (f : Function) : List NameRequest → List String
  | [] => []
  | q :: qs => (f.answer q).1 :: (f.answer q).2.answers qs

theorem uniqueName_blocks (f : Function) (name : String) : (f.uniqueName name).2.blocks = f.blocks := by
  unfold uniqueName
  split
  · rfl
  · split <;> rfl

theorem uniqueName_instrs (f : Function) (name : String) : (f.uniqueName name).2.instrs = f.instrs := by
  unfold uniqueName
  split
  · rfl
  · split <;> rfl

theorem answer_eq (f : Function) (q : NameRequest) :
    (f.answer q).1 = (f.uniqueName (wanted q)).1 ∧ (f.answer q).2.taken = (f.uniqueName (wanted q)).2.taken := by
  cases q with
  | block name =>
    refine ⟨?_, rfl⟩
    change (((f.uniqueName (wanted (.block name))).2.blocks.push _)[f.blocks.size]?.map (·.name)).getD "" = _
    rw [uniqueName_blocks, Array.getElem?_push_size]
    rfl
  | instr b i =>
    refine ⟨?_, rfl⟩
    change (((f.uniqueName (wanted (.instr b i))).2.instrs.push _)[f.instrs.size]?.map (·.name)).getD "" = _
    rw [uniqueName_instrs, Array.getElem?_push_size]
    rfl

theorem answers_not_taken (f : Function) (qs : List NameRequest) : ∀ a ∈ f.answers qs, a ≠ "" → a ∉ f.taken := by
  induction qs generalizing f with
  | nil => exact fun a ha ↦ absurd ha List.not_mem_nil
  | cons q qs ih =>
    obtain ⟨hname, htaken⟩ := f.answer_eq q
    intro a ha hne
    by_cases hwanted : wanted q = ""
    · rw [hwanted, uniqueName_empty] at hname htaken
      rcases List.mem_cons.mp ha with rfl | ha
      · exact absurd hname hne
      · exact htaken ▸ ih _ a ha hne
    · obtain ⟨-, hfresh, hgrown⟩ := f.uniqueName_fresh hwanted
      rcases List.mem_cons.mp ha with rfl | ha
      · rwa [hname]
      · have hlater := ih _ a ha hne
        rw [htaken, hgrown] at hlater
        exact fun h ↦ hlater (List.mem_cons_of_mem _ h)

/-- Whatever names blocks and instructions ask for, one after the other, those that they get differ from each other and
from all that the function gave out before, those that get none apart. The search for a name ends: from any number on it
goes through candidates that are taken to the first that is free. -/
theorem names_distinct (f : Function) (qs : List NameRequest) :
    ((f.answers qs).filter (· ≠ "")).Nodup ∧ (∀ a ∈ f.answers qs, a ≠ "" → a ∉ f.taken) ∧
    ∀ (g : Function) (base : String) (n : Nat), ∃ k, n ≤ k ∧
      freshSuffix base g.names (g.names.length + 1) n = suffixed base k ∧ suffixed base k ∉ g.taken ∧
      ∀ j, n ≤ j → j < k → suffixed base j ∈ g.taken := by
  refine ⟨?_, f.answers_not_taken qs, fun g base n ↦ freshSuffix_first base g.names n⟩
  induction qs generalizing f with
  | nil => exact List.nodup_nil
  | cons q qs ih =>
    obtain ⟨hname, htaken⟩ := f.answer_eq q
    rw [answers, List.filter_cons]
    split
    · rename_i hne
      refine List.nodup_cons.mpr ⟨fun hmem ↦ ?_, ih _⟩
      have hwanted : wanted q ≠ "" := by
        intro h
        rw [h, uniqueName_empty] at hname
        simp [hname] at hne
      -- The name is taken from here on, so no later request gets it.
      refine answers_not_taken _ qs _ (List.mem_of_mem_filter hmem) (by simpa using hne) ?_
      rw [htaken, (f.uniqueName_fresh hwanted).2.2, hname]
      exact List.mem_cons_self
    · exact ih _

/-- Names that look like earlier ones. -/
example : ({ id := ⟨0⟩, name := "f", signature := .func .void [], params := [] } : Function).answers
    [.block "a", .block "a", .instr 0 { op := .load, type := .i8, name := "a.1" }, .block "a"] =
      ["a", "a.1", "a.1.1", "a.2"] := by
  decide +kernel

end Function

end CilSsa.Ssa

/-!
Names within a function as they are printed. Blocks and instructions never share a name, because both get theirs from
what the function gave out so far, and results without a name are numbered when the function is printed. The names of
parameters are made up by the printer: they can be those of slots, and of nothing else.
-/

namespace CilSsa.Ssa

open CilSsa.Bytecode (offsetLabel toList_offsetLabel mem_hexadecimal)
open CilSsa.Number (mem_toDigits toList_toString)

/-! ### What names look like -/

/-- A name that is printed as it is and that no number looks like. -/
structure Spelled (name : String) : Prop where
  plain : name.toList.all isPlain = true
  letter : ∃ c cs, name.toList = c :: cs ∧ c.isDigit = false

/-- What a parameter is called that has no name, and what the slot of an argument asks to be called. -/
def argumentName (i : Nat) : String := "arg" ++ toString i

theorem plain_digit : ∀ d < 16, isPlain d.digitChar = true := by decide

theorem digit_digit : ∀ d < 10, d.digitChar.isDigit = true := by decide

theorem dot_digit : ∀ d < 10, d.digitChar ≠ '.' := by decide

theorem plain_toString (n : Nat) : (toString n).toList.all isPlain = true := by
  refine List.all_eq_true.mpr fun c hc ↦ ?_
  rw [toList_toString] at hc
  obtain ⟨d, hd, rfl⟩ := mem_toDigits (by decide) hc
  exact plain_digit d (by omega)

namespace Spelled

variable {base name : String} {n : Nat}

theorem ne_empty (h : Spelled name) : name ≠ "" := by
  rintro rfl
  obtain ⟨c, cs, hcs, -⟩ := h.letter
  cases hcs

theorem append (h : Spelled base) {s : String} (hs : s.toList.all isPlain = true) : Spelled (base ++ s) := by
  obtain ⟨c, cs, hcs, hc⟩ := h.letter
  refine ⟨?_, c, cs ++ s.toList, ?_, hc⟩
  · rw [String.toList_append, List.all_append, h.plain, hs, Bool.and_self]
  · rw [String.toList_append, hcs, List.cons_append]

theorem suffixed (h : Spelled base) (n : Nat) : Spelled (Function.suffixed base n) :=
  (h.append (s := ".") (by decide)).append (plain_toString n)

theorem argumentName (i : Nat) : Spelled (argumentName i) :=
  append ⟨by decide, 'a', ['r', 'g'], rfl, by decide⟩ (plain_toString i)

theorem ofSlot (h : SlotName name) : Spelled name := by
  cases h with
  | «local» i => exact append ⟨by decide, 'l', ['o', 'c'], rfl, by decide⟩ (plain_toString i)
  | buffer => exact ⟨by decide, 'e', _, rfl, by decide⟩
  | top => exact ⟨by decide, 'e', _, rfl, by decide⟩
  | spill => exact ⟨by decide, 's', _, rfl, by decide⟩
  | object => exact ⟨by decide, 'n', _, rfl, by decide⟩

theorem offsetLabel (n : Nat) : Spelled (Bytecode.offsetLabel n) := by
  refine ⟨?_, 'I', _, toList_offsetLabel n, by decide⟩
  rw [toList_offsetLabel, List.all_append, Bool.and_eq_true]
  refine ⟨by decide, List.all_eq_true.mpr fun c hc ↦ ?_⟩
  obtain ⟨d, hd, rfl⟩ := mem_hexadecimal hc
  exact plain_digit d hd

theorem init : Spelled "init" := ⟨by decide, 'i', _, rfl, by decide⟩

theorem ne_toString (h : Spelled name) (n : Nat) : name ≠ toString n := by
  rintro rfl
  obtain ⟨c, cs, hcs, hc⟩ := h.letter
  have hmem : c ∈ Nat.toDigits 10 n := by
    rw [← toList_toString, hcs]
    exact List.mem_cons_self
  obtain ⟨d, hd, rfl⟩ := mem_toDigits (by decide) hmem
  rw [digit_digit d hd] at hc
  cases hc

end Spelled

theorem argumentName_injective : Function.Injective argumentName := by
  intro i j h
  exact Nat.repr_inj.mp ((String.append_right_inj _).mp h)

theorem suffixed_ne_argumentName (base : String) (n i : Nat) : Function.suffixed base n ≠ argumentName i := by
  intro h
  have hdot : '.' ∈ (argumentName i).toList := by
    rw [← h]
    simp [Function.suffixed]
  rw [argumentName, String.toList_append, toList_toString] at hdot
  rcases List.mem_append.mp hdot with hdot | hdot
  · exact absurd hdot (by decide)
  · obtain ⟨d, hd, heq⟩ := mem_toDigits (by decide) hdot
    exact dot_digit d hd heq.symm

theorem ne_argumentName {name : String} {c : Char} {cs : List Char} (h : name.toList = c :: cs)
    (hc : c ≠ 'a') (i : Nat) : name ≠ argumentName i := by
  rintro rfl
  rw [argumentName, String.toList_append] at h
  exact hc (List.cons.inj h).1.symm

theorem SlotName.ne_argumentName {name : String} (h : SlotName name) (i : Nat) : name ≠ argumentName i := by
  cases h with
  | «local» j => exact Ssa.ne_argumentName (String.toList_append ..) (by decide) i
  | buffer | top | spill | object => exact Ssa.ne_argumentName rfl (by decide) i

namespace Function

/-! ### Names that were given out -/

/-- What can have a name in a function. -/
inductive Place
  | block (b : Nat)
  | instr (k : Nat)

def nameAt? (F : Function) : Place → Option String
  | .block b => F.blocks[b]?.map (·.name)
  | .instr k => (F.instrs[k]?.map (·.name)).filter (· ≠ "")

/-- What holds of the names of a function at any time. All that have names have different ones, which were given out and
need no quotes, and the name of a parameter is at most that of the slot of an argument in `slotted`. -/
structure Named (slotted : Nat → Prop) (F : Function) : Prop where
  params : ∀ p ∈ F.params, p.name = ""
  taken : ∀ {p : Place} {n : String}, F.nameAt? p = some n → n ∈ F.taken
  apart : ∀ {p q : Place} {n : String}, F.nameAt? p = some n → F.nameAt? q = some n → p = q
  spelled : ∀ {p : Place} {n : String}, F.nameAt? p = some n → Spelled n
  slots : ∀ {p : Place} {i : Nat}, F.nameAt? p = some (argumentName i) →
    slotted i ∧ ∃ k x, p = .instr k ∧ F.instrs[k]? = some x ∧ x.op = .alloca

section

variable {F G : Function} {slotted : Nat → Prop} {name : String}

theorem Named.empty (hparams : ∀ p ∈ F.params, p.name = "") (hblocks : F.blocks = #[]) (hinstrs : F.instrs = #[]) :
    Named slotted F := by
  have hnone : ∀ p, F.nameAt? p = none := by
    intro p
    cases p <;> simp [nameAt?, hblocks, hinstrs]
  refine ⟨hparams, fun hp ↦ ?_, fun hp ↦ ?_, fun hp ↦ ?_, fun hp ↦ ?_⟩ <;>
    (rw [hnone] at hp; cases hp)

theorem uniqueName_cases (F : Function) (h : name ≠ "") :
    (F.uniqueName name).1 = name ∨ ∃ n, (F.uniqueName name).1 = suffixed name n := by
  unfold uniqueName
  rw [if_neg h]
  split
  · exact .inl rfl
  · rename_i n _
    dsimp only
    generalize F.names.map _ = counted
    obtain ⟨k, -, heq, -⟩ := freshSuffix_first name counted n
    exact .inr ⟨k, heq⟩

theorem spelled_uniqueName (h : Spelled name) : Spelled (F.uniqueName name).1 := by
  rcases F.uniqueName_cases h.ne_empty with heq | ⟨n, heq⟩ <;> rw [heq]
  · exact h
  · exact h.suffixed n

theorem uniqueName_eq_argumentName {i : Nat} (h : name ≠ "") (heq : (F.uniqueName name).1 = argumentName i) :
    name = argumentName i := by
  rcases F.uniqueName_cases h with h' | ⟨n, h'⟩
  · exact h'.symm.trans heq
  · exact absurd (h'.symm.trans heq) (suffixed_ne_argumentName name n i)

/-- The names of a function stay good when one thing more gets a name that was asked for. -/
theorem Named.extend (h : Named slotted F) (hname : Spelled name) (new : Place) (hparams : G.params = F.params)
    (htaken : G.taken = (F.uniqueName name).2.taken)
    (hnames : ∀ {p : Place} {n : String}, G.nameAt? p = some n → F.nameAt? p = some n ∨ p = new ∧
    n = (F.uniqueName name).1) (hold : ∀ {k : Nat} {x : Instr}, F.instrs[k]? = some x → G.instrs[k]? = some x)
    (hnew : ∀ i, name = argumentName i → slotted i ∧ ∃ k x, new = .instr k ∧ G.instrs[k]? = some x ∧ x.op = .alloca) :
    Named slotted G := by
  obtain ⟨-, hfresh, hgrown⟩ := F.uniqueName_fresh hname.ne_empty
  refine ⟨hparams ▸ h.params, fun {p n} hn ↦ ?_, fun {p q n} hp hq ↦ ?_, fun {p n} hn ↦ ?_, fun {p i} hn ↦ ?_⟩
  · rw [htaken, hgrown]
    rcases hnames hn with hn | ⟨-, rfl⟩
    · exact List.mem_cons_of_mem _ (h.taken hn)
    · exact List.mem_cons_self
  · rcases hnames hp with hp | ⟨rfl, rfl⟩ <;> rcases hnames hq with hq | ⟨rfl, hn⟩
    · exact h.apart hp hq
    · exact absurd (hn ▸ h.taken hp) hfresh
    · exact absurd (h.taken hq) hfresh
    · rfl
  · rcases hnames hn with hn | ⟨-, rfl⟩
    · exact h.spelled hn
    · exact spelled_uniqueName hname
  · rcases hnames hn with hn | ⟨rfl, hn⟩
    · obtain ⟨hi, k, x, hp, hx, hop⟩ := h.slots hn
      exact ⟨hi, k, x, hp, hold hx, hop⟩
    · exact hnew i (uniqueName_eq_argumentName hname.ne_empty hn.symm)

theorem nameAt?_append_block (F : Function) (b : Nat) (i : Instr) (c : Nat) :
    (F.append b i).1.nameAt? (.block c) = F.nameAt? (.block c) := by
  simp only [nameAt?, Lowering.append_blocks, Array.getElem?_modify]
  split
  · rw [Option.map_map]
    rfl
  · rfl

theorem nameAt?_append_instr (F : Function) (b : Nat) (i : Instr) (k : Nat) : (F.append b i).1.nameAt? (.instr k) =
    if k = F.instrs.size then (some (F.uniqueName i.name).1).filter (· ≠ "") else F.nameAt? (.instr k) := by
  simp only [nameAt?, Lowering.append_instrs, Array.getElem?_push]
  split <;> rfl

theorem instrs_append_old {b k : Nat} {i x : Instr} (hx : F.instrs[k]? = some x) :
    (F.append b i).1.instrs[k]? = some x := by
  have hlt := (Array.getElem?_eq_some_iff.mp hx).1
  rw [Lowering.append_instrs, Array.getElem?_push, if_neg (by omega), hx]

/-- An instruction that asks for no name, or a slot that asks for one, is put into a block. -/
theorem Named.append (h : Named slotted F) (b : Nat) {i : Instr} (hi : i.name = "" ∨ Spelled i.name ∧ i.op = .alloca)
    (harg : ∀ j, i.name = argumentName j → slotted j) : Named slotted (F.append b i).1 := by
  rcases hi with hnone | ⟨hname, hop⟩
  · have hnames : ∀ {n : String} (p : Place), (F.append b i).1.nameAt? p = some n → F.nameAt? p = some n := by
      intro n p hn
      cases p with
      | block c => rwa [nameAt?_append_block] at hn
      | instr k =>
        rw [nameAt?_append_instr, hnone, uniqueName_empty] at hn
        split at hn
        · cases hn
        · exact hn
    have htaken : (F.append b i).1.taken = F.taken := by
      change (F.uniqueName i.name).2.taken = F.taken
      rw [hnone, uniqueName_empty]
    refine ⟨Lowering.append_params F b i ▸ h.params, fun hn ↦ htaken ▸ h.taken (hnames _ hn),
      fun hp hq ↦ h.apart (hnames _ hp) (hnames _ hq), fun hn ↦ h.spelled (hnames _ hn), fun hn ↦ ?_⟩
    obtain ⟨hi, k, x, hp, hx, hop⟩ := h.slots (hnames _ hn)
    exact ⟨hi, k, x, hp, instrs_append_old hx, hop⟩
  · refine h.extend hname (.instr F.instrs.size) (Lowering.append_params F b i) rfl (fun {p n} hn ↦ ?_)
      instrs_append_old fun j hj ↦ ⟨harg j hj, F.instrs.size, Lowering.placed F b i, rfl, Lowering.append_found i, hop⟩
    cases p with
    | block c => exact .inl (nameAt?_append_block F b i c ▸ hn)
    | instr k =>
      rw [nameAt?_append_instr] at hn
      split at hn
      · rename_i hk
        exact .inr ⟨by rw [hk], (Option.some.inj (Option.filter_eq_some_iff.mp hn).1).symm⟩
      · exact .inl hn

theorem Named.addBlock (h : Named slotted F) (hname : Spelled name) (harg : ∀ i, name ≠ argumentName i) :
    Named slotted (F.addBlock name).1 := by
  have hadd : F.addBlock name = ({ (F.uniqueName name).2 with
      blocks := (F.uniqueName name).2.blocks.push ⟨(F.uniqueName name).1, []⟩ }, F.blocks.size) := by
    rw [Function.addBlock, if_neg hname.ne_empty]
  obtain ⟨hinstrs, hblocks, -, -, -, hparams⟩ := Lowering.uniqueName_kept F name
  rw [hadd]
  refine h.extend hname (.block F.blocks.size) hparams rfl (fun {p n} hn ↦ ?_) (fun hx ↦ hinstrs ▸ hx)
    fun i hi ↦ absurd hi (harg i)
  cases p with
  | block c =>
    simp only [nameAt?, hblocks, Array.getElem?_push] at hn
    split at hn
    · rename_i hc
      exact .inr ⟨by rw [hc], (Option.some.inj hn).symm⟩
    · exact .inl hn
  | instr k =>
    rw [nameAt?, hinstrs] at hn
    exact .inl hn

theorem nameAt?_addBlock_instrs (F : Function) (name : String) : (F.addBlock name).1.instrs = F.instrs :=
  (Lowering.uniqueName_kept F _).1

/-! ### Instructions that blocks list -/

/-- Blocks list instructions that there are, and each one at most once. -/
structure Listed (F : Function) : Prop where
  below : ∀ {b k : Nat} {B : Block}, F.blocks[b]? = some B → k ∈ B.instrs → k < F.instrs.size
  once : ∀ {b : Nat} {B : Block}, F.blocks[b]? = some B → B.instrs.Nodup
  apart : ∀ {b c k : Nat} {B C : Block}, F.blocks[b]? = some B → F.blocks[c]? = some C → k ∈ B.instrs →
    k ∈ C.instrs → b = c

theorem Listed.empty (hblocks : F.blocks = #[]) : F.Listed := by
  refine ⟨fun hB ↦ ?_, fun hB ↦ ?_, fun hB ↦ ?_⟩ <;> simp [hblocks] at hB

theorem Listed.append (h : F.Listed) (b : Nat) (i : Instr) : (F.append b i).1.Listed := by
  have hblock : ∀ {c : Nat} {C : Block}, (F.append b i).1.blocks[c]? = some C → ∃ B, F.blocks[c]? = some B ∧
      C.instrs = if b = c then B.instrs ++ [F.instrs.size] else B.instrs := by
    intro c C hC
    rw [Lowering.append_blocks, Array.getElem?_modify] at hC
    split at hC
    · rename_i hbc
      obtain ⟨B, hB, rfl⟩ := Option.map_eq_some_iff.mp hC
      exact ⟨B, hB, by rw [if_pos hbc]⟩
    · rename_i hbc
      exact ⟨C, hC, by rw [if_neg hbc]⟩
  have hmem : ∀ {c k : Nat} {C : Block}, (F.append b i).1.blocks[c]? = some C → k ∈ C.instrs →
      (∃ B, F.blocks[c]? = some B ∧ k ∈ B.instrs) ∨ b = c ∧ k = F.instrs.size := by
    intro c k C hC hk
    obtain ⟨B, hB, hlist⟩ := hblock hC
    rw [hlist] at hk
    split at hk
    · rename_i hbc
      exact (List.mem_append.mp hk).imp (fun hk ↦ ⟨B, hB, hk⟩) fun hk ↦ ⟨hbc, List.mem_singleton.mp hk⟩
    · exact .inl ⟨B, hB, hk⟩
  refine ⟨fun {c k C} hC hk ↦ ?_, fun {c C} hC ↦ ?_, fun {c d k C D} hC hD hkC hkD ↦ ?_⟩
  · rw [Lowering.append_instrs, Array.size_push]
    rcases hmem hC hk with ⟨B, hB, hk⟩ | ⟨-, rfl⟩
    · exact Nat.lt_succ_of_lt (h.below hB hk)
    · exact Nat.lt_succ_self _
  · obtain ⟨B, hB, hlist⟩ := hblock hC
    rw [hlist]
    split
    · refine List.nodup_append'.mpr ⟨h.once hB, List.nodup_singleton _, fun k hk hnew ↦ ?_⟩
      exact Nat.lt_irrefl _ (List.mem_singleton.mp hnew ▸ h.below hB hk)
    · exact h.once hB
  · rcases hmem hC hkC with ⟨B, hB, hk⟩ | ⟨rfl, rfl⟩ <;> rcases hmem hD hkD with ⟨B', hB', hk'⟩ | ⟨rfl, hk'⟩
    · exact h.apart hB hB' hk hk'
    · exact absurd (hk' ▸ h.below hB hk) (Nat.lt_irrefl _)
    · exact absurd (h.below hB' hk') (Nat.lt_irrefl _)
    · rfl

theorem Listed.addBlock (h : F.Listed) (name : String) : (F.addBlock name).1.Listed := by
  obtain ⟨hinstrs, hblocks, -, -, -, -⟩ := Lowering.uniqueName_kept F (if name = "" then "bb" else name)
  have hblock : ∀ {c : Nat} {C : Block}, (F.addBlock name).1.blocks[c]? = some C → F.blocks[c]? = some C ∨
      C.instrs = [] := by
    intro c C hC
    simp only [Function.addBlock, hblocks, Array.getElem?_push] at hC
    split at hC
    · exact .inr (Option.some.inj hC ▸ rfl)
    · exact .inl hC
  have hmem : ∀ {c k : Nat} {C : Block}, (F.addBlock name).1.blocks[c]? = some C → k ∈ C.instrs →
    F.blocks[c]? = some C :=
    fun hC hk ↦ (hblock hC).resolve_right fun hnil ↦ absurd (hnil ▸ hk) List.not_mem_nil
  refine ⟨fun hC hk ↦ ?_, fun hC ↦ ?_, fun hC hD hk hk' ↦ h.apart (hmem hC hk) (hmem hD hk') hk hk'⟩
  · exact (congrArg Array.size (nameAt?_addBlock_instrs F name)).symm ▸ h.below (hmem hC hk) hk
  · rcases hblock hC with hC | hnil
    · exact h.once hC
    · exact hnil ▸ List.nodup_nil

/-! ### What keeps names -/

theorem found_of_mem {p : Nat × Instr} (hp : p ∈ F.instructions) : F.instrs[p.1]? = some p.2 := by
  obtain ⟨b, hl⟩ := F.mem_instructions.mp hp
  exact hl.found

/-- Names are as they were, and blocks list no other instructions than they did. -/
structure SameNames (F G : Function) : Prop where
  params : G.params = F.params
  names : G.names = F.names
  size : G.instrs.size = F.instrs.size
  instrs : ∀ {k : Nat} {x : Instr}, F.instrs[k]? = some x → ∃ y, G.instrs[k]? = some y ∧ y.name = x.name ∧ y.op = x.op
  labels : ∀ b : Nat, G.blocks[b]?.map (·.name) = F.blocks[b]?.map (·.name)
  lists : ∀ {b : Nat} {C : Block}, G.blocks[b]? = some C → ∃ B, F.blocks[b]? = some B ∧ C.instrs.Sublist B.instrs

namespace SameNames

variable {H : Function}

theorem refl (F : Function) : SameNames F F :=
  ⟨rfl, rfl, rfl, fun hx ↦ ⟨_, hx, rfl, rfl⟩, fun _ ↦ rfl, fun hB ↦ ⟨_, hB, .refl _⟩⟩

theorem trans (h : SameNames F G) (h' : SameNames G H) : SameNames F H := by
  refine ⟨h'.params.trans h.params, h'.names.trans h.names, h'.size.trans h.size, fun hx ↦ ?_,
    fun b ↦ (h'.labels b).trans (h.labels b), fun hD ↦ ?_⟩
  · obtain ⟨y, hy, hname, hop⟩ := h.instrs hx
    obtain ⟨z, hz, hname', hop'⟩ := h'.instrs hy
    exact ⟨z, hz, hname'.trans hname, hop'.trans hop⟩
  · obtain ⟨C, hC, hsub⟩ := h'.lists hD
    obtain ⟨B, hB, hsub'⟩ := h.lists hC
    exact ⟨B, hB, hsub.trans hsub'⟩

theorem of_instrs (hsize : G.instrs.size = F.instrs.size)
    (h : ∀ {k : Nat} {x : Instr}, F.instrs[k]? = some x → ∃ y, G.instrs[k]? = some y ∧ y.name = x.name ∧ y.op = x.op)
    (hG : G = { F with instrs := G.instrs, nextNumber := G.nextNumber }) : SameNames F G := by
  have hblocks : G.blocks = F.blocks := by rw [hG]
  exact ⟨by rw [hG], by rw [hG], hsize, h, fun b ↦ by rw [hblocks], fun hC ↦ ⟨_, hblocks ▸ hC, .refl _⟩⟩

theorem modified (F : Function) (k : Nat) {f : Instr → Instr} (h : ∀ x, (f x).name = x.name ∧ (f x).op = x.op) :
    SameNames F { F with instrs := F.instrs.modify k f } := by
  refine .of_instrs Array.size_modify (fun {j x} hx ↦ ?_) rfl
  rw [Array.getElem?_modify, hx]
  split
  · exact ⟨f x, rfl, h x⟩
  · exact ⟨x, rfl, rfl, rfl⟩

theorem removeFrom (F : Function) (b k : Nat) : SameNames F (F.removeFrom b k) := by
  unfold Function.removeFrom
  split
  · refine (modified F k (f := fun x ↦ { x with home := none }) fun _ ↦ ⟨rfl, rfl⟩).trans
      ⟨rfl, rfl, rfl, fun hx ↦ ⟨_, hx, rfl, rfl⟩, fun c ↦ ?_, fun {c C} hC ↦ ?_⟩
    · dsimp only
      rw [Array.getElem?_modify]
      split
      · rw [Option.map_map]
        rfl
      · rfl
    · dsimp only at hC
      rw [Array.getElem?_modify] at hC
      split at hC
      · obtain ⟨B, hB, rfl⟩ := Option.map_eq_some_iff.mp hC
        exact ⟨B, hB, List.erase_sublist⟩
      · exact ⟨C, hC, .refl _⟩
  · exact refl F

theorem replaceAllUses (F : Function) (old new : Value) : SameNames F (F.replaceAllUses old new) := by
  unfold Function.replaceAllUses
  induction F.instructions generalizing F with
  | nil => exact refl F
  | cons p ps ih =>
    have hone : SameNames F (F.replaceOperand p.1 (some old) (some new)) := modified F p.1 fun _ ↦ ⟨rfl, rfl⟩
    exact hone.trans (ih _)

theorem reassociate (F : Function) : SameNames F (Passes.reassociate F).f := by
  have hkeeps : ∀ {i j : Instr}, Passes.reassociated? i = some j → j.name = i.name ∧ j.op = i.op := by
    intro i j h
    unfold Passes.reassociated? at h
    repeat' split at h
    all_goals cases h
    all_goals exact ⟨rfl, rfl⟩
  -- What is put in is made of the instruction of the function as it was at first.
  unfold Passes.reassociate
  refine List.foldlRecOn (motive := fun c : Passes.Changing ↦ SameNames F c.f) _ _ (refl F) fun c hc p hp ↦ ?_
  dsimp only
  split
  · rename_i y hy
    refine ⟨hc.params, hc.names, by rw [Array.size_set!, hc.size], fun {k x} hx ↦ ?_, hc.labels, hc.lists⟩
    rw [Array.set!_eq_setIfInBounds, Array.getElem?_setIfInBounds]
    split
    · rename_i hk
      subst hk
      obtain rfl : p.2 = x := Option.some.inj ((found_of_mem hp).symm.trans hx)
      rw [if_pos (hc.size.symm ▸ (Array.getElem?_eq_some_iff.mp hx).1)]
      exact ⟨y, rfl, hkeeps hy⟩
    · exact hc.instrs hx
  · exact hc

theorem covers : Passes.Covers SameNames where
  refl := refl
  trans := trans
  removed := removeFrom
  exchanged F k v := replaceAllUses F (F.result k) v
  reassociated := reassociate

theorem nameAt? (h : SameNames F G) (p : Place) : G.nameAt? p = F.nameAt? p := by
  cases p with
  | block b => exact h.labels b
  | instr k =>
    simp only [Function.nameAt?]
    cases hx : F.instrs[k]? with
    | some x =>
      obtain ⟨y, hy, hname, -⟩ := h.instrs hx
      rw [hy, Option.map_some, Option.map_some, hname]
    | none =>
      have hy : G.instrs[k]? = none := by
        rw [Array.getElem?_eq_none_iff, h.size]
        exact Array.getElem?_eq_none_iff.mp hx
      rw [hy]

theorem named (h : SameNames F G) (hF : Named slotted F) : Named slotted G := by
  refine ⟨h.params ▸ hF.params, fun {p n} hp ↦ ?_, fun {p q n} hp hq ↦ ?_, fun {p n} hp ↦ ?_, fun {p i} hp ↦ ?_⟩
  · rw [taken, h.names]
    exact hF.taken (h.nameAt? p ▸ hp)
  · exact hF.apart (h.nameAt? p ▸ hp) (h.nameAt? q ▸ hq)
  · exact hF.spelled (h.nameAt? p ▸ hp)
  · obtain ⟨hi, k, x, hk, hx, hop⟩ := hF.slots (h.nameAt? p ▸ hp)
    obtain ⟨y, hy, -, hop'⟩ := h.instrs hx
    exact ⟨hi, k, y, hk, hy, hop'.trans hop⟩

theorem listed (h : SameNames F G) (hF : F.Listed) : G.Listed := by
  refine ⟨fun hC hk ↦ ?_, fun hC ↦ ?_, fun hC hD hk hk' ↦ ?_⟩
  · obtain ⟨B, hB, hsub⟩ := h.lists hC
    exact h.size ▸ hF.below hB (hsub.subset hk)
  · obtain ⟨B, hB, hsub⟩ := h.lists hC
    exact (hF.once hB).sublist hsub
  · obtain ⟨B, hB, hsub⟩ := h.lists hC
    obtain ⟨B', hB', hsub'⟩ := h.lists hD
    exact hF.apart hB hB' (hsub.subset hk) (hsub'.subset hk')

end SameNames

/-! ### Numbers -/

def numberFrom (instrs : Array Instr) (ks : List Nat) (n : Nat) : Array Instr :=
  (ks.foldl (fun (acc : Array Instr × Nat) k ↦ (acc.1.modify k fun x ↦ { x with number := acc.2 }, acc.2 + 1)) (instrs,
  n)).1

theorem getElem?_numberFrom {ks : List Nat} (hks : ks.Nodup) (instrs : Array Instr) (n k : Nat) :
    (numberFrom instrs ks n)[k]? =
      instrs[k]?.map fun x ↦ if k ∈ ks then { x with number := n + ks.idxOf k } else x := by
  induction ks generalizing instrs n with
  | nil => simp [numberFrom]
  | cons j ks ih =>
    obtain ⟨hj, hks⟩ := List.nodup_cons.mp hks
    change (numberFrom (instrs.modify j fun x ↦ { x with number := n }) ks (n + 1))[k]? = _
    rw [ih hks, Array.getElem?_modify]
    by_cases hjk : j = k
    · subst hjk
      rw [if_pos rfl, Option.map_map]
      congr 1
      funext x
      simp [hj]
    · rw [if_neg hjk]
      congr 1
      funext x
      have hidx : (j :: ks).idxOf k = ks.idxOf k + 1 := List.idxOf_cons_ne ks hjk
      have hmem : k ∈ j :: ks ↔ k ∈ ks := List.mem_cons.trans (or_iff_right (Ne.symm hjk))
      simp only [hmem, hidx, Nat.add_assoc, Nat.add_comm 1]

def IsNumbered (x : Instr) : Prop := x.name = "" ∧ x.hasValue = true

instance (x : Instr) : Decidable (IsNumbered x) := inferInstanceAs (Decidable (_ ∧ _))

def numbered (F : Function) : List Nat := (F.instructions.filter fun p ↦ IsNumbered p.2).map (·.1)

theorem renumber_instrs (F : Function) : F.renumber.instrs = numberFrom F.instrs F.numbered 0 := by
  have hfold : ∀ (step : Array Instr × Nat → Nat × Instr → Array Instr × Nat),
      (∀ acc p, step acc p =
        if IsNumbered p.2 then (acc.1.modify p.1 fun x ↦ { x with number := acc.2 }, acc.2 + 1) else acc) →
      ∀ (ps : List (Nat × Instr)) (instrs : Array Instr) (n : Nat), (ps.foldl step (instrs, n)).1 =
        numberFrom instrs ((ps.filter fun p ↦ IsNumbered p.2).map (·.1)) n := by
    intro step hstep ps
    induction ps with
    | nil => exact fun _ _ ↦ rfl
    | cons p ps ih =>
      intro instrs n
      rw [List.foldl_cons, hstep, List.filter_cons]
      by_cases h : IsNumbered p.2
      · rw [if_pos h, if_pos (decide_eq_true h)]
        exact ih _ _
      · rw [if_neg h, if_neg fun hx ↦ h (of_decide_eq_true hx)]
        exact ih _ _
  exact hfold _ (fun _ _ ↦ rfl) F.instructions F.instrs 0

theorem Listed.nodup (h : F.Listed) : (F.instructions.map (·.1)).Nodup := by
  have hone : ∀ ks : List Nat, ((ks.filterMap fun i ↦ (F.instr? i).map fun x ↦ (i, x)).map (·.1)).Sublist ks := by
    intro ks
    induction ks with
    | nil => exact .refl _
    | cons k ks ih =>
      rw [List.filterMap_cons]
      cases hk : F.instr? k with
      | none => exact ih.cons k
      | some x => exact ih.cons_cons k
  rw [instructions, List.map_flatMap, List.nodup_flatMap]
  refine ⟨fun B hB ↦ ?_, List.pairwise_iff_getElem.mpr fun b c hb hc hlt k hk hk' ↦ ?_⟩
  · obtain ⟨b, hb⟩ := List.getElem?_of_mem hB
    exact (h.once (by rw [← hb, Array.getElem?_toList])).sublist (hone B.instrs)
  · have hB : ∀ d (hd : d < F.blocks.toList.length), F.blocks[d]? = some F.blocks.toList[d] := by
      intro d hd
      rw [← Array.getElem?_toList, List.getElem?_eq_getElem hd]
    exact absurd (h.apart (hB b hb) (hB c hc) ((hone _).subset hk) ((hone _).subset hk')) (Nat.ne_of_lt hlt)

theorem Listed.numbered_nodup (h : F.Listed) : F.numbered.Nodup := h.nodup.sublist (List.filter_sublist.map _)

theorem SameNames.renumber (h : F.Listed) : SameNames F F.renumber := by
  have hinstrs : ∀ k, F.renumber.instrs[k]? = _ := fun k ↦ by
    rw [renumber_instrs, getElem?_numberFrom h.numbered_nodup F.instrs 0 k]
  refine .of_instrs ?_ (fun {k x} hx ↦ ?_) rfl
  · have hsize : ∀ (ks : List Nat) (instrs : Array Instr) (n : Nat), (numberFrom instrs ks n).size = instrs.size := by
      intro ks
      induction ks with
      | nil => exact fun _ _ ↦ rfl
      | cons k ks ih => exact fun instrs n ↦ (ih _ _).trans Array.size_modify
    rw [renumber_instrs, hsize]
  · rw [hinstrs, hx, Option.map_some]
    split
    · exact ⟨_, rfl, rfl, rfl⟩
    · exact ⟨_, rfl, rfl, rfl⟩

/-- In a function that was numbered anew two results without names have different numbers. -/
theorem renumber_apart (h : F.Listed) {j k : Nat} {x y : Instr} (hx : (j, x) ∈ F.renumber.instructions)
    (hy : (k, y) ∈ F.renumber.instructions) (hnx : IsNumbered x) (hny : IsNumbered y)
    (heq : x.number = y.number) : j = k := by
  have hplace : ∀ {k : Nat} {y : Instr}, (k, y) ∈ F.renumber.instructions → IsNumbered y →
      k ∈ F.numbered ∧ y.number = F.numbered.idxOf k := by
    intro k y hy hny
    obtain ⟨b, ⟨B, hB, hk⟩, hfound⟩ := (mem_instructions _).mp hy
    rw [instr?, renumber_instrs, getElem?_numberFrom h.numbered_nodup] at hfound
    obtain ⟨z, hz, hzy⟩ := Option.map_eq_some_iff.mp hfound
    have hmem : k ∈ F.numbered := by
      refine List.mem_map.mpr ⟨(k, z), List.mem_filter.mpr ⟨F.mem_instructions.mpr ⟨b, ⟨B, hB, hk⟩, hz⟩, ?_⟩, rfl⟩
      refine decide_eq_true ?_
      split at hzy <;> (subst hzy; exact hny)
    rw [if_pos hmem, Nat.zero_add] at hzy
    exact ⟨hmem, by rw [← hzy]⟩
  obtain ⟨hj, hxn⟩ := hplace hx hnx
  obtain ⟨-, hyn⟩ := hplace hy hny
  exact (List.idxOf_inj hj).mp (hxn.symm.trans (heq.trans hyn))

/-! ### The printed function -/

def resultNames (F : Function) : List String := (F.instructions.filter fun p ↦ p.2.hasValue).map fun p ↦ p.2.ref

def paramNames (F : Function) : List String := F.params.zipIdx.map fun p ↦ p.1.ref p.2

def labelNames (F : Function) : List String := F.blocks.toList.map Block.label

/-- In the text of a function blocks and results have names of their own, and so have parameters among themselves. The
name of a parameter may stand for one thing more: the slot of an argument in `slotted`. -/
structure Unambiguous (slotted : Nat → Prop) (F : Function) : Prop where
  values : (F.labelNames ++ F.resultNames).Nodup
  params : F.paramNames.Nodup
  labels : ∀ p ∈ F.paramNames, p ∉ F.labelNames
  slots : ∀ (i : Nat) (p : Param), F.params[i]? = some p → p.ref i ∈ F.resultNames →
    slotted i ∧ ∃ k x, (k, x) ∈ F.instructions ∧ x.ref = p.ref i ∧ x.op = .alloca

theorem Unambiguous.nodup (h : Unambiguous slotted F) (hnone : ∀ i, ¬ slotted i) :
    (F.paramNames ++ (F.labelNames ++ F.resultNames)).Nodup := by
  refine List.nodup_append'.mpr ⟨h.params, h.values, fun name hp hv ↦ ?_⟩
  rcases List.mem_append.mp hv with hv | hv
  · exact h.labels name hp hv
  · obtain ⟨⟨p, i⟩, hpi, rfl⟩ := List.mem_map.mp hp
    exact hnone i (h.slots i p (List.mem_zipIdx_iff_getElem?.mp hpi) hv).1

theorem local_eq_iff {m n : String} (hm : Spelled m) (hn : Spelled n) : "%" ++ quoteName m = "%" ++
    quoteName n ↔ m = n := by
  rw [quoteName_plain hm.plain, quoteName_plain hn.plain, String.append_right_inj]

theorem local_ne_number {m : String} (hm : Spelled m) (n : Nat) : "%" ++ quoteName m ≠ "%" ++ toString n := by
  rw [quoteName_plain hm.plain, Ne, String.append_right_inj]
  exact hm.ne_toString n

theorem paramRef_eq {p : Param} (h : p.name = "") (i : Nat) : p.ref i = "%" ++ quoteName (argumentName i) := by
  rw [Param.ref, if_pos h, quoteName_plain (Spelled.argumentName i).plain, argumentName, ← String.append_assoc]
  rfl

namespace Named

variable (h : Named slotted F) {b k : Nat} {B : Block} {x : Instr}

include h

theorem nameAt?_block (hB : F.blocks[b]? = some B) : F.nameAt? (.block b) = some B.name ∧ Spelled B.name := by
  have hname : F.nameAt? (.block b) = some B.name := by rw [nameAt?, hB, Option.map_some]
  exact ⟨hname, h.spelled hname⟩

theorem nameAt?_instr (hx : F.instrs[k]? = some x) (hname : x.name ≠ "") :
    F.nameAt? (.instr k) = some x.name ∧ Spelled x.name := by
  have hat : F.nameAt? (.instr k) = some x.name := by
    rw [nameAt?, hx, Option.map_some, Option.filter_some, if_pos (by simpa using hname)]
  exact ⟨hat, h.spelled hat⟩

theorem ref_eq {n : String} (hn : Spelled n) (hx : F.instrs[k]? = some x) (heq : x.ref = "%" ++ quoteName n) :
    F.nameAt? (.instr k) = some n := by
  rw [Instr.ref] at heq
  split at heq
  · exact absurd heq.symm (local_ne_number hn x.number)
  · rename_i hname
    obtain ⟨hat, hspelled⟩ := h.nameAt?_instr hx hname
    rw [hat, (local_eq_iff hspelled hn).mp heq]

end Named

/-- A function that is printed is numbered anew; then its local names tell things apart but for parameters and slots. -/
theorem Named.unambiguous (h : Named slotted F) (hlisted : F.Listed) : Unambiguous slotted F.renumber := by
  have hsame := SameNames.renumber hlisted
  have hnamed := hsame.named h
  have hlist := hsame.listed hlisted
  refine ⟨List.nodup_append'.mpr ⟨?_, ?_, fun name hl hr ↦ ?_⟩, ?_, fun name hp hl ↦ ?_, fun i p hp hr ↦ ?_⟩
  · -- Blocks.
    rw [labelNames, List.Nodup, List.pairwise_map]
    refine List.pairwise_iff_getElem.mpr fun b c hb hc hlt heq ↦ ?_
    have hB : ∀ d (hd : d < F.renumber.blocks.toList.length), F.renumber.blocks[d]? =
        some F.renumber.blocks.toList[d] := by
      intro d hd
      rw [← Array.getElem?_toList, List.getElem?_eq_getElem hd]
    obtain ⟨hbn, hbs⟩ := hnamed.nameAt?_block (hB b hb)
    obtain ⟨hcn, hcs⟩ := hnamed.nameAt?_block (hB c hc)
    have hplace := hnamed.apart hbn ((local_eq_iff hbs hcs).mp heq ▸ hcn)
    exact Nat.ne_of_lt hlt (Place.block.inj hplace)
  · -- Results: two with names, two with numbers, or one of each.
    refine List.Nodup.map_on (fun p hp q hq heq ↦ ?_) (hlist.nodup.of_map.filter _)
    obtain ⟨j, x⟩ := p
    obtain ⟨k, y⟩ := q
    obtain ⟨hx, hvx⟩ := List.mem_filter.mp hp
    obtain ⟨hy, hvy⟩ := List.mem_filter.mp hq
    have hfx : F.renumber.instrs[j]? = some x := found_of_mem hx
    have hfy : F.renumber.instrs[k]? = some y := found_of_mem hy
    suffices hjk : j = k by
      subst hjk
      rw [Option.some.inj (hfx.symm.trans hfy)]
    by_cases hnx : x.name = ""
    · by_cases hny : y.name = ""
      · refine renumber_apart hlisted hx hy ⟨hnx, hvx⟩ ⟨hny, hvy⟩ ?_
        simp only [Instr.ref, if_pos hnx, if_pos hny, String.append_right_inj] at heq
        exact Nat.repr_inj.mp heq
      · have hspelled := (hnamed.nameAt?_instr hfy hny).2
        simp only [Instr.ref, if_pos hnx, if_neg hny] at heq
        exact absurd heq.symm (local_ne_number hspelled x.number)
    · obtain ⟨hat, hspelled⟩ := hnamed.nameAt?_instr hfx hnx
      have hx : x.ref = "%" ++ quoteName x.name := if_neg hnx
      exact Place.instr.inj (hnamed.apart hat (hnamed.ref_eq hspelled hfy (heq.symm.trans hx)))
  · -- A block and a result.
    obtain ⟨B, hB, rfl⟩ := List.mem_map.mp hl
    obtain ⟨⟨k, x⟩, hx, heq⟩ := List.mem_map.mp hr
    obtain ⟨b, hb⟩ := List.getElem?_of_mem hB
    obtain ⟨hbn, hbs⟩ := hnamed.nameAt?_block (by rw [← hb, Array.getElem?_toList])
    have hat := hnamed.ref_eq hbs (found_of_mem (List.mem_filter.mp hx).1) heq
    cases hnamed.apart hbn hat
  · -- Parameters.
    rw [paramNames, List.Nodup, List.pairwise_map]
    refine List.pairwise_iff_getElem.mpr fun i j hi hj hlt heq ↦ ?_
    rw [List.getElem_zipIdx, List.getElem_zipIdx, paramRef_eq (hnamed.params _ (List.getElem_mem _)),
      paramRef_eq (hnamed.params _ (List.getElem_mem _)), local_eq_iff (.argumentName _) (.argumentName _)] at heq
    have := argumentName_injective heq
    omega
  · -- A parameter and a block.
    obtain ⟨⟨p, i⟩, hpi, rfl⟩ := List.mem_map.mp hp
    obtain ⟨B, hB, heq⟩ := List.mem_map.mp hl
    obtain ⟨b, hb⟩ := List.getElem?_of_mem hB
    obtain ⟨hbn, hbs⟩ := hnamed.nameAt?_block (by rw [← hb, Array.getElem?_toList])
    have hmem : p ∈ F.renumber.params := List.mem_of_getElem? (List.mem_zipIdx_iff_getElem?.mp hpi)
    rw [paramRef_eq (hnamed.params p hmem)] at heq
    obtain ⟨-, k, x, hk, -⟩ := hnamed.slots ((local_eq_iff hbs (.argumentName i)).mp heq ▸ hbn)
    cases hk
  · -- A parameter and a result.
    obtain ⟨⟨k, x⟩, hx, heq⟩ := List.mem_map.mp hr
    have hmem := (List.mem_filter.mp hx).1
    have hfound := found_of_mem hmem
    have href := heq
    rw [paramRef_eq (hnamed.params p (List.mem_of_getElem? hp))] at heq
    obtain ⟨hi, j, y, hj, hy, hop⟩ := hnamed.slots (hnamed.ref_eq (.argumentName i) hfound heq)
    cases hj
    obtain rfl : y = x := Option.some.inj (hy.symm.trans hfound)
    exact ⟨hi, k, y, hmem, href, hop⟩

end

end Function

end CilSsa.Ssa

