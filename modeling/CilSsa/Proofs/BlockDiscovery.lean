import Mathlib.Algebra.Order.Ring.Int
import CilSsa.Bytecode.Blocks
import CilSsa.Proofs.Traversals
import Mathlib.Data.List.Chain

namespace CilSsa.Bytecode

open CilSsa.Text

/-- Instructions side by side from one offset up to another. -/
inductive Chain : Nat → List Instruction → Nat → Prop
  | nil {o : Nat} : Chain o [] o
  | cons {o : Nat} {i : Instruction} {is : List Instruction} {stop : Nat} : i.offset = o → 0 < i.size →
      Chain i.next is stop → Chain o (i :: is) stop

namespace Chain

variable {o mid stop : Nat} {is is' : List Instruction} {i : Instruction}

theorem append (h : Chain o is mid) (h' : Chain mid is' stop) : Chain o (is ++ is') stop := by
  induction h with
  | nil => exact h'
  | cons ho hi _ ih => exact .cons ho hi (ih h')

theorem le (h : Chain o is stop) : o ≤ stop := by
  induction h with
  | nil => exact Nat.le_refl _
  | cons ho _ _ ih =>
    rw [← ho]
    exact Nat.le_trans (Nat.le_add_right _ _) ih

theorem mem (h : Chain o is stop) (hi : i ∈ is) : o ≤ i.offset ∧ i.offset < i.next ∧ i.next ≤ stop := by
  induction h with
  | nil => cases hi
  | cons ho hpos hrest ih =>
    rename_i o j js stop
    subst ho
    have hle := hrest.le
    rcases List.mem_cons.mp hi with rfl | hi
    · exact ⟨Nat.le_refl _, Nat.lt_add_of_pos_right hpos, hle⟩
    · obtain ⟨h1, h2, h3⟩ := ih hi
      have : j.offset ≤ j.next := Nat.le_add_right _ _
      exact ⟨by omega, h2, h3⟩

theorem find (h : Chain o is stop) (hi : i ∈ is) : is.find? (fun j ↦ j.offset = i.offset) = some i := by
  induction h with
  | nil => cases hi
  | cons ho hpos hrest ih =>
    rename_i o j js stop
    rcases List.mem_cons.mp hi with rfl | hi
    · simp
    · have hlt : j.offset < i.offset :=
        Nat.lt_of_lt_of_le (Nat.lt_add_of_pos_right hpos) (hrest.mem hi).1
      rw [List.find?_cons_of_neg (by simpa using Nat.ne_of_lt hlt)]
      exact ih hi

theorem follows (h : Chain o is stop) (hi : i ∈ is) (hlt : i.next < stop) : ∃ j ∈ is, j.offset = i.next := by
  induction h with
  | nil => cases hi
  | cons ho hpos hrest ih =>
    rcases List.mem_cons.mp hi with rfl | hi
    · cases hrest with
      | nil => exact absurd hlt (Nat.lt_irrefl _)
      | cons ho => exact ⟨_, List.mem_cons_of_mem _ List.mem_cons_self, ho⟩
    · obtain ⟨k, hk, heq⟩ := ih hi hlt
      exact ⟨k, List.mem_cons_of_mem _ hk, heq⟩

theorem length_nil (h : Chain o [] stop) : stop = o := by
  cases h
  rfl

theorem split (h : Chain o (is ++ is') stop) : ∃ mid, Chain o is mid ∧ Chain mid is' stop := by
  induction is generalizing o with
  | nil => exact ⟨o, .nil, h⟩
  | cons j js ih =>
    cases h with
    | cons ho hpos h =>
      obtain ⟨mid, h, h'⟩ := ih h
      exact ⟨mid, .cons ho hpos h, h'⟩

theorem last (h : Chain o (is ++ [i]) stop) : i.next = stop := by
  obtain ⟨mid, -, h⟩ := h.split
  cases h with
  | cons _ _ h =>
    cases h
    rfl

end Chain

theorem takeBytes_ok {n : Nat} {bs raw : Bytes} (h : takeBytes n bs = .ok raw) : n ≤ bs.length := by
  unfold takeBytes at h
  split at h
  · assumption
  · cases h

theorem decodeOperand_length {kind : OperandKind} {pos n : Nat} {bs : Bytes} {operand : Operand}
    (h : decodeOperand kind pos bs = .ok (operand, n)) : n ≤ bs.length := by
  unfold decodeOperand at h
  cases hraw : takeBytes kind.size bs with
  | error e =>
    rw [hraw] at h
    cases h
  | ok raw =>
    rw [hraw] at h
    have hlen := takeBytes_ok hraw
    cases kind <;> simp only [OperandKind.size] at hlen <;> try (cases h; assumption)
    -- the jump table: its entries are counted against what is left
    change (if bs.length - 4 < _ then _ else _) = _ at h
    split at h
    · cases h
    · cases h
      omega

theorem decodeCode_ok {b : UInt8} {rest : Bytes} {code : UInt16} {len : Nat} (h : decodeCode b rest = .ok (code, len)) :
    0 < len ∧ len ≤ rest.length + 1 := by
  unfold decodeCode at h
  split at h
  · cases rest with
    | nil => cases h
    | cons c rest =>
      cases h
      simp
  · cases h
    simp

theorem decodeOne_parts {offset : Nat} {b : UInt8} {rest : Bytes} {i : Instruction}
    (h : decodeOne offset b rest = .ok i) : ∃ code len op operand n, decodeCode b rest = .ok (code, len) ∧
    Opcode.ofCode? code = some op ∧
      decodeOperand op.operandKind (offset + len) (rest.drop (len - 1)) = .ok (operand, n) ∧
      i = ⟨offset, op, len + n, operand⟩ := by
  unfold decodeOne at h
  cases hcode : decodeCode b rest with
  | error e =>
    rw [hcode] at h
    cases h
  | ok p =>
    obtain ⟨code, len⟩ := p
    simp only [hcode, bind, Except.bind] at h
    cases hop : Opcode.ofCode? code with
    | none =>
      rw [hop] at h
      cases h
    | some op =>
      rw [hop] at h
      cases hoperand : decodeOperand op.operandKind (offset + len) (rest.drop (len - 1)) with
      | error e =>
        simp only [hoperand] at h
        cases h
      | ok q =>
        obtain ⟨operand, n⟩ := q
        simp only [hoperand] at h
        cases h
        exact ⟨code, len, op, operand, n, rfl, hop, hoperand, rfl⟩

theorem decodeOne_ok {offset : Nat} {b : UInt8} {rest : Bytes} {i : Instruction} (h : decodeOne offset b rest = .ok i) :
    i.offset = offset ∧ 0 < i.size ∧ i.size ≤ rest.length + 1 := by
  obtain ⟨code, len, op, operand, n, hcode, -, hoperand, rfl⟩ := decodeOne_parts h
  obtain ⟨hpos, hlen⟩ := decodeCode_ok hcode
  have hn := decodeOperand_length hoperand
  rw [List.length_drop] at hn
  exact ⟨rfl, Nat.lt_of_lt_of_le hpos (Nat.le_add_right len n), show len + n ≤ _ by omega⟩

theorem decodeFrom_chain {offset : Nat} {code : Bytes} {is : List Instruction}
    (h : decodeFrom offset code = (is, none)) : Chain offset is (offset + code.length) := by
  fun_induction decodeFrom offset code generalizing is with
  | case1 =>
    cases h
    exact .nil
  | case2 => cases h
  | case3 offset b rest i hone more fault hrest ih =>
    cases h
    obtain ⟨ho, hpos, hlen⟩ := decodeOne_ok hone
    refine .cons ho hpos ?_
    have hchain := ih hrest
    rw [List.length_drop] at hchain
    rw [Instruction.next, ho, List.length_cons]
    have hstop : offset + i.size + (rest.length - (i.size - 1)) = offset + (rest.length + 1) := by omega
    rwa [hstop] at hchain

theorem decodeAll_chain {code : Bytes} {is : List Instruction} (h : decodeAll code = (is, none)) :
    Chain 0 is code.length := by
  have hchain := decodeFrom_chain h
  rwa [Nat.zero_add] at hchain

/-- A span of the code among others. -/
structure Tiles (spans : List Span) (sp : Span) : Prop where
  chain : Chain sp.start sp.instrs sp.stop
  ends : ∃ init last, sp.instrs = init ++ [last] ∧ (∀ i ∈ init, i.endsBlock = false) ∧ last.endsBlock = !sp.fallsThrough
  falls : sp.fallsThrough = true → ∃ sp' ∈ spans, sp'.start = sp.stop

theorem Tiles.cons {spans : List Span} {sp : Span} (h : Tiles spans sp) (sp' : Span) : Tiles (sp' :: spans) sp := by
  refine ⟨h.chain, h.ends, fun hf ↦ ?_⟩
  obtain ⟨sp'', hmem, heq⟩ := h.falls hf
  exact ⟨sp'', List.mem_cons_of_mem _ hmem, heq⟩

section

variable {leaders : List Nat} {size : Nat}

theorem cutSpans_nil (start : Nat) (i : Instruction) (rest : List Instruction) :
    cutSpans leaders size start [] (i :: rest) = cutSpans leaders size start [i] rest := by
  simp [cutSpans]

theorem cutSpans_cons (start : Nat) (c i : Instruction) (cs rest : List Instruction) :
    cutSpans leaders size start (c :: cs) (i :: rest) =
      if leaders.contains i.offset then
        ⟨start, i.offset, (c :: cs).reverse, !c.endsBlock⟩ :: cutSpans leaders size i.offset [i] rest
      else cutSpans leaders size start (i :: c :: cs) rest := by
  simp [cutSpans]

theorem cutSpans_getLast (leaders : List Nat) (size start : Nat) (current rest : List Instruction) :
    ∃ sp, (cutSpans leaders size start current rest).getLast? = some sp ∧
      sp.instrs.getLast? = (current.reverse ++ rest).getLast? := by
  induction rest generalizing start current with
  | nil => exact ⟨_, rfl, by simp⟩
  | cons i rest ih =>
    cases current with
    | nil =>
      rw [cutSpans_nil]
      exact ih start [i]
    | cons c cs =>
      rw [cutSpans_cons]
      split
      · obtain ⟨sp, hsp, hlast⟩ := ih i.offset [i]
        refine ⟨sp, ?_, ?_⟩
        · rw [List.getLast?_cons, hsp]
          rfl
        · rw [hlast]
          simp [List.getLast?_append, List.getLast?_cons]
      · obtain ⟨sp, hsp, hlast⟩ := ih start (i :: c :: cs)
        refine ⟨sp, hsp, ?_⟩
        rw [hlast, List.reverse_cons, List.append_assoc]
        rfl

/-- What cutting at the leaders gives: spans side by side up to the end of the code, one for each leader. -/
structure Cut (leaders : List Nat) (size start : Nat) (current rest : List Instruction) (spans : List Span) : Prop where
  first : ∃ sp tl, spans = sp :: tl ∧ sp.start = start
  leads : ∀ i ∈ rest, leaders.contains i.offset = true → ∃ sp ∈ spans, sp.start = i.offset
  whole : spans.flatMap (·.instrs) = current.reverse ++ rest
  chain : ∀ sp ∈ spans, Chain sp.start sp.instrs sp.stop ∧ sp.instrs ≠ []
  joined : spans.IsChain fun sp sp' ↦ sp.stop = sp'.start
  stop : spans.getLast?.map (·.stop) = some size

theorem cutSpans_cut {start mid : Nat} {current rest : List Instruction} (hcur : Chain start current.reverse mid)
    (hrest : Chain mid rest size) (hne : current.reverse ++ rest ≠ []) :
    Cut leaders size start current rest (cutSpans leaders size start current rest) := by
  induction rest generalizing start mid current with
  | nil =>
    cases hrest
    refine ⟨⟨_, _, rfl, rfl⟩, List.forall_mem_nil _, by simp [cutSpans], ?_, .singleton _, rfl⟩
    simp only [cutSpans, List.mem_singleton, forall_eq]
    exact ⟨hcur, by simpa using hne⟩
  | cons i rest ih =>
    obtain _ | ⟨ho, hpos, hrest⟩ := hrest
    have hone : Chain i.offset [i].reverse i.next := .cons rfl hpos .nil
    subst ho
    cases current with
    | nil =>
      obtain rfl : start = i.offset := by
        cases hcur
        rfl
      have h := ih hone hrest (by simp)
      rw [cutSpans_nil]
      refine ⟨h.first, ?_, h.whole, h.chain, h.joined, h.stop⟩
      rintro j (_ | ⟨_, hj⟩) hl
      · obtain ⟨sp, tl, heq, hstart⟩ := h.first
        exact ⟨sp, by rw [heq]; exact List.mem_cons_self, hstart⟩
      · exact h.leads j hj hl
    | cons c cs =>
      rw [cutSpans_cons]
      split
      · -- the open span is cut off here
        have h := ih hone hrest (by simp)
        obtain ⟨sp, tl, heq, hstart⟩ := h.first
        refine ⟨⟨_, _, rfl, rfl⟩, ?_, ?_, ?_, ?_, ?_⟩
        · rintro j (_ | ⟨_, hj⟩) hl
          · exact ⟨sp, by rw [heq]; simp, hstart⟩
          · obtain ⟨sp', hsp', hj⟩ := h.leads j hj hl
            exact ⟨sp', List.mem_cons_of_mem _ hsp', hj⟩
        · rw [List.flatMap_cons, h.whole]
          rfl
        · rintro sp' (_ | ⟨_, hsp'⟩)
          · exact ⟨hcur, by simp⟩
          · exact h.chain sp' hsp'
        · rw [heq]
          exact .cons_cons hstart.symm (heq ▸ h.joined)
        · rw [List.getLast?_cons_of_ne_nil (by rw [heq]; simp)]
          exact h.stop
      · -- no leader, so the open span takes the instruction in
        rename_i hcut
        have hcur' : Chain start (i :: c :: cs).reverse i.next := by
          rw [List.reverse_cons]
          exact hcur.append hone
        have h := ih hcur' hrest (by simp)
        refine ⟨h.first, ?_, h.whole.trans (by simp), h.chain, h.joined, h.stop⟩
        rintro j (_ | ⟨_, hj⟩) hl
        · exact absurd hl hcut
        · exact h.leads j hj hl

/-- Cutting at the leaders tiles the code if what ends a block is followed by a leader. -/
theorem cutSpans_tile {start mid : Nat} {current rest : List Instruction} (hcur : Chain start current.reverse mid)
    (hrest : Chain mid rest size) (hne : current.reverse ++ rest ≠ [])
    (hquiet : ∀ i ∈ current.tail, i.endsBlock = false)
    (hlead : ∀ i ∈ current.reverse ++ rest, i.endsBlock = true → i.next < size → leaders.contains i.next = true)
    (hlast : ∀ i, (current.reverse ++ rest).getLast? = some i → i.endsBlock = true) :
    ∀ sp ∈ cutSpans leaders size start current rest, Tiles (cutSpans leaders size start current rest) sp := by
  induction rest generalizing start mid current with
  | nil =>
    cases current with
    | nil => simp at hne
    | cons c cs =>
      cases hrest
      simp only [cutSpans, List.mem_singleton, forall_eq]
      refine ⟨hcur, ⟨cs.reverse, c, List.reverse_cons, fun i hi ↦ hquiet i (List.mem_reverse.mp hi), ?_⟩, nofun⟩
      exact hlast c (by simp)
  | cons i rest ih =>
    obtain _ | ⟨ho, hpos, hrest⟩ := hrest
    have hsize : i.offset < size := Nat.lt_of_lt_of_le (Nat.lt_add_of_pos_right hpos) hrest.le
    have hone : Chain i.offset [i].reverse i.next := .cons rfl hpos .nil
    subst ho
    cases current with
    | nil =>
      obtain rfl : start = i.offset := by
        cases hcur
        rfl
      rw [cutSpans_nil]
      exact ih hone hrest (by simp) (List.forall_mem_nil _) hlead hlast
    | cons c cs =>
      have hc : c.next = i.offset := by
        rw [List.reverse_cons] at hcur
        exact hcur.last
      rw [cutSpans_cons]
      split
      · -- the open span is cut off here
        have h := ih hone hrest (by simp) (List.forall_mem_nil _) (fun j hj ↦ hlead j (List.mem_append_right _ hj))
          (fun j hj ↦ hlast j (by rw [List.getLast?_append, show (i :: rest).getLast? = some j from hj]; rfl))
        have hcut : Cut leaders size i.offset [i] rest _ := cutSpans_cut hone hrest (by simp)
        obtain ⟨sp, tl, heq, hstart⟩ := hcut.first
        have hmem : sp ∈ cutSpans leaders size i.offset [i] rest := by
          rw [heq]
          exact List.mem_cons_self
        rintro sp' (_ | ⟨_, hsp'⟩)
        · refine ⟨hcur, ⟨cs.reverse, c, List.reverse_cons, fun j hj ↦ hquiet j (List.mem_reverse.mp hj), by simp⟩, ?_⟩
          exact fun _ ↦ ⟨sp, List.mem_cons_of_mem _ hmem, hstart⟩
        · exact (h sp' hsp').cons _
      · -- no leader, so what was there before does not end the block
        rename_i hcut
        have hquiet' : ∀ j ∈ (i :: c :: cs).tail, j.endsBlock = false := by
          rintro j (_ | ⟨_, hj⟩)
          · rw [Bool.eq_false_iff]
            intro hends
            apply hcut
            rw [← hc]
            exact hlead c (by simp) hends (by omega)
          · exact hquiet j hj
        have happend : (i :: c :: cs).reverse ++ rest = (c :: cs).reverse ++ i :: rest := by simp
        have hcur' : Chain start (i :: c :: cs).reverse i.next := by
          rw [List.reverse_cons]
          exact hcur.append hone
        exact ih hcur' hrest (by simp) hquiet' (by rwa [happend]) (by rwa [happend])

end

/-- What the blocks of a body promise. -/
structure Discovered (code : Bytes) (spans : List Span) : Prop where
  decoded : Chain 0 (decodeAll code).1 code.length
  tiles : ∀ sp ∈ spans, Tiles spans sp
  first : ∃ sp tl, spans = sp :: tl ∧ sp.start = 0
  whole : spans.flatMap (·.instrs) = (decodeAll code).1
  faultless : (decodeAll code).2 = none
  modelled : ∀ i ∈ (decodeAll code).1, i.isRejected = false
  joined : spans.IsChain fun sp sp' ↦ sp.stop = sp'.start
  stop : spans.getLast?.map (·.stop) = some code.length
  target : ∀ i ∈ (decodeAll code).1, i.isShortBranch = true → ∃ sp ∈ spans, (sp.start : Int) = i.target
  next : ∀ i ∈ (decodeAll code).1, i.isShortBranch = true → i.op.flow = .condBranch → ∃ sp ∈ spans, sp.start = i.next

theorem leadersOf_ok {size : Nat} {boundaries : List Nat} {i : Instruction} {ls : List Nat}
    (h : leadersOf size boundaries i = .ok ls) :
    i.isRejected = false ∧ (i.endsBlock = true → i.next < size → i.next ∈ ls) ∧
    (i.isShortBranch = true → 0 ≤ i.target ∧ i.target.toNat ∈ ls ∧ i.target.toNat ∈ boundaries ∧
      (i.op.flow = .condBranch → i.next < size)) := by
  unfold leadersOf at h
  by_cases hrejected : i.isRejected = true
  · rw [if_pos hrejected] at h
    cases h
  rw [if_neg hrejected] at h
  refine ⟨Bool.not_eq_true _ ▸ hrejected, ?_⟩
  dsimp only at h
  by_cases hbranch : i.isShortBranch = true
  · rw [if_pos hbranch] at h
    by_cases htarget : i.target < 0 ∨ (size : Int) ≤ i.target ∨ (!boundaries.contains i.target.toNat) = true
    · rw [if_pos htarget] at h
      cases h
    rw [if_neg htarget] at h
    by_cases hcond : i.op.flow = .condBranch ∧ size ≤ i.next
    · rw [if_pos hcond] at h
      cases h
    rw [if_neg hcond] at h
    cases h
    simp only [not_or, Bool.not_eq_true', Bool.not_eq_false, List.contains_iff_mem] at htarget
    refine ⟨fun _ hlt ↦ ?_, fun _ ↦ ⟨by omega, List.mem_cons_self, htarget.2.2, fun hflow ↦ ?_⟩⟩
    · simp [hlt]
    · exact Nat.lt_of_not_le fun hle ↦ hcond ⟨hflow, hle⟩
  · rw [if_neg hbranch] at h
    refine ⟨fun hends hlt ↦ ?_, fun hb ↦ absurd hb hbranch⟩
    have hop : i.op = .ret := by simpa [Instruction.endsBlock, hbranch] using hends
    rw [if_pos hop, if_pos hlt] at h
    cases h
    exact List.mem_cons_self

theorem discoverBlocks_inv {code : Bytes} {spans : List Span} (h : discoverBlocks code = .ok spans) :
    ∃ is leaders last, code ≠ [] ∧ decodeAll code = (is, none) ∧
      is.mapM (leadersOf code.length (is.map (·.offset))) = .ok leaders ∧ is.getLast? = some last ∧
      last.endsBlock = true ∧ spans = cutSpans leaders.flatten code.length 0 [] is := by
  unfold discoverBlocks at h
  by_cases hne : code = []
  · rw [if_pos hne] at h
    cases h
  rw [if_neg hne] at h
  obtain ⟨is, fault, hdec⟩ : ∃ is fault, decodeAll code = (is, fault) := ⟨_, _, rfl⟩
  rw [hdec] at h
  cases fault with
  | some e => cases h
  | none =>
    dsimp only at h
    cases hleaders : is.mapM (leadersOf code.length (is.map (·.offset))) with
    | error e =>
      rw [hleaders] at h
      cases h
    | ok leaders =>
      simp only [hleaders, bind, Except.bind] at h
      obtain ⟨sp, hsp, hspan⟩ := cutSpans_getLast leaders.flatten code.length 0 [] is
      obtain ⟨last, hlast⟩ : ∃ last, is.getLast? = some last := by
        cases hl : is.getLast? with
        | none =>
          obtain rfl := List.getLast?_eq_none_iff.mp hl
          exact absurd (List.length_eq_zero_iff.mp (decodeAll_chain hdec).length_nil) hne
        | some last => exact ⟨last, rfl⟩
      simp only [hsp, hspan, List.reverse_nil, List.nil_append, hlast] at h
      by_cases hends : last.endsBlock = true
      · rw [if_pos hends] at h
        cases h
        exact ⟨is, leaders, last, hne, hdec, hleaders, hlast, hends, rfl⟩
      · rw [if_neg hends] at h
        cases h

theorem discoverBlocks_ok {code : Bytes} {spans : List Span} (h : discoverBlocks code = .ok spans) :
    Discovered code spans := by
  obtain ⟨is, leaders, last, -, hdec, hleaders, hlast, hends, rfl⟩ := discoverBlocks_inv h
  have hchain := decodeAll_chain hdec
  have hnil : is ≠ [] := by
    rintro rfl
    cases hlast
  have hled : ∀ i ∈ is, ∃ ls ∈ leaders, leadersOf code.length (is.map (·.offset)) i = .ok ls :=
    fun i hi ↦ exists_of_mapM_ok hleaders hi
  have hmem : ∀ {o : Nat} {ls : List Nat}, ls ∈ leaders → o ∈ ls → leaders.flatten.contains o = true :=
    fun hls ho ↦ List.contains_iff_mem.mpr (List.mem_flatten.mpr ⟨_, hls, ho⟩)
  have hcut : Cut leaders.flatten code.length 0 [] is (cutSpans leaders.flatten code.length 0 [] is) :=
    cutSpans_cut .nil hchain hnil
  refine ⟨by rwa [hdec], cutSpans_tile .nil hchain hnil (by simp) ?_ ?_, hcut.first, by rw [hdec]; exact hcut.whole,
    by rw [hdec], ?_, hcut.joined, hcut.stop, ?_, ?_⟩
  · intro i hi hiends hlt
    obtain ⟨ls, hls, hok⟩ := hled i hi
    exact hmem hls ((leadersOf_ok hok).2.1 hiends hlt)
  · intro i hi
    rw [List.reverse_nil, List.nil_append, hlast] at hi
    cases hi
    exact hends
  · intro i hi
    rw [hdec] at hi
    obtain ⟨ls, hls, hok⟩ := hled i hi
    exact (leadersOf_ok hok).1
  · intro i hi hb
    rw [hdec] at hi
    obtain ⟨ls, hls, hok⟩ := hled i hi
    obtain ⟨hpos, htarget, hboundary, -⟩ := (leadersOf_ok hok).2.2 hb
    obtain ⟨j, hj, heq⟩ := List.mem_map.mp hboundary
    obtain ⟨sp, hsp, hstart⟩ := hcut.leads j hj (by rw [heq]; exact hmem hls htarget)
    exact ⟨sp, hsp, by omega⟩
  · intro i hi hb hflow
    rw [hdec] at hi
    obtain ⟨ls, hls, hok⟩ := hled i hi
    obtain ⟨-, hnext, hbranch⟩ := leadersOf_ok hok
    have hlt := (hbranch hb).2.2.2 hflow
    obtain ⟨j, hj, heq⟩ := hchain.follows hi hlt
    rw [← heq]
    refine hcut.leads j hj ?_
    rw [heq]
    exact hmem hls (hnext (by simp [Instruction.endsBlock, hb]) hlt)

end CilSsa.Bytecode

/-!
Which code has blocks, and what they are. Code has blocks exactly if all of it decodes, blocks model every instruction,
branches lead to instructions and control cannot run off the end. The blocks then partition the code, and control goes
from the end of one to the start of another.
-/

namespace CilSsa.Bytecode

open CilSsa.Text

/-- Control does not go on with the next instruction only: a return or a branch of any kind. -/
def Instruction.Diverts (i : Instruction) : Prop := i.op = .ret ∨ i.op.flow = .branch ∨ i.op.flow = .condBranch

def Span.successors (sp : Span) : List Int :=
  match sp.instrs.getLast? with
  | none => []
  | some i => match i.op.flow with
    | .ret => []
    | .branch => [i.target]
    | .condBranch => [i.target, i.next]
    | _ => [sp.stop]

/-- Spans that make up the code, with control passing from one to another only. -/
structure Partition (code : Bytes) (spans : List Span) : Prop where
  nonempty : ∀ sp ∈ spans, sp.start < sp.stop ∧ sp.instrs ≠ []
  ascending : spans.Pairwise fun sp sp' ↦ sp.start < sp'.start
  first : spans.head?.map (·.start) = some 0
  joined : spans.IsChain fun sp sp' ↦ sp.stop = sp'.start
  stop : spans.getLast?.map (·.stop) = some code.length
  whole : decodeAll code = (spans.flatMap (·.instrs), none)
  within : ∀ sp ∈ spans, ∀ i ∈ sp.instrs, sp.start ≤ i.offset ∧ i.next ≤ sp.stop
  straight : ∀ sp ∈ spans, ∀ i ∈ sp.instrs.dropLast, ¬ i.Diverts
  falls : ∀ sp ∈ spans, ∀ i, sp.instrs.getLast? = some i → (sp.fallsThrough = true ↔ ¬ i.Diverts)
  successors : ∀ sp ∈ spans, ∀ t ∈ sp.successors, ∃ sp' ∈ spans, (sp'.start : Int) = t

/-- What `discoverBlocks` asks of code whose instructions are `is`. -/
structure Blockable (code : Bytes) (is : List Instruction) : Prop where
  nonempty : code ≠ []
  decodes : decodeAll code = (is, none)
  modelled : ∀ i ∈ is, i.op ∉ [Opcode.switch, .throw, .rethrow, .leave, .leaveS, .endfinally, .endfilter] ∧
    i.op.operandKind ≠ .branch32
  targets : ∀ i ∈ is, i.op.operandKind = .branch8 → ∃ j ∈ is, (j.offset : Int) = i.target
  onward : ∀ i, is.getLast? = some i → i.op.flow ≠ .condBranch
  ends : ∃ i, is.getLast? = some i ∧ (i.op = .ret ∨ i.op.operandKind = .branch8)

section flow

variable {i : Instruction}

theorem isRejected_eq_false_iff : i.isRejected = false ↔
    i.op ∉ [Opcode.switch, .throw, .rethrow, .leave, .leaveS, .endfinally, .endfilter] ∧
    i.op.operandKind ≠ .branch32 := by
  simp [Instruction.isRejected]

theorem flow_of_modelled (op : Opcode)
    (h : op ∉ [Opcode.switch, .throw, .rethrow, .leave, .leaveS, .endfinally, .endfilter] ∧
    op.operandKind ≠ .branch32) : (op.operandKind = .branch8 ↔ op.flow = .branch ∨ op.flow = .condBranch) ∧
    (op.flow = .ret ↔ op = .ret) := by
  revert h
  cases op <;> decide

theorem endsBlock_iff (h : i.isRejected = false) : i.endsBlock = true ↔ i.Diverts := by
  have hflow := (flow_of_modelled i.op (isRejected_eq_false_iff.mp h)).1
  simp [Instruction.endsBlock, Instruction.isShortBranch, Instruction.Diverts, hflow]

end flow

section

variable {code : Bytes} {spans : List Span}

theorem ascending_of_joined (hlt : ∀ sp ∈ spans, sp.start < sp.stop)
    (hjoined : spans.IsChain fun sp sp' ↦ sp.stop = sp'.start) : spans.Pairwise fun sp sp' ↦ sp.start < sp'.start := by
  induction spans with
  | nil => exact .nil
  | cons sp rest ih =>
    have hpair := ih (fun sp' hsp' ↦ hlt sp' (List.mem_cons_of_mem _ hsp')) hjoined.tail
    refine List.pairwise_cons.mpr ⟨fun sp' hsp' ↦ ?_, hpair⟩
    cases rest with
    | nil => cases hsp'
    | cons next rest =>
      have hnext : sp.start < next.start := (List.isChain_cons_cons.mp hjoined).1 ▸ hlt sp List.mem_cons_self
      rcases List.mem_cons.mp hsp' with rfl | hsp'
      · exact hnext
      · exact hnext.trans ((List.pairwise_cons.mp hpair).1 sp' hsp')

theorem Discovered.mem (h : Discovered code spans) {sp : Span} (hsp : sp ∈ spans) {i : Instruction}
    (hi : i ∈ sp.instrs) : i ∈ (decodeAll code).1 := by
  rw [← h.whole]
  exact List.mem_flatMap.mpr ⟨sp, hsp, hi⟩

theorem Discovered.successors (h : Discovered code spans) {sp : Span} (hsp : sp ∈ spans) {t : Int}
    (ht : t ∈ sp.successors) : ∃ sp' ∈ spans, (sp'.start : Int) = t := by
  obtain ⟨init, last, hinstrs, -, hends⟩ := (h.tiles sp hsp).ends
  have hlast : sp.instrs.getLast? = some last := by simp [hinstrs]
  have hmem := h.mem hsp (List.mem_of_getLast? hlast)
  have hmodelled := h.modelled last hmem
  have hflow := flow_of_modelled last.op (isRejected_eq_false_iff.mp hmodelled)
  have hshort : last.op.flow = .branch ∨ last.op.flow = .condBranch → last.isShortBranch = true :=
    fun hf ↦ by simpa [Instruction.isShortBranch] using hflow.1.mpr hf
  unfold Span.successors at ht
  rw [hlast] at ht
  by_cases hdiverts : last.Diverts
  · rcases hdiverts with hret | hbranch | hcond
    · simp [hret, show Opcode.flow .ret = .ret from rfl] at ht
    · obtain rfl : t = last.target := by simpa [hbranch] using ht
      exact h.target last hmem (hshort (.inl hbranch))
    · obtain rfl | rfl : t = last.target ∨ t = last.next := by simpa [hcond] using ht
      · exact h.target last hmem (hshort (.inr hcond))
      · obtain ⟨sp', hsp', hstart⟩ := h.next last hmem (hshort (.inr hcond)) hcond
        exact ⟨sp', hsp', congrArg _ hstart⟩
  · have hfalls : sp.fallsThrough = true := by
      have hno := mt (endsBlock_iff hmodelled).mp hdiverts
      simpa [hno] using hends
    have hstop : t = sp.stop := by
      unfold Instruction.Diverts at hdiverts
      rw [← hflow.2] at hdiverts
      dsimp only at ht
      split at ht <;> simp_all
    obtain ⟨sp', hsp', hstart⟩ := (h.tiles sp hsp).falls hfalls
    exact ⟨sp', hsp', hstop ▸ congrArg _ hstart⟩

/-- The blocks of a body partition its code. -/
theorem discoverBlocks_partition (h : discoverBlocks code = .ok spans) : Partition code spans := by
  have hd := discoverBlocks_ok h
  have hlt : ∀ sp ∈ spans, sp.start < sp.stop ∧ sp.instrs ≠ [] := by
    intro sp hsp
    obtain ⟨init, last, hinstrs, -⟩ := (hd.tiles sp hsp).ends
    obtain ⟨h1, h2, h3⟩ := (hd.tiles sp hsp).chain.mem (i := last) (by simp [hinstrs])
    exact ⟨by omega, by simp [hinstrs]⟩
  refine ⟨hlt, ascending_of_joined (fun sp hsp ↦ (hlt sp hsp).1) hd.joined, ?_, hd.joined, hd.stop, ?_, ?_, ?_, ?_,
    fun sp hsp t ht ↦ hd.successors hsp ht⟩
  · obtain ⟨sp, tl, rfl, hstart⟩ := hd.first
    simpa using hstart
  · exact Prod.ext hd.whole.symm hd.faultless
  · intro sp hsp i hi
    obtain ⟨h1, -, h3⟩ := (hd.tiles sp hsp).chain.mem hi
    exact ⟨h1, h3⟩
  · intro sp hsp i hi hdiverts
    obtain ⟨init, last, hinstrs, hinit, -⟩ := (hd.tiles sp hsp).ends
    have hmem := hd.mem hsp (List.dropLast_subset _ hi)
    rw [hinstrs, List.dropLast_concat] at hi
    rw [← endsBlock_iff (hd.modelled i hmem), hinit i hi] at hdiverts
    cases hdiverts
  · intro sp hsp i hi
    obtain ⟨init, last, hinstrs, -, hends⟩ := (hd.tiles sp hsp).ends
    obtain rfl : last = i := by simpa [hinstrs] using hi
    rw [← endsBlock_iff (hd.modelled last (hd.mem hsp (List.mem_of_getLast? hi))), hends]
    simp

/-- A loop with two ways out: `ldarg.0; brfalse.s 6; nop; br.s 0; ret`. -/
def loopCode : Bytes := [0x02, 0x2C, 0x03, 0x00, 0x2B, 0xFA, 0x2A]

theorem loopCode_blocks : ∃ spans, discoverBlocks loopCode = .ok spans := by
  have hok : (discoverBlocks loopCode).toOption.isSome = true := by decide +kernel
  cases h : discoverBlocks loopCode with
  | error e =>
    rw [h] at hok
    cases hok
  | ok spans => exact ⟨spans, rfl⟩

theorem discoverBlocks_partition_loop : ∃ spans, discoverBlocks loopCode = .ok spans ∧ Partition loopCode spans := by
  obtain ⟨spans, h⟩ := loopCode_blocks
  exact ⟨spans, h, discoverBlocks_partition h⟩

theorem discoverBlocks_cut {is : List Instruction} {leaders : List (List Nat)} {last : Instruction} (hne : code ≠ [])
    (hdec : decodeAll code = (is, none)) (hleaders : is.mapM (leadersOf code.length (is.map (·.offset))) = .ok leaders)
    (hlast : is.getLast? = some last) (hends : last.endsBlock = true) :
    discoverBlocks code = .ok (cutSpans leaders.flatten code.length 0 [] is) := by
  obtain ⟨sp, hsp, hspan⟩ := cutSpans_getLast leaders.flatten code.length 0 [] is
  unfold discoverBlocks
  rw [if_neg hne, hdec]
  simp only [hleaders, bind, Except.bind, hsp, hspan, List.reverse_nil, List.nil_append, hlast]
  rw [if_pos hends]
  rfl

section leaders

variable {size o : Nat} {boundaries : List Nat} {i : Instruction} {ls : List Nat}

theorem exists_leadersOf_ok (hmodelled : i.isRejected = false)
    (htarget : i.isShortBranch = true → 0 ≤ i.target ∧ i.target < size ∧ i.target.toNat ∈ boundaries)
    (hnext : i.isShortBranch = true → i.op.flow = .condBranch → i.next < size) :
    ∃ ls, leadersOf size boundaries i = .ok ls := by
  unfold leadersOf
  rw [if_neg (by simp [hmodelled])]
  by_cases hbranch : i.isShortBranch = true
  · obtain ⟨hpos, hlt, hmem⟩ := htarget hbranch
    have hgood : ¬ (i.target < 0 ∨ (size : Int) ≤ i.target ∨ (!boundaries.contains i.target.toNat) = true) := by
      simp only [not_or, Bool.not_eq_true', Bool.not_eq_false, List.contains_iff_mem]
      exact ⟨by omega, by omega, hmem⟩
    have hcond : ¬ (i.op.flow = .condBranch ∧ size ≤ i.next) := fun h ↦
      Nat.lt_irrefl _ (Nat.lt_of_lt_of_le (hnext hbranch h.1) h.2)
    dsimp only
    rw [if_pos hbranch, if_neg hgood, if_neg hcond]
    exact ⟨_, rfl⟩
  · dsimp only
    rw [if_neg hbranch]
    split <;> exact ⟨_, rfl⟩

theorem mem_leadersOf (h : leadersOf size boundaries i = .ok ls) (ho : o ∈ ls) :
    o ∈ boundaries ∨ o = i.next ∧ i.next < size := by
  have hfollowing : ∀ l ∈ (if i.next < size then [i.next] else []), l = i.next ∧ i.next < size := by
    intro l hl
    split at hl
    · exact ⟨List.mem_singleton.mp hl, by assumption⟩
    · cases hl
  by_cases hbranch : i.isShortBranch = true
  · have hboundary := ((leadersOf_ok h).2.2 hbranch).2.2.1
    unfold leadersOf at h
    dsimp only at h
    rw [if_pos hbranch] at h
    split at h
    · cases h
    split at h
    · cases h
    split at h
    · cases h
    cases h
    rcases List.mem_cons.mp ho with rfl | ho
    · exact .inl hboundary
    · exact .inr (hfollowing o ho)
  · unfold leadersOf at h
    dsimp only at h
    rw [if_neg hbranch] at h
    split at h
    · cases h
    split at h
    · cases h
      exact .inr (hfollowing o ho)
    · cases h
      cases ho

end leaders

theorem blockable_of_ok (h : discoverBlocks code = .ok spans) : ∃ is, Blockable code is := by
  obtain ⟨is, leaders, last, hne, hdec, hleaders, hlast, hends, -⟩ := discoverBlocks_inv h
  have hok : ∀ i ∈ is, ∃ ls, leadersOf code.length (is.map (·.offset)) i = .ok ls := fun i hi ↦
    let ⟨ls, _, hls⟩ := exists_of_mapM_ok hleaders hi
    ⟨ls, hls⟩
  have hmodelled : ∀ i ∈ is, i.isRejected = false := fun i hi ↦
    let ⟨_, hls⟩ := hok i hi
    (leadersOf_ok hls).1
  refine ⟨is, hne, hdec, fun i hi ↦ isRejected_eq_false_iff.mp (hmodelled i hi), fun i hi hbranch ↦ ?_,
    fun i hi hcond ↦ ?_, last, hlast, ?_⟩
  · obtain ⟨ls, hls⟩ := hok i hi
    obtain ⟨hpos, -, hboundary, -⟩ := (leadersOf_ok hls).2.2 (by simpa [Instruction.isShortBranch] using hbranch)
    obtain ⟨j, hj, hoffset⟩ := List.mem_map.mp hboundary
    exact ⟨j, hj, by omega⟩
  · -- the last instruction ends where the code does
    have hmem := List.mem_of_getLast? hi
    obtain ⟨ls, hls⟩ := hok i hmem
    have hshort := ((flow_of_modelled i.op (isRejected_eq_false_iff.mp (hmodelled i hmem))).1).mpr (.inr hcond)
    have hlt := ((leadersOf_ok hls).2.2 (by simpa [Instruction.isShortBranch] using hshort)).2.2.2 hcond
    obtain ⟨init, rfl⟩ := List.getLast?_eq_some_iff.mp hi
    exact Nat.ne_of_lt hlt (decodeAll_chain hdec).last
  · simpa [Instruction.endsBlock, Instruction.isShortBranch] using hends

theorem ok_of_blockable {is : List Instruction} (h : Blockable code is) : ∃ spans, discoverBlocks code = .ok spans := by
  obtain ⟨last, hlast, hends⟩ := h.ends
  obtain ⟨init, hinit⟩ := List.getLast?_eq_some_iff.mp hlast
  have hchain := decodeAll_chain h.decodes
  have haccepted : ∀ i ∈ is, ∃ ls, leadersOf code.length (is.map (·.offset)) i = .ok ls := by
    intro i hi
    refine exists_leadersOf_ok (isRejected_eq_false_iff.mpr (h.modelled i hi)) (fun hbranch ↦ ?_)
      (fun hbranch hcond ↦ ?_)
    · obtain ⟨j, hj, heq⟩ := h.targets i hi (by simpa [Instruction.isShortBranch] using hbranch)
      obtain ⟨-, h2, h3⟩ := hchain.mem hj
      refine ⟨by omega, by omega, List.mem_map.mpr ⟨j, hj, by omega⟩⟩
    · -- a condition is not the last instruction, so another one follows it
      rw [hinit] at hi hchain
      rcases List.mem_append.mp hi with hi | hi
      · obtain ⟨mid, hbefore, hafter⟩ := hchain.split
        obtain ⟨-, -, h3⟩ := hbefore.mem hi
        obtain ⟨h1, h2, h4⟩ := hafter.mem (List.mem_singleton_self last)
        omega
      · obtain rfl := List.mem_singleton.mp hi
        exact absurd hcond (h.onward _ hlast)
  obtain ⟨leaders, hleaders⟩ := exists_mapM_ok haccepted
  exact ⟨_, discoverBlocks_cut h.nonempty h.decodes hleaders hlast
    (by simpa [Instruction.endsBlock, Instruction.isShortBranch] using hends)⟩

/-- Code has blocks exactly if every condition on its instructions holds. No cutting meets a span without instructions,
also where control then turns out to run off the end: each offset that an instruction makes a start has its span. -/
theorem discoverBlocks_accepts (code : Bytes) :
    ((∃ spans, discoverBlocks code = .ok spans) ↔ ∃ is, Blockable code is) ∧
    ∀ is leaders, code ≠ [] → decodeAll code = (is, none) →
      is.mapM (leadersOf code.length (is.map (·.offset))) = .ok leaders →
      (∀ sp ∈ cutSpans leaders.flatten code.length 0 [] is, sp.instrs ≠ []) ∧
      ∀ o ∈ leaders.flatten, ∃ sp ∈ cutSpans leaders.flatten code.length 0 [] is, sp.start = o := by
  refine ⟨⟨fun ⟨_, h⟩ ↦ blockable_of_ok h, fun ⟨_, h⟩ ↦ ok_of_blockable h⟩, fun is leaders hne hdec hleaders ↦ ?_⟩
  have hchain := decodeAll_chain hdec
  have hnil : is ≠ [] := by
    rintro rfl
    exact hne (List.length_eq_zero_iff.mp hchain.length_nil)
  have hcut : Cut leaders.flatten code.length 0 [] is _ := cutSpans_cut .nil hchain hnil
  refine ⟨fun sp hsp ↦ (hcut.chain sp hsp).2, fun o ho ↦ ?_⟩
  have hstart : ∃ j ∈ is, j.offset = o := by
    obtain ⟨ls, hls, hmem⟩ := List.mem_flatten.mp ho
    obtain ⟨i, hi, hok⟩ := mem_of_mapM_ok hleaders hls
    rcases mem_leadersOf hok hmem with hboundary | ⟨rfl, hlt⟩
    · exact List.mem_map.mp hboundary
    · exact hchain.follows hi hlt
  obtain ⟨j, hj, rfl⟩ := hstart
  exact hcut.leads j hj (List.contains_iff_mem.mpr ho)

theorem discoverBlocks_accepts_loop : (∃ spans, discoverBlocks loopCode = .ok spans) ∧
    (∃ is, Blockable loopCode is) ∧ ∃ is leaders, loopCode ≠ [] ∧ decodeAll loopCode = (is, none) ∧
      is.mapM (leadersOf loopCode.length (is.map (·.offset))) = .ok leaders ∧
      (∀ sp ∈ cutSpans leaders.flatten loopCode.length 0 [] is, sp.instrs ≠ []) ∧
      ∀ o ∈ leaders.flatten, ∃ sp ∈ cutSpans leaders.flatten loopCode.length 0 [] is, sp.start = o := by
  obtain ⟨hiff, hcut⟩ := discoverBlocks_accepts loopCode
  obtain ⟨spans, hok⟩ := loopCode_blocks
  obtain ⟨is, leaders, -, hne, hdec, hleaders, -⟩ := discoverBlocks_inv hok
  exact ⟨⟨spans, hok⟩, hiff.mp ⟨spans, hok⟩, is, leaders, hne, hdec, hleaders, hcut is leaders hne hdec hleaders⟩

end

end CilSsa.Bytecode

