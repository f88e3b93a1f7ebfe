import CilSsa.Proofs.Emission

namespace CilSsa.Ssa

open CilSsa.Lowering (append_blocks append_id append_instrs append_params append_signature placed uniqueName_kept)

/-- The instructions that the builder makes. A conversion is made for any operation; what is none is found by
verification. -/
inductive Instr.Made : Instr → Prop
  | alloca (t : Ty) (name : String) : Made (.alloca t name)
  | arrayAlloca (t : Ty) (count : Option Value) (name : String) : Made (.arrayAlloca t count name)
  | load (p : Value) (name : String) : Made (.load p name)
  | store (v p : Option Value) : Made (.store v p)
  | gep (fields : Option (List Ty)) (p : Value) (index : Int) (name : String) : Made (.gep fields p index name)
  | binary {op : Op} (hop : op.isBinary = true) (a b : Value) (name : String) : Made (.binary op a b name)
  | icmp (p : Pred) (a b : Option Value) (name : String) : Made (.icmp p a b name)
  | fcmp (p : Pred) (a b : Option Value) (name : String) : Made (.fcmp p a b name)
  | select (c a b : Value) (name : String) : Made (.select c a b name)
  | cast (op : Op) (v : Option Value) (t : Ty) (name : String) : Made (.cast op v t name)
  | call (f : FuncId) (ret : Ty) (args : List (Option Value)) (name : String) : Made (.call f ret args name)
  | br (dest : Option BlockId) : Made (.br dest)
  | condbr (c : Option Value) (yes no : Option BlockId) : Made (.condbr c yes no)
  | ret (v : Option Value) : Made (.ret v)
  | retVoid : Made .retVoid

/-- The constants that can be made. -/
inductive Const.Made : Const → Prop
  | int (t : Ty) (v : UInt64) : Made (.ofInt t v)
  | double (t : Ty) (d : UInt64) : Made (.ofDouble t d)
  | null (t : Ty) : Made (.null t)
  | undef (t : Ty) : Made (.undef t)

namespace Function

/-- The values that instructions of a function can read. What another function computes is none of them, and
verification refuses it. -/
def Offers (f : Function) : Value → Prop
  | .instr j t => j.fn = f.id ∧ ∃ x, f.instr? j.index = some x ∧ x.type = t
  | .param fn k t => fn = f.id → f.paramTypes[k]? = some t
  | .func .. => True
  | .const c _ => c.Made

/-- Functions that were made by the builder. -/
inductive Built : Function → Prop
  | declared (id : FuncId) (name : String) (ret : Ty) (params : List Ty) :
      Built { id, name, signature := .func ret params, params := params.map fun t ↦ ⟨"", t⟩ }
  | renamed {f : Function} (names : List String) : Built f → Built (f.renameParams names)
  | block {f : Function} (name : String) : Built f → Built (f.addBlock name).1
  | instr {f : Function} {b : Nat} {i : Instr} : Built f → b < f.blocks.size → i.Made →
      (∀ v, some v ∈ i.operands → f.Offers v) → Built (f.append b i).1

end Function

/-- The types that results have by how the builder makes them. -/
structure Instr.Typed (i : Instr) : Prop where
  binary : ∀ a b, i.op.isBinary = true → i.operands = [some a, some b] → i.type = a.type
  compare : ∀ a b, i.op = .icmp ∨ i.op = .fcmp → i.operands = [a, b] → i.type = .i1
  store : ∀ a b, i.op = .store → i.operands = [a, b] → i.type = .void
  alloca : i.op = .alloca → i.allocated ≠ .untyped → i.type = .pointer i.allocated

theorem Instr.Typed.of_op {i : Instr} (hb : i.op.isBinary = false) (hi : i.op ≠ .icmp) (hf : i.op ≠ .fcmp)
    (hs : i.op ≠ .store) (ha : i.op ≠ .alloca) : i.Typed where
  binary _ _ h := by rw [hb] at h; cases h
  compare _ _ h := (h.elim hi hf).elim
  store _ _ h := absurd h hs
  alloca h := absurd h ha

theorem Instr.Made.typed {i : Instr} (h : i.Made) : i.Typed := by
  cases h with
  | alloca | arrayAlloca =>
    exact ⟨fun _ _ h ↦ (by cases h), fun _ _ h ↦ (by rcases h with h | h <;> cases h), fun _ _ h ↦ (by cases h),
      fun _ _ ↦ rfl⟩
  | icmp | fcmp => exact ⟨fun _ _ h ↦ (by cases h), fun _ _ _ _ ↦ rfl, fun _ _ h ↦ (by cases h), fun h ↦ (by cases h)⟩
  | store =>
    exact ⟨fun _ _ h ↦ (by cases h), fun _ _ h ↦ (by rcases h with h | h <;> cases h), fun _ _ _ _ ↦ rfl,
      fun h ↦ (by cases h)⟩
  | @binary op hop a b name =>
    have hne : ∀ op' : Op, op'.isBinary = false → (Instr.binary op a b name).op ≠ op' := by
      rintro op' hop' rfl
      rw [Instr.binary] at hop'
      cases hop.symm.trans hop'
    refine { binary := fun _ _ _ h ↦ ?_, compare := fun _ _ h ↦ ?_, store := fun _ _ h ↦ ?_, alloca := fun h ↦ ?_ }
    · rw [Instr.binary, List.cons.injEq, Option.some.injEq] at h
      exact congrArg Value.type h.1
    · exact (h.elim (hne _ rfl) (hne _ rfl)).elim
    · exact absurd h (hne _ rfl)
    · exact absurd h (hne _ rfl)
  | cast op v t name =>
    -- with one operand, and nothing allocated
    refine { binary := fun _ _ _ h ↦ ?_, compare := fun _ _ _ h ↦ ?_, store := fun _ _ _ h ↦ ?_,
             alloca := fun _ h ↦ absurd rfl h }
    all_goals
      have := congrArg List.length h
      simp [Instr.cast] at this
  | load | gep | select | call | br | condbr | ret | retVoid => exact .of_op rfl nofun nofun nofun nofun

theorem Instr.Made.targets_eq {i : Instr} (h : i.Made) (hstays : i.op.isTerminator = false) : i.targets = [] := by
  cases h with
  | br | condbr => cases hstays
  | _ => rfl

namespace Function

/-- Block `b` lists instruction `k`, which is `i`. -/
structure Lists (f : Function) (b k : Nat) (i : Instr) : Prop where
  listed : ∃ B, f.blocks[b]? = some B ∧ k ∈ B.instrs
  found : f.instr? k = some i

/-- What holds of every function, however its instructions were put together: its blocks list instructions that there
are, each once, and an operand says the type of the instruction of the function that it refers to. -/
structure Shaped (f : Function) : Prop where
  found : ∀ {b k : Nat} {B : Block}, f.blocks[b]? = some B → k ∈ B.instrs → ∃ i, f.instr? k = some i
  once : ∀ {b : Nat} {B : Block}, f.blocks[b]? = some B → B.instrs.Nodup
  refers : ∀ {b j k : Nat} {i : Instr} {t : Ty}, f.Lists b k i → some (.instr ⟨f.id, j⟩ t) ∈ i.operands →
    .instr ⟨f.id, j⟩ t = f.result j

/-- Each instruction is listed in one block only. -/
structure Tidy (f : Function) : Prop extends f.Shaped where
  apart : ∀ {b c k : Nat} {i : Instr}, f.Lists b k i → f.Lists c k i → b = c

/-- What holds of every function that was made by the builder, and of what passes make of it. -/
structure Formed (f : Function) : Prop where
  found : ∀ {b k : Nat} {B : Block}, f.blocks[b]? = some B → k ∈ B.instrs →
    ∃ i, f.instr? k = some i ∧ i.home = some (f.blockId b)
  once : ∀ {b : Nat} {B : Block}, f.blocks[b]? = some B → B.instrs.Nodup
  home : ∀ {k : Nat} {i : Instr} {h : BlockId}, f.instr? k = some i → i.home = some h →
    ∃ b B, h = f.blockId b ∧ f.blocks[b]? = some B ∧ k ∈ B.instrs
  offers : ∀ {b k : Nat} {i : Instr} {v : Value}, f.Lists b k i → some v ∈ i.operands → f.Offers v
  typed : ∀ {b k : Nat} {i : Instr}, f.Lists b k i → i.Typed

namespace Formed

variable {f : Function} {b b' k : Nat} {i : Instr} {B B' : Block}

theorem lists (h : f.Formed) (hB : f.blocks[b]? = some B) (hk : k ∈ B.instrs) : ∃ i, f.Lists b k i := by
  obtain ⟨i, hi, -⟩ := h.found hB hk
  exact ⟨i, ⟨B, hB, hk⟩, hi⟩

theorem home_eq (h : f.Formed) (hl : f.Lists b k i) : i.home = some (f.blockId b) := by
  obtain ⟨B, hB, hk⟩ := hl.listed
  obtain ⟨j, hj, hhome⟩ := h.found hB hk
  rwa [Option.some.inj (hl.found.symm.trans hj)]

theorem unique (h : f.Formed) {i' : Instr} (hl : f.Lists b k i) (hl' : f.Lists b' k i') : b = b' := by
  have heq : i = i' := Option.some.inj (hl.found.symm.trans hl'.found)
  have hhome := (h.home_eq hl).symm.trans (heq ▸ h.home_eq hl')
  simpa [blockId] using hhome

theorem apart (h : f.Formed) (hB : f.blocks[b]? = some B) (hB' : f.blocks[b']? = some B') (hk : k ∈ B.instrs)
    (hk' : k ∈ B'.instrs) : b = b' := by
  obtain ⟨i, hl⟩ := h.lists hB hk
  obtain ⟨i', hl'⟩ := h.lists hB' hk'
  exact h.unique hl hl'

end Formed

theorem result_eq {f : Function} {k : Nat} {x : Instr} (hx : f.instr? k = some x) : f.result k =
    .instr ⟨f.id, k⟩ x.type := by
  rw [result, hx]
  rfl

theorem Offers.eq_result {f : Function} {id : InstrId} {t : Ty} (h : f.Offers (.instr id t)) :
    .instr id t = f.result id.index := by
  obtain ⟨hfn, x, hx, rfl⟩ := h
  rw [result_eq hx, ← hfn]

theorem Formed.tidy {f : Function} (h : f.Formed) : f.Tidy where
  found hB hk := (h.lists hB hk).imp fun _ hl ↦ hl.found
  once := h.once
  refers hl ho := (h.offers hl ho).eq_result
  apart := h.unique

theorem Shaped.lists {f : Function} {b k : Nat} {B : Block} (h : f.Shaped) (hB : f.blocks[b]? = some B)
    (hk : k ∈ B.instrs) : ∃ i, f.Lists b k i := by
  obtain ⟨i, hi⟩ := h.found hB hk
  exact ⟨i, ⟨B, hB, hk⟩, hi⟩

theorem Offers.append {f : Function} {v : Value} (h : f.Offers v) (b : Nat) (i : Instr) :
    (f.append b i).1.Offers v := by
  cases v with
  | instr j t =>
    obtain ⟨hfn, x, hx, ht⟩ := h
    refine ⟨hfn.trans (append_id f b i).symm, x, ?_, ht⟩
    rw [instr?, append_instrs, Array.getElem?_push, if_neg]
    · exact hx
    · intro heq
      rw [instr?, heq] at hx
      simp at hx
  | param fn k t =>
    intro hfn
    rw [append_id] at hfn
    rw [paramTypes, append_signature]
    exact h hfn
  | func => trivial
  | const => exact h

section append

variable {f : Function} {b c k : Nat} {i x : Instr}

theorem append_instr? (f : Function) (b : Nat) (i : Instr) (k : Nat) :
    (f.append b i).1.instr? k = if k = f.instrs.size then some (placed f b i) else f.instr? k := by
  rw [instr?, append_instrs, Array.getElem?_push]
  rfl

theorem instr?_append (hx : f.instr? k = some x) : (f.append b i).1.instr? k = some x := by
  have hlt := (Array.getElem?_eq_some_iff.mp hx).1
  rw [append_instr?, if_neg (by omega), hx]

theorem block_of_append {C : Block} (hC : (f.append b i).1.blocks[c]? = some C) :
    ∃ B, f.blocks[c]? = some B ∧ C.instrs = if c = b then B.instrs ++ [f.instrs.size] else B.instrs := by
  rw [append_blocks, Array.getElem?_modify] at hC
  split at hC
  · rename_i hbc
    obtain ⟨B, hB, rfl⟩ := Option.map_eq_some_iff.mp hC
    exact ⟨B, hB, by rw [if_pos hbc.symm]⟩
  · rename_i hbc
    exact ⟨C, hC, by rw [if_neg (Ne.symm hbc)]⟩

theorem block_append {B : Block} (hB : f.blocks[c]? = some B) (hk : k ∈ B.instrs ∨ c = b ∧ k = f.instrs.size) :
    ∃ C, (f.append b i).1.blocks[c]? = some C ∧ k ∈ C.instrs := by
  rw [append_blocks, Array.getElem?_modify, hB]
  by_cases hbc : b = c
  · rw [if_pos hbc]
    exact ⟨_, rfl, List.mem_append.mpr (hk.imp_right fun h ↦ List.mem_singleton.mpr h.2)⟩
  · rw [if_neg hbc]
    exact ⟨B, rfl, hk.resolve_right fun h ↦ hbc h.1.symm⟩

theorem lists_of_append (hl : (f.append b i).1.Lists c k x) : f.Lists c k x ∨ x = placed f b i := by
  obtain ⟨C, hC, hk⟩ := hl.listed
  obtain ⟨B, hB, hlist⟩ := block_of_append hC
  have hfound := hl.found
  rw [append_instr?] at hfound
  split at hfound
  · exact .inr (Option.some.inj hfound).symm
  · rename_i hne
    refine .inl ⟨⟨B, hB, ?_⟩, hfound⟩
    rw [hlist] at hk
    split at hk
    · exact (List.mem_append.mp hk).resolve_right fun h ↦ hne (List.mem_singleton.mp h)
    · exact hk

end append

theorem Formed.append {f : Function} {b : Nat} {i : Instr} (h : f.Formed) (hb : b < f.blocks.size) (hi : i.Made)
    (ho : ∀ v, some v ∈ i.operands → f.Offers v) : (f.append b i).1.Formed := by
  have hid := append_id f b i
  have hbelow : ∀ {c k : Nat} {B : Block}, f.blocks[c]? = some B → k ∈ B.instrs → k < f.instrs.size := by
    intro c k B hB hk
    obtain ⟨x, hx, -⟩ := h.found hB hk
    exact (Array.getElem?_eq_some_iff.mp hx).1
  refine ⟨?_, ?_, ?_, ?_, ?_⟩
  · intro c k C hC hk
    obtain ⟨B, hB, hlist⟩ := block_of_append hC
    have hbid : (f.append b i).1.blockId c = f.blockId c := by rw [blockId, hid, blockId]
    rw [hbid]
    rw [hlist] at hk
    split at hk
    · rename_i hcb
      subst hcb
      rcases List.mem_append.mp hk with hk | hk
      · obtain ⟨x, hx, hhome⟩ := h.found hB hk
        exact ⟨x, instr?_append hx, hhome⟩
      · exact ⟨placed f c i, by rw [append_instr?, if_pos (List.mem_singleton.mp hk)], rfl⟩
    · obtain ⟨x, hx, hhome⟩ := h.found hB hk
      exact ⟨x, instr?_append hx, hhome⟩
  · intro c C hC
    obtain ⟨B, hB, hlist⟩ := block_of_append hC
    rw [hlist]
    split
    · refine List.nodup_append.mpr ⟨h.once hB, List.pairwise_singleton .., fun x hx y hy ↦ ?_⟩
      have := hbelow hB hx
      have := List.mem_singleton.mp hy
      omega
    · exact h.once hB
  · intro k x hh hx hhome
    rw [append_instr?] at hx
    split at hx
    · rename_i hk
      obtain rfl := (Option.some.inj hx).symm
      obtain ⟨C, hC, hkC⟩ := block_append (i := i) (Array.getElem?_eq_getElem hb) (.inr ⟨rfl, hk⟩)
      refine ⟨b, C, ?_, hC, hkC⟩
      rw [blockId, hid]
      exact (Option.some.inj hhome).symm
    · obtain ⟨c, B, rfl, hB, hk⟩ := h.home hx hhome
      obtain ⟨C, hC, hkC⟩ := block_append (b := b) (i := i) hB (.inl hk)
      exact ⟨c, C, by rw [blockId, blockId, hid], hC, hkC⟩
  · intro c k x v hl hv
    rcases lists_of_append hl with hl | rfl
    · exact (h.offers hl hv).append b i
    · exact (ho v hv).append b i
  · intro c k x hl
    rcases lists_of_append hl with hl | rfl
    · exact h.typed hl
    · obtain ⟨h1, h2, h3, h4⟩ := hi.typed
      exact ⟨h1, h2, h3, h4⟩

theorem Formed.block {f : Function} (h : f.Formed) (name : String) : (f.addBlock name).1.Formed := by
  obtain ⟨hinstrs, hblocks, hid, -, hsig, -⟩ := uniqueName_kept f (if name = "" then "bb" else name)
  obtain ⟨B₀, hB₀, hpush⟩ : ∃ B₀ : Block, B₀.instrs = [] ∧ (f.addBlock name).1.blocks = f.blocks.push B₀ :=
    ⟨⟨(f.uniqueName (if name = "" then "bb" else name)).1, []⟩, rfl, by rw [← hblocks]; rfl⟩
  have hinstr : ∀ k, (f.addBlock name).1.instr? k = f.instr? k := fun k ↦ congrArg (·[k]?) hinstrs
  have hid' : (f.addBlock name).1.id = f.id := hid
  have hbid : ∀ c, (f.addBlock name).1.blockId c = f.blockId c := fun c ↦ by rw [blockId, hid', blockId]
  have hmem : ∀ {c k : Nat} {C : Block}, (f.addBlock name).1.blocks[c]? = some C → k ∈ C.instrs →
      f.blocks[c]? = some C := by
    intro c k C hC hk
    rw [hpush, Array.getElem?_push] at hC
    split at hC
    · obtain rfl := Option.some.inj hC
      rw [hB₀] at hk
      cases hk
    · exact hC
  have hlists : ∀ {c k : Nat} {x : Instr}, (f.addBlock name).1.Lists c k x → f.Lists c k x := by
    rintro c k x ⟨⟨C, hC, hk⟩, hx⟩
    exact ⟨⟨C, hmem hC hk, hk⟩, (hinstr k).symm.trans hx⟩
  refine ⟨?_, ?_, ?_, ?_, fun hl ↦ h.typed (hlists hl)⟩
  · intro c k C hC hk
    rw [hinstr, hbid]
    exact h.found (hmem hC hk) hk
  · intro c C hC
    rw [hpush, Array.getElem?_push] at hC
    split at hC
    · obtain rfl := Option.some.inj hC
      rw [hB₀]
      exact List.nodup_nil
    · exact h.once hC
  · intro k x hh hx hhome
    rw [hinstr] at hx
    obtain ⟨c, B, rfl, hB, hk⟩ := h.home hx hhome
    refine ⟨c, B, (hbid c).symm, ?_, hk⟩
    rw [hpush, Array.getElem?_push, if_neg, hB]
    have := (Array.getElem?_eq_some_iff.mp hB).1
    omega
  · intro c k x v hl hv
    have hoffers := h.offers (hlists hl) hv
    cases v with
    | instr j t => exact ⟨hoffers.1.trans hid'.symm, by rw [hinstr]; exact hoffers.2⟩
    | param fn k t =>
      intro hfn
      have hsig' : (f.addBlock name).1.signature = f.signature := hsig
      rw [paramTypes, hsig']
      exact hoffers (hfn.trans hid')
    | func => trivial
    | const => exact hoffers

theorem Built.targets_eq {f : Function} {k : Nat} {i : Instr} (h : f.Built) (hi : f.instr? k = some i)
    (hstays : i.op.isTerminator = false) : i.targets = [] := by
  induction h with
  | declared => simp [instr?] at hi
  | renamed names _ ih => exact ih hi
  | @block f name _ ih =>
    obtain ⟨hinstrs, -⟩ := uniqueName_kept f (if name = "" then "bb" else name)
    exact ih ((congrArg (·[k]?) hinstrs).symm.trans hi)
  | @instr f b j _ _ hj _ ih =>
    rw [instr?, append_instrs, Array.getElem?_push] at hi
    split at hi
    · cases hi
      exact hj.targets_eq hstays
    · exact ih hi

theorem Built.formed {f : Function} (h : f.Built) : f.Formed := by
  induction h with
  | declared => exact ⟨nofun, nofun, nofun, fun hl ↦ absurd hl.listed nofun, fun hl ↦ absurd hl.listed nofun⟩
  | renamed names _ ih =>
    exact ⟨ih.found, ih.once, ih.home, fun hl hv ↦ ih.offers ⟨hl.listed, hl.found⟩ hv,
      fun hl ↦ ih.typed ⟨hl.listed, hl.found⟩⟩
  | block name _ ih => exact ih.block name
  | instr _ hb hi ho ih => exact ih.append hb hi ho

end Function

end CilSsa.Ssa

