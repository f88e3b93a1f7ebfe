import CilSsa.Proofs.Isolation
import CilSsa.Proofs.Traversals
import CilSsa.Proofs.ValueNumbering

namespace CilSsa.Ssa

def Op.onlyReads : Op → Bool
  | .alloca | .store | .call | .br | .condbr | .ret | .other _ => false
  | _ => true

def Op.transfers : Op → Bool
  | .call | .br | .condbr | .ret => true
  | _ => false

theorem Op.transfers_of_onlyReads {op : Op} (h : op.onlyReads = true) : op.transfers = false := by
  cases op <;> first | rfl | cases h

theorem Op.ne_alloca_of_onlyReads {op : Op} (h : op.onlyReads = true) : op ≠ .alloca := by
  rintro rfl
  cases h

end CilSsa.Ssa

namespace CilSsa.Machine

open CilSsa.Ssa CilSsa.Number CilSsa.Text

section

variable {mem mem' : Memory} {o n : Nat} {a : UInt64} {bs : Bytes}

theorem Memory.Grows.slice (h : mem.Grows mem') (hn : o + n ≤ mem.stack.top) :
    slice mem'.stack.bytes o n = slice mem.stack.bytes o n := by
  obtain ⟨more, hmore⟩ := h.bytes
  rw [← hmore, slice_append]
  rw [Region.length_bytes]
  exact hn

theorem Memory.Grows.top (h : mem.Grows mem') : mem.stack.top ≤ mem'.stack.top := by
  rw [← Region.length_bytes, ← Region.length_bytes]
  exact h.bytes.length_le

theorem Memory.slice_write (hbase : mem.stack.base = stackBase)
    (h : (a - stackBase).toNat + bs.length ≤ o ∨ o + n ≤ (a - stackBase).toNat) :
    slice (mem.write a bs).stack.bytes o n = slice mem.stack.bytes o n := by
  unfold Memory.write
  split
  · rename_i o' ho
    obtain ⟨-, -, rfl, hend⟩ := Region.place?_eq_some_iff.mp ho
    have hend : (a - mem.stack.base).toNat + bs.length ≤ mem.stack.top := by omega
    show slice (mem.stack.write _ bs).bytes o n = _
    rw [Region.bytes_write _ _ _ hend, slice_splice_apart (by rw [Region.length_bytes]; exact hend)
      (by rw [hbase]; omega)]
  · split <;> rfl

theorem prefix_splice {l l' : Bytes} (h : l <+: l') (ho : l.length ≤ o) : l <+: splice l' o bs := by
  unfold splice
  rw [List.append_assoc]
  exact (List.prefix_take_iff.mpr ⟨h, ho⟩).trans (List.prefix_append _ _)

end

section

variable {m : Module} {limits : Limits} {trace : List String} {e c d : Engine} {t : Ty} {a v : UInt64} {l : Layout}

/-- No part of memory is larger than addresses allow. -/
structure Engine.Low (m : Module) (limits : Limits) (e : Engine) : Prop extends e.Kept m limits where
  low : e.memory.stack.top < 2 ^ 63

theorem Engine.Low.allows (m : Module) (limits : Limits) : Allows m fun e d ↦ e.Low m limits → d.Low m limits where
  refl _ h := h
  trans h h' := h' ∘ h
  layouts e t h := ⟨(Engine.Kept.allows m limits).layouts e t h.toKept, h.low⟩
  grow e stop hgrows hstop h := by
    refine ⟨(Engine.Kept.allows m limits).grow e stop hgrows hstop h.toKept, ?_⟩
    have hlow := h.low
    rwa [Region.top_grow]
  address e f h := ⟨(Engine.Kept.allows m limits).address e f h.toKept, h.low⟩

theorem Engine.Low.writes : AllowsWrites fun e d ↦ e.Low m limits → d.Low m limits :=
  fun e a bs h ↦ ⟨Engine.Kept.writes e a bs h.toKept, (Memory.stack_top_write ..).symm ▸ h.low⟩

theorem Engine.Low.release : AllowsRelease fun e d ↦ e.Low m limits → d.Low m limits := by
  refine fun e mark h ↦ ⟨Engine.Kept.release e mark h.toKept, ?_⟩
  have hlow := h.low
  show (e.memory.stack.release mark).top < _
  rw [Region.top_release]
  omega

theorem Engine.Low.moved {α : Type} {c : Run α} {r : Except Stop α} (he : e.Low m limits)
    (hc : Moves (fun e d ↦ e.Low m limits → d.Low m limits) c) (h : c.run.run e = (r, d)) : d.Low m limits := by
  have hmoved := hc e he
  rwa [h] at hmoved

theorem Engine.Low.stackAlloc {count : Int} {r : Except Stop UInt64} (he : e.Low m limits)
    (h : (stackAlloc m trace t count).run.run e = (r, d)) : d.Low m limits :=
  he.moved (stackAlloc_moves (allows m limits) t count) h

theorem Engine.Low.load {r : Except Stop UInt64} (he : e.Low m limits) (h : (load m trace a t).run.run e = (r, d)) :
    d.Low m limits := he.moved (load_moves (allows m limits) a t fun _ ↦ writes) h

theorem Engine.Low.store {r : Except Stop Unit} (he : e.Low m limits) (h : (store m trace a t v).run.run e = (r, d)) :
    d.Low m limits := he.moved (store_moves (allows m limits) writes a t v) h

theorem Engine.Low.mapped {n : Nat} (h : e.Low m limits) (hn : e.memory.maps a n = true) : n < 2 ^ 63 := by
  have hlow := h.low
  have hsize := h.size
  unfold Memory.maps at hn
  rw [Bool.or_eq_true, Option.isSome_iff_exists, Option.isSome_iff_exists] at hn
  rcases hn with ⟨o, ho⟩ | ⟨o, ho⟩ <;> have hend := (Region.place?_eq_some_iff.mp ho).2.2.2 <;> omega

theorem readBytes_inv {n : Int} {bs : Bytes} (h : (readBytes trace a n).run.run e = (.ok bs, d)) :
    d = e ∧ e.memory.read? a n = some bs := by
  unfold readBytes at h
  rw [run_bind_ok run_get] at h
  split at h
  · rename_i hbs
    cases h
    exact ⟨rfl, hbs⟩
  · cases h

theorem needBytes_inv {n : Int} {x : Unit} (h : (needBytes trace a n).run.run e = (.ok x, d)) :
    e.memory.maps a n = true ∧ d = e := by
  unfold needBytes at h
  rw [run_bind_ok run_get] at h
  split at h
  · rename_i hmaps
    cases h
    exact ⟨hmaps, rfl⟩
  · cases h

theorem writeBytes_inv {bs : Bytes} {x : Unit} (h : (writeBytes trace a bs).run.run e = (.ok x, d)) :
    e.memory.maps a bs.length = true ∧ d = { e with memory := e.memory.write a bs } := by
  obtain ⟨_, c, hneed, hmodify⟩ := run_bind_inv h
  obtain ⟨hmaps, rfl⟩ := needBytes_inv hneed
  cases hmodify
  exact ⟨hmaps, rfl⟩

theorem length_wordBytes? {n : Nat} {bs : Bytes} (h : wordBytes? n v = some bs) : bs.length ≤ n := by
  unfold wordBytes? at h
  split at h
  · cases h
    exact (littleEndian_length ..).le
  · cases h
    exact (littleEndian_length ..).le
  · cases h
    exact (littleEndian_length ..).le
  split at h
  · cases h
  · cases h
    rw [littleEndian_length]
    omega

theorem writePattern_inv {n : Nat} {x : Unit} (h : (writePattern trace a n v).run.run e = (.ok x, d)) :
    e.memory.maps a n = true ∧ ∃ bs, bs.length ≤ n ∧ d = { e with memory := e.memory.write a bs } := by
  obtain ⟨_, c, hneed, hwrite⟩ := run_bind_inv h
  obtain ⟨hmaps, rfl⟩ := needBytes_inv hneed
  refine ⟨hmaps, ?_⟩
  split at hwrite
  · rename_i bs hbs
    exact ⟨bs, length_wordBytes? hbs, (writeBytes_inv hwrite).2⟩
  · cases hwrite

/-- A store writes no more bytes than its type has, to where all of them are in use. -/
theorem store_inv (he : e.Low m limits) {x : Unit} (h : (store m trace a t v).run.run e = (.ok x, d)) :
    ∃ l bs, Layouts.LaidOut m .host t l ∧ l.size < 2 ^ 63 ∧ bs.length ≤ l.size ∧ d.memory = e.memory.write a bs := by
  have hpattern : ∀ {l : Layout} {w : UInt64}, Layouts.LaidOut m .host t l →
      (writePattern trace a l.size w).run.run e = (.ok x, d) →
      ∃ l bs, Layouts.LaidOut m .host t l ∧ l.size < 2 ^ 63 ∧ bs.length ≤ l.size ∧ d.memory = e.memory.write a bs := by
    intro l w hl hwrite
    obtain ⟨hmaps, bs, hbs, rfl⟩ := writePattern_inv hwrite
    exact ⟨l, bs, hl, he.mapped hmaps, hbs, rfl⟩
  unfold store at h
  cases t with
  | struct id name =>
    obtain ⟨size, c, hsize, hrest⟩ := run_bind_inv h
    obtain ⟨l, hl, rfl, hmemory, -, -⟩ := sizeOf_inv he.knows hsize
    obtain ⟨bs, c', hread, hwrite⟩ := run_bind_inv hrest
    obtain ⟨rfl, hbs⟩ := readBytes_inv hread
    obtain ⟨hmaps, rfl⟩ := writeBytes_inv hwrite
    have hlength := Memory.length_read? hbs
    rw [hmemory] at hmaps
    exact ⟨l, bs, hl, hlength ▸ he.mapped hmaps, hlength.le, by rw [← hmemory]⟩
  | int bits => exact hpattern (l := .scalar (byteWidth bits)) ⟨1, rfl⟩ (by rw [Layout.size_scalar]; exact h)
  | float => exact hpattern (l := .scalar 4) ⟨1, rfl⟩ h
  | double => exact hpattern (l := .scalar 8) ⟨1, rfl⟩ h
  | pointer => exact hpattern (l := ⟨8, 8, [], []⟩) ⟨1, rfl⟩ h
  | _ => cases h

theorem Memory.copied {mem : Memory} {start : Nat} {bs : Bytes} (hbase : mem.stack.base = stackBase)
    (hle : mem.stack.top ≤ start) (hend : start + bs.length < 2 ^ 63) :
    let mem' := ({ mem with stack := mem.stack.grow (start + bs.length) } : Memory).write
      (mem.stack.base + start.toUInt64) bs
    mem.Grows mem' ∧ mem'.read? (mem.stack.base + start.toUInt64) bs.length = some bs := by
  have htop := Region.top_grow mem.stack (start + bs.length)
  have hprefix : mem.stack.bytes <+: (mem.stack.grow (start + bs.length)).bytes := by
    rw [Region.bytes_grow _ (by omega)]
    exact List.prefix_append _ _
  generalize hgrown : mem.stack.grow (start + bs.length) = grown at htop hprefix ⊢
  have hsame : grown.base = mem.stack.base := by
    rw [← hgrown]
    rfl
  have hroom : grown.base.toNat + grown.top < 2 ^ 64 := by
    have : stackBase.toNat = 1099511627776 := rfl
    rw [hsame, hbase, htop]
    omega
  have hwrite := @Memory.write_stack { mem with stack := grown } hroom start bs (by rw [htop])
  have hread := fun h ↦ @Memory.read?_stack { mem with stack := grown.write start bs } h start bs.length
  rw [hsame] at hwrite
  rw [Region.base_write, Region.top_write, hsame] at hread
  intro mem'
  rw [show mem' = _ from hwrite]
  refine ⟨⟨rfl, (Region.base_write ..).trans hsame, ?_⟩, (hread (hsame ▸ hroom) (by rw [htop])).trans ?_⟩ <;>
    dsimp only <;> rw [Region.bytes_write _ _ _ (by rw [htop])]
  · exact prefix_splice hprefix (by rw [Region.length_bytes]; exact hle)
  · have hinside := @slice_splice_inside grown.bytes start bs (by rw [Region.length_bytes, htop]) 0 bs.length
      (by omega)
    rw [Nat.add_zero] at hinside
    rw [hinside, slice, List.drop_zero, List.take_length]

theorem Memory.maps_of_read? {mem : Memory} {n : Int} {bs : Bytes} (h : mem.read? a n = some bs) :
    mem.maps a n = true := by
  unfold Memory.read? at h
  unfold Memory.maps
  split at h
  · rename_i o ho
    rw [ho]
    rfl
  · obtain ⟨o, ho, -⟩ := Option.map_eq_some_iff.mp h
    rw [ho, Option.isSome_some, Bool.or_true]

theorem load_struct (he : e.Low m limits) (ht : t.isStruct = true) (h : (load m trace a t).run.run e = (.ok v, d)) :
    e.memory.Grows d.memory ∧ ∃ l, Layouts.LaidOut m .host t l ∧ d.memory.read? v l.size = e.memory.read? a l.size := by
  cases t with
  | struct id name =>
    unfold load at h
    dsimp only at h
    obtain ⟨size, c, hsize, hrest⟩ := run_bind_inv h
    obtain ⟨l, hl, rfl, hmemory, -, hknows⟩ := sizeOf_inv he.knows hsize
    obtain ⟨bs, c', hread, hcopy⟩ := run_bind_inv hrest
    obtain ⟨rfl, hbs⟩ := readBytes_inv hread
    obtain ⟨copy, c'', halloc, hfill⟩ := run_bind_inv hcopy
    obtain ⟨_, c₃, hwrite, hend⟩ := run_bind_inv hfill
    cases hend
    obtain ⟨l', stop, hl', hroom, hmemory'⟩ := stackAlloc_inv hknows halloc
    obtain rfl := hl.unique hl'
    obtain ⟨-, rfl⟩ := writeBytes_inv hwrite
    have hlength := Memory.length_read? hbs
    rw [hmemory] at hbs hroom hmemory'
    have hsmall : l.size < 2 ^ 63 := he.mapped (Memory.maps_of_read? hbs)
    rw [mul_one, wrapInt_of_lt hsmall] at hroom
    have hstop := Region.stop_lt hroom
    obtain ⟨start, -, hle, hstart, rfl, rfl⟩ := Region.room_modest hsmall hl.modest hroom
    obtain ⟨hgrows, hread⟩ := Memory.copied he.stack hle (hlength ▸ hstop)
    rw [hlength] at hgrows hread
    dsimp only
    rw [hmemory']
    exact ⟨hgrows, l, hl, hread.trans hbs.symm⟩
  | _ => cases ht

theorem load_grows (he : e.Low m limits) (h : (load m trace a t).run.run e = (.ok v, d)) : e.memory.Grows d.memory := by
  by_cases hstruct : t.isStruct = true
  · exact (load_struct he hstruct h).1
  · have hsame := @load_same m trace _ e a (Bool.not_eq_true _ ▸ hstruct)
    rw [h] at hsame
    rw [show d = e from hsame]
    exact (Memory.Grows.allows m).refl e

theorem compute_grows (he : e.Low m limits) {i : Instr} {ops : List UInt64} (hop : i.op.onlyReads = true)
    (h : (compute m trace i ops).run.run e = (.ok v, d)) : e.memory.Grows d.memory := by
  by_cases hload : i.op = .load
  · unfold compute at h
    rw [hload] at h
    cases ops with
    | nil => cases h
    | cons p ops => exact load_grows he h
  · have hmoves : Moves (fun e d ↦ e.memory.Grows d.memory) (compute m trace i ops) := by
      refine compute_moves (Memory.Grows.allows m) i ops fun hwrites ↦ ?_
      rcases hwrites with hstore | ⟨hop', -⟩
      · rw [hstore] at hop
        cases hop
      · exact absurd hop' hload
    have := hmoves e
    rwa [h] at this

end

/-! ### The slots of a frame -/

section

variable {m : Module} {limits : Limits} {e c d : Engine} {fr fr' : Frame} {callers frames frames' : List Frame}
  {i j : Instr} {k top top' o n : Nat} {rest : List Nat} {v : UInt64} {x : InstrId} {pr : Progress}

/-- In a frame `x` is an allocation of one value, which gave `n` bytes of the stack from place `o` on. -/
def Frame.Slot (m : Module) (fr : Frame) (x : InstrId) (o n : Nat) : Prop := ∃ i a l, m.instr? x = some i ∧
  i.op = .alloca ∧ i.operands = [] ∧ fr.values[x]? = some a ∧ Layouts.LaidOut m .host i.allocated l ∧ n = l.size ∧
  n < 2 ^ 63 ∧ o = (a - stackBase).toNat

/-- The slots of a frame lie below `top`, and apart from each other. -/
structure Frame.Apart (m : Module) (fr : Frame) (top : Nat) : Prop where
  below : ∀ {x o n}, fr.Slot m x o n → o + n ≤ top
  apart : ∀ {x o n x' o' n'}, fr.Slot m x o n → fr.Slot m x' o' n' → x ≠ x' → o + n ≤ o' ∨ o' + n' ≤ o

theorem Frame.Apart.mono (h : fr.Apart m top) (hle : top ≤ top') : fr.Apart m top' :=
  ⟨fun hx ↦ (h.below hx).trans hle, h.apart⟩

theorem Frame.Slot.of_values (h : fr.Slot m x o n) (hvalues : fr'.values[x]? = fr.values[x]?) : fr'.Slot m x o n := by
  obtain ⟨i, a, l, hi, hop, hops, ha, hrest⟩ := h
  exact ⟨i, a, l, hi, hop, hops, hvalues.trans ha, hrest⟩

theorem Frame.Apart.entered (h : fr.values = {}) : fr.Apart m top := by
  have hnone : ∀ {x o n}, ¬ fr.Slot m x o n := by
    rintro x o n ⟨i, a, l, -, -, -, ha, -⟩
    rw [h, Std.HashMap.getElem?_empty] at ha
    cases ha
  exact ⟨fun hx ↦ (hnone hx).elim, fun hx ↦ (hnone hx).elim⟩

theorem Frame.Slot.of_advance (hk : fr.rest = k :: rest) (h : (fr.advance i v).Slot m x o n) : fr.Slot m x o n ∨
    x = ⟨fr.block.fn, k⟩ ∧ ∃ j l, m.instr? x = some j ∧ j.op = .alloca ∧ j.operands = [] ∧
      Layouts.LaidOut m .host j.allocated l ∧ n = l.size ∧ n < 2 ^ 63 ∧ o = (v - stackBase).toNat := by
  obtain ⟨j, a, l, hj, hop, hops, ha, hl, hn, hsmall, ho⟩ := h
  rw [Frame.advance_values hk] at ha
  split at ha
  · rename_i hnew
    cases ha
    exact .inr ⟨hnew.2, j, l, hj, hop, hops, hl, hn, hsmall, ho⟩
  · exact .inl ⟨j, a, l, hj, hop, hops, ha, hl, hn, hsmall, ho⟩

theorem Frame.Apart.advance (h : fr.Apart m top) (hk : fr.rest = k :: rest) (hj : m.instr? ⟨fr.block.fn, k⟩ = some j)
    (hop : j.op ≠ .alloca) : (fr.advance i v).Apart m top := by
  have hold : ∀ {x o n}, (fr.advance i v).Slot m x o n → fr.Slot m x o n := by
    intro x o n hx
    rcases hx.of_advance hk with hx | ⟨rfl, j', l, hj', halloca, -⟩
    · exact hx
    · cases hj.symm.trans hj'
      exact absurd halloca hop
  exact ⟨fun hx ↦ h.below (hold hx), fun hx hx' ↦ h.apart (hold hx) (hold hx')⟩

theorem Frame.Apart.allocate (h : fr.Apart m top) (hk : fr.rest = k :: rest) (hj : m.instr? ⟨fr.block.fn, k⟩ = some j)
    (hle : top ≤ top') (hroom : j.operands = [] → ∀ l, Layouts.LaidOut m .host j.allocated l → l.size < 2 ^ 63 →
      top ≤ (v - stackBase).toNat ∧ (v - stackBase).toNat + l.size ≤ top') : (fr.advance i v).Apart m top' := by
  have hcases : ∀ {x o n}, (fr.advance i v).Slot m x o n →
      fr.Slot m x o n ∨ x = ⟨fr.block.fn, k⟩ ∧ top ≤ o ∧ o + n ≤ top' := by
    intro x o n hx
    rcases hx.of_advance hk with hx | ⟨rfl, j', l, hj', -, hops, hl, rfl, hsmall, rfl⟩
    · exact .inl hx
    · cases hj.symm.trans hj'
      exact .inr ⟨rfl, hroom hops l hl hsmall⟩
  constructor
  · intro x o n hx
    rcases hcases hx with hx | ⟨-, -, hend⟩
    · exact (h.below hx).trans hle
    · exact hend
  · intro x o n x' o' n' hx hx' hne
    rcases hcases hx with hx | ⟨rfl, hstart, -⟩ <;> rcases hcases hx' with hx' | ⟨rfl, hstart', -⟩
    · exact h.apart hx hx' hne
    · exact .inl ((h.below hx).trans hstart')
    · exact .inr ((h.below hx').trans hstart)
    · exact absurd rfl hne

theorem step_computes (hk : fr.rest = k :: rest) (hi : m.instr? ⟨fr.block.fn, k⟩ = some i)
    (hop : i.op.transfers = false) (h : (step m (fr :: callers)).run.run e = (.ok pr, d)) : ∃ ops v c,
      (i.operands.mapM (operand m ((fr :: callers).map (·.name)) fr)).run.run e = (.ok ops, c) ∧
        (compute m ((fr :: callers).map (·.name)) i ops).run.run c = (.ok v, d) ∧
          pr = .running (fr.advance i v :: callers) := by
  unfold step at h
  dsimp only at h
  rw [hk] at h
  dsimp only at h
  rw [hi] at h
  obtain ⟨ops, c, hops, hact⟩ := run_bind_inv h
  split at hact
  case h_5 =>
    obtain ⟨v, c', hv, hend⟩ := run_bind_inv hact
    cases hend
    exact ⟨ops, v, c, hops, hv, rfl⟩
  all_goals
    rename_i heq
    rw [heq] at hop
    cases hop

theorem operands_grow {trace : List String} {os : List (Option Value)} {vs : List UInt64}
    (h : (os.mapM (operand m trace fr)).run.run e = (.ok vs, c)) :
    e.memory.Grows c.memory ∧ (e.Low m limits → c.Low m limits) := by
  have hworks : e.Works m c := .of_run (fun R ha _ ↦ ha.mapM (operand_moves ha fr) os) h
  have hmoves : Moves (fun e d ↦ e.memory.Grows d.memory) (os.mapM (operand m trace fr)) :=
    (Memory.Grows.allows m).mapM (operand_moves (Memory.Grows.allows m) fr) os
  have hgrows := hmoves e
  rw [h] at hgrows
  exact ⟨hgrows, hworks _ (Engine.Low.allows m limits) Engine.Low.writes⟩

theorem step_allocates (he : e.Low m limits) (hk : fr.rest = k :: rest) (hi : m.instr? ⟨fr.block.fn, k⟩ = some i)
    (hop : i.op = .alloca) (h : (step m (fr :: callers)).run.run e = (.ok pr, d)) : ∃ v,
      pr = .running (fr.advance i v :: callers) ∧ e.memory.stack.top ≤ d.memory.stack.top ∧
        (i.operands = [] → ∀ l, Layouts.LaidOut m .host i.allocated l → l.size < 2 ^ 63 →
          e.memory.stack.top ≤ (v - stackBase).toNat ∧ (v - stackBase).toNat + l.size ≤ d.memory.stack.top) := by
  obtain ⟨ops, v, c, hops, hv, rfl⟩ := step_computes hk hi (by rw [hop]; rfl) h
  obtain ⟨hgrows, hlow⟩ := @operands_grow _ limits _ _ _ _ _ _ hops
  have hc := hlow he
  unfold compute at hv
  rw [hop] at hv
  obtain ⟨l, stop, hl, hroom, hmemory⟩ := stackAlloc_inv hc.knows (slots_inv hv)
  have htop : d.memory.stack.top = stop := by
    rw [hmemory]
    exact Region.top_grow ..
  refine ⟨v, rfl, hgrows.top.trans (htop ▸ (Region.room_above hroom).2.1), fun hnone l' hl' hsmall ↦ ?_⟩
  obtain rfl := hl.unique hl'
  rw [hnone] at hops
  cases hops
  simp only [List.reverse_nil, mul_one, wrapInt_of_lt hsmall] at hroom
  obtain ⟨start, -, hle, hstart, rfl, rfl⟩ := Region.room_modest hsmall hl.modest hroom
  have hoffset : (e.memory.stack.base + start.toUInt64 - stackBase).toNat = start := by
    rw [he.stack, UInt64.add_comm, UInt64.add_sub_cancel, Nat.toUInt64, UInt64.toNat_ofNat']
    omega
  rw [hoffset, htop]
  exact ⟨hle, le_rfl⟩

/-! ### The frames of a call -/

def Frame.Waits (m : Module) (fr : Frame) : Prop :=
  ∃ k rest i, fr.rest = k :: rest ∧ m.instr? ⟨fr.block.fn, k⟩ = some i ∧ i.op = .call

/-- Each frame's slots lie below the part of the stack of the frame that it called. -/
inductive Nested (m : Module) : List Frame → Nat → Prop
  | nil {top : Nat} : Nested m [] top
  | cons {fr : Frame} {callers : List Frame} {top : Nat} : fr.Apart m top → fr.mark ≤ top →
      (∀ caller ∈ callers.head?, caller.Waits m) → Nested m callers fr.mark → Nested m (fr :: callers) top

theorem Nested.step (h : Nested m frames e.memory.stack.top) (he : e.Low m limits)
    (hstep : (step m frames).run.run e = (.ok (.running frames'), d)) : Nested m frames' d.memory.stack.top := by
  obtain ⟨fr, callers, k, rest, i, rfl, hk, hi, hwent⟩ := step_went hstep
  cases h with
  | cons hfr hmark hwaits hcallers =>
  have hadvance : ∀ i v, (fr.advance i v).mark = fr.mark := fun i v ↦ (Frame.advance_same hk).2.2.2.2.1
  by_cases halloca : i.op = .alloca
  · obtain ⟨v, hpr, hle, hroom⟩ := step_allocates he hk hi halloca hstep
    cases hpr
    refine .cons (hfr.allocate hk hi hle hroom) ?_ hwaits ?_ <;> rw [hadvance]
    · exact hmark.trans hle
    · exact hcallers
  cases hwent with
  | on hw =>
    refine .cons ((hfr.advance hk hi halloca).mono hw.rises) ?_ hwaits ?_ <;> rw [hadvance]
    · exact hmark.trans hw.rises
    · exact hcallers
  | jumped _ _ hw => exact .cons ⟨(hfr.mono hw.rises).below, hfr.apart⟩ (hmark.trans hw.rises) hwaits hcallers
  | called hop _ _ _ _ _ hmark' hvalues hw =>
    refine .cons (.entered hvalues) hmark'.le ?_ (hmark' ▸ .cons (hfr.mono hw.rises) (hmark.trans hw.rises)
      hwaits hcallers)
    rintro caller ⟨⟩
    exact ⟨k, rest, i, hk, hi, hop⟩
  | @left c c' v p bytes trace _ hw hbytes hr =>
    cases hr with
    | @caller caller outer i' v' hw' =>
      have hc : e.memory.stack.top ≤ c'.memory.stack.top :=
        (hw.trans (.of_run (fun R ha _ ↦ returnedBytes_moves ha _ v) hbytes)).rises
      have hreleased : (c'.released fr.mark).memory.stack.top = fr.mark := by
        show (Region.release _ _).top = _
        rw [Region.top_release, min_eq_left (hmark.trans hc)]
      have hle : fr.mark ≤ d.memory.stack.top := hreleased ▸ hw'.rises
      obtain ⟨k', rest', j, hk', hj, hcall⟩ := hwaits caller rfl
      cases hcallers with
      | cons hcaller hmark' hwaits' houter =>
        refine .cons ((hcaller.advance hk' hj (by rw [hcall]; nofun)).mono hle) ?_ hwaits' ?_ <;>
          rw [(Frame.advance_same hk').2.2.2.2.1]
        · exact hmark'.trans hle
        · exact houter

theorem Engine.During.low {f : FuncId} {args : List UInt64} (h : Engine.During m f args e frames c)
    (he : e.Low m limits) : c.Low m limits := by
  induction h with
  | entered henter =>
    obtain ⟨rfl, -⟩ := enter_inv henter
    exact he
  | @step frames frames' c d _ hstep ih =>
    have := step_moves (Engine.Low.allows m limits) Engine.Low.writes Engine.Low.release frames c ih
    rwa [hstep] at this

theorem Engine.During.nested {f : FuncId} {args : List UInt64} (h : Engine.During m f args e frames c)
    (he : e.Low m limits) : Nested m frames c.memory.stack.top := by
  induction h with
  | entered henter =>
    obtain ⟨rfl, B, -, -, -, hmark, hvalues, -⟩ := enter_inv henter
    exact .cons (.entered hvalues) hmark.le nofun .nil
  | step hduring hstep ih => exact ih.step (hduring.low he) hstep

theorem Engine.During.apart {f : FuncId} {args : List UInt64} (h : Engine.During m f args e (fr :: callers) c)
    (he : e.Low m limits) : fr.Apart m c.memory.stack.top := by
  cases h.nested he with
  | cons hfr => exact hfr

/-! ### What a slot holds -/

/-- The frame `fr'` is `fr` further on, before `rest`. The slot `x` is where it was, and what it held in `c` it holds
in `d`. -/
structure Frame.Onward (m : Module) (x : InstrId) (rest : List Nat) (fr fr' : Frame) (c d : Engine) : Prop where
  block : fr'.block = fr.block
  rest : fr'.rest = rest
  address : fr'.values[x]? = fr.values[x]?
  held : ∀ {o n}, fr.Slot m x o n → slice d.memory.stack.bytes o n = slice c.memory.stack.bytes o n

theorem Frame.Onward.refl (fr : Frame) (c : Engine) : fr.Onward m x fr.rest fr c c := ⟨rfl, rfl, rfl, fun _ ↦ rfl⟩

theorem Frame.Onward.trans {rest' : List Nat} {fr'' : Frame} {c' : Engine} (h : fr.Onward m x rest fr' c d)
    (h' : fr'.Onward m x rest' fr'' d c') : fr.Onward m x rest' fr'' c c' :=
  ⟨h'.block.trans h.block, h'.rest, h'.address.trans h.address,
    fun hx ↦ (h'.held (hx.of_values h.address)).trans (h.held hx)⟩

def Frame.StoresApart (m : Module) (fr : Frame) (x : InstrId) (i : Instr) : Prop :=
  i.op = .store ∧ ∃ w id t, i.operands = [some w, some (.instr id t)] ∧ ∀ a l o n, fr.values[id]? = some a →
    Layouts.LaidOut m .host w.type l → l.size < 2 ^ 63 → fr.Slot m x o n →
      (a - stackBase).toNat + l.size ≤ o ∨ o + n ≤ (a - stackBase).toNat

theorem step_onward (he : c.Low m limits) (hfr : fr.Apart m c.memory.stack.top) (hk : fr.rest = k :: rest)
    (hi : m.instr? ⟨fr.block.fn, k⟩ = some i) (hx : m.instr? x = some j) (halloca : j.op = .alloca)
    (hop : i.op.onlyReads = true ∨ fr.StoresApart m x i) (hstep : (step m (fr :: callers)).run.run c = (.ok pr, d)) :
    ∃ fr', pr = .running (fr' :: callers) ∧ fr.Onward m x rest fr' c d := by
  have hstays : i.op.transfers = false ∧ i.op ≠ .alloca := by
    rcases hop with hop | ⟨hop, -⟩
    · exact ⟨Op.transfers_of_onlyReads hop, Op.ne_alloca_of_onlyReads hop⟩
    · rw [hop]
      exact ⟨rfl, nofun⟩
  obtain ⟨ops, v, c', hops, hv, rfl⟩ := step_computes hk hi hstays.1 hstep
  obtain ⟨hgrows, hlow⟩ := @operands_grow _ limits _ _ _ _ _ _ hops
  obtain ⟨-, -, -, hblock, -, hrest⟩ := Frame.advance_same (i := i) (v := v) hk
  refine ⟨_, rfl, hblock, hrest, ?_, fun {o n} hslot ↦ ?_⟩
  · rw [Frame.advance_values hk, if_neg]
    rintro ⟨-, rfl⟩
    cases hi.symm.trans hx
    exact hstays.2 halloca
  have hbelow := hfr.below hslot
  rw [← hgrows.slice hbelow]
  rcases hop with hop | ⟨hop, w, id, t, hoperands, hapart⟩
  · exact (compute_grows (hlow he) hop hv).slice (hbelow.trans hgrows.top)
  · have hhas := Frame.HasAll.of_run hops
    rw [hoperands] at hhas
    obtain _ | ⟨hw, _ | ⟨ha, hnil⟩⟩ := hhas
    cases hnil
    cases ha with
    | instr ha =>
      unfold compute at hv
      rw [hop] at hv
      obtain ⟨_, c'', hstore, hend⟩ := run_bind_inv hv
      cases hend
      obtain ⟨l, bs, hl, hsmall, hbs, hmemory⟩ := store_inv (hlow he) hstore
      rw [hmemory]
      have hfirst : i.firstType = w.type := by rw [Instr.firstType, hoperands]
      rw [hfirst] at hl
      refine Memory.slice_write (hlow he).stack ?_
      rcases hapart _ l o n ha hl hsmall hslot with h | h
      · exact .inl (by omega)
      · exact .inr h

theorem Frame.Onward.read? {a : UInt64} {l : Layout} (h : fr.Onward m x rest fr' c d) (hc : c.Low m limits)
    (hd : d.Low m limits) (hfr : fr.Apart m c.memory.stack.top) (hfr' : fr'.Apart m d.memory.stack.top)
    (ha : fr.values[x]? = some a) (hx : m.instr? x = some j) (halloca : j.op = .alloca) (hops : j.operands = [])
    (hl : Layouts.LaidOut m .host j.allocated l) : d.memory.read? a l.size = c.memory.read? a l.size := by
  by_cases hsmall : l.size < 2 ^ 63
  · have hslot : fr.Slot m x (a - stackBase).toNat l.size := ⟨j, a, l, hx, halloca, hops, ha, hl, rfl, hsmall, rfl⟩
    have hread : ∀ {e : Engine}, e.Low m limits → (a - stackBase).toNat + l.size ≤ e.memory.stack.top →
        e.memory.read? a l.size = some (slice e.memory.stack.bytes (a - stackBase).toNat l.size) := by
      intro e he hle
      have hbase : a = e.memory.stack.base + ((a - stackBase).toNat).toUInt64 := by
        rw [he.stack, Nat.toUInt64, UInt64.ofNat_toNat, UInt64.add_comm, UInt64.sub_add_cancel]
      have hlow := he.low
      have : stackBase.toNat = 1099511627776 := rfl
      conv_lhs => rw [hbase]
      refine Memory.read?_stack ?_ hle
      rw [he.stack]
      omega
    rw [hread hc (hfr.below hslot), hread hd (hfr'.below (hslot.of_values h.address)), h.held hslot]
  · have hnone : ∀ {e : Engine}, e.Low m limits → e.memory.read? a l.size = none := by
      intro e he
      cases hread : e.memory.read? a l.size with
      | none => rfl
      | some bs => exact absurd (he.mapped (Memory.maps_of_read? hread)) hsmall
    rw [hnone hc, hnone hd]

/-- The pattern `w` stands, in `d`, for the value of type `t` that was at `a` in `c`: a load of it gives `w`, or what
`w` is the address of is the same bytes. -/
def Engine.Holds (m : Module) (c : Engine) (t : Ty) (a w : UInt64) (d : Engine) : Prop :=
  if t.isStruct then ∀ l, Layouts.LaidOut m .host t l → d.memory.read? w l.size = c.memory.read? a l.size
  else ∀ trace, (load m trace a t).run.run c = (.ok w, c)

theorem readPattern_of_read? {trace trace' : List String} {n : Nat} {a w : UInt64}
    (hread : d.memory.read? a n = c.memory.read? a n)
    (h : (readPattern trace a n).run.run d = (.ok w, e)) : (readPattern trace' a n).run.run c = (.ok w, c) := by
  unfold readPattern at h ⊢
  obtain ⟨bs, d', hbs, hword⟩ := run_bind_inv h
  obtain ⟨rfl, hbs⟩ := readBytes_inv hbs
  have hagain : (readBytes trace' a n).run.run c = (.ok bs, c) := by
    unfold readBytes
    rw [run_bind_ok run_get, ← hread, hbs]
    rfl
  rw [run_bind_ok hagain]
  split at hword
  · cases hword
    rfl
  · cases hword

theorem load_holds {trace : List String} {t : Ty} {a w : UInt64} (hd : d.Low m limits)
    (hread : ∀ l, Layouts.LaidOut m .host t l → d.memory.read? a l.size = c.memory.read? a l.size)
    (h : (load m trace a t).run.run d = (.ok w, e)) : c.Holds m t a w e := by
  unfold Engine.Holds
  split
  · rename_i hstruct
    obtain ⟨-, l, hl, hcopy⟩ := load_struct hd hstruct h
    intro l' hl'
    rw [← hl.unique hl', hcopy, hread l hl]
  · rename_i hscalar
    intro trace'
    unfold load at h ⊢
    cases t with
    | int bits =>
      obtain ⟨p, d', hp, hend⟩ := run_bind_inv h
      cases hend
      have hsame := hread (.scalar (byteWidth bits)) ⟨1, rfl⟩
      rw [Layout.size_scalar] at hsame
      dsimp only
      rw [run_bind_ok (readPattern_of_read? hsame hp)]
      rfl
    | float => exact readPattern_of_read? (hread _ ⟨1, rfl⟩) h
    | double => exact readPattern_of_read? (hread _ ⟨1, rfl⟩) h
    | pointer => exact readPattern_of_read? (hread _ ⟨1, rfl⟩) h
    | struct => exact absurd rfl hscalar
    | _ => cases h

theorem step_holds {a : UInt64} {t : Ty} (hd : d.Low m limits) (hk : fr.rest = k :: rest)
    (hi : m.instr? ⟨fr.block.fn, k⟩ = some i) (hop : i.op = .load) (hops : i.operands = [some (.instr x t)])
    (ha : fr.values[x]? = some a)
    (hread : ∀ l, Layouts.LaidOut m .host i.type l → d.memory.read? a l.size = c.memory.read? a l.size)
    (hstep : (step m (fr :: callers)).run.run d = (.ok pr, e)) : ∃ w, pr = .running (fr.advance i w :: callers) ∧
      (fr.advance i w).values[(⟨fr.block.fn, k⟩ : InstrId)]? = some w ∧ c.Holds m i.type a w e := by
  obtain ⟨ops, w, d', hoperands, hv, rfl⟩ := step_computes hk hi (by rw [hop]; rfl) hstep
  have hhas : fr.HasAll d i.operands [a] := by
    rw [hops]
    exact .cons (.instr ha) .nil
  cases hhas.run.symm.trans hoperands
  unfold compute at hv
  rw [hop] at hv
  have hvalue : i.hasValue = true := by
    unfold Instr.hasValue
    cases ht : i.type with
    | void | untyped =>
      rw [ht] at hv
      cases hv
    | _ => rfl
  exact ⟨w, rfl, by rw [Frame.advance_values hk, if_pos ⟨hvalue, rfl⟩], load_holds hd hread hv⟩

end

end CilSsa.Machine

