import CilSsa.Proofs.StepRuns

/-! A variable is a slot with one cell, which has what its type keeps of a value. Where it is made again the old one
is given up, which nothing points to. -/

namespace CilSsa.FlowMachine

open CilSsa.Ssa CilSsa.Machine CilSsa.Text
open CilSsa.Number hiding Datum
open CilSsa.SlotMachine (Datum Slot Store Holds withStack)

section bytes

theorem getElem?_littleEndian (k n i : Nat) :
    (littleEndian k n)[i]? = if i < k then some (n / 256 ^ i).toUInt8 else none := by
  induction k generalizing n i with
  | zero => rfl
  | succ k ih =>
    rw [littleEndian]
    cases i with
    | zero => simp
    | succ i => simp [ih, Nat.pow_succ', Nat.div_div_eq_div_mul]

theorem littleEndian_take {j k : Nat} (h : j ≤ k) (n : Nat) : (littleEndian k n).take j = littleEndian j n := by
  apply List.ext_getElem?
  intro i
  rw [List.getElem?_take, getElem?_littleEndian, getElem?_littleEndian]
  split
  · rw [if_pos (by omega)]
  · rfl

theorem byte_eq_zero (x : UInt64) {i : Nat} (h : 8 ≤ i) : (x.toNat / 256 ^ i).toUInt8 = 0 := by
  have hlt : x.toNat < 256 ^ i := by
    have : (256 : Nat) ^ 8 ≤ 256 ^ i := Nat.pow_le_pow_right (by decide) h
    have := x.toNat_lt
    omega
  rw [Nat.div_eq_of_lt hlt]
  rfl

theorem readWord?_littleEndian {w : Nat} (hw : w = 1 ∨ w = 2 ∨ w = 4 ∨ 8 ≤ w) (x : UInt64) :
    readWord? (littleEndian w x.toNat) =
      some (if w < 8 then (ofLittleEndian (littleEndian w x.toNat)).toUInt64 else x) := by
  unfold readWord?
  rw [littleEndian_length]
  obtain rfl | rfl | rfl | hw := hw
  · rfl
  · rfl
  · rfl
  · have hne : w ≠ 1 ∧ w ≠ 2 ∧ w ≠ 4 := by omega
    split
    · omega
    · omega
    · omega
    · rw [if_neg (by omega), if_neg (by omega), littleEndian_take hw, ofLittleEndian_word]

theorem wordBytes?_eq {w : Nat} (hw : w = 1 ∨ w = 2 ∨ w = 4 ∨ 8 ≤ w) (x : UInt64) :
    wordBytes? w x = some (littleEndian (min w 8) x.toNat) := by
  unfold wordBytes?
  obtain rfl | rfl | rfl | hw := hw
  · rfl
  · rfl
  · rfl
  · split
    · omega
    · omega
    · omega
    · rw [if_neg (by omega), min_eq_right hw]

theorem Holds.put {bytes : Bytes} {base : Nat → Nat} {start w : Nat} {d d' : Datum}
    (h : Holds bytes base start ⟨w, [d]⟩) (hd : Kept w (d'.bits base)) :
    Holds (splice bytes start (littleEndian (min w 8) (d'.bits base).toNat)) base start ⟨w, [d']⟩ := by
  have hroom : start + w ≤ bytes.length := by simpa [Slot.bytes] using h.room
  have hin : start + (littleEndian (min w 8) (d'.bits base).toNat).length ≤ bytes.length := by
    rw [littleEndian_length]
    omega
  have hold : slice bytes start w = littleEndian w (d.bits base).toNat := by simpa using h.cell 0 d rfl
  refine ⟨?_, ?_, ?_⟩
  · rw [length_splice hin]
    simpa [Slot.bytes] using hroom
  · intro j d'' hj
    obtain ⟨rfl, rfl⟩ : j = 0 ∧ d' = d'' := by
      cases j with
      | zero => exact ⟨rfl, by simpa using hj⟩
      | succ j => simp at hj
    simp only [Nat.mul_zero, Nat.add_zero]
    apply List.ext_getElem?
    intro i
    rw [getElem?_slice, getElem?_splice hin, littleEndian_length, getElem?_littleEndian, getElem?_littleEndian]
    by_cases hi : i < w
    · rw [if_pos hi, if_neg (by omega)]
      by_cases h8 : i < 8
      · rw [if_pos (by omega), if_pos (by omega), if_pos hi, Nat.add_sub_cancel_left]
      · have hrest := congrArg (·[i]?) hold
        simp only [getElem?_slice, getElem?_littleEndian, if_pos hi] at hrest
        rw [if_neg (by omega), if_pos hi, hrest, byte_eq_zero _ (by omega), byte_eq_zero _ (by omega)]
    · rw [if_neg hi, if_neg hi]
  · intro d'' hd''
    rw [List.mem_singleton.mp hd'']
    exact hd

end bytes

def kept (t : Ty) (d : Datum) : Datum :=
  match t, d with
  | .int n, .word v => .word (if n = 32 then v else zeroExtend v n)
  | _, d => d

section access

variable {m : Module} {trace : List String} {e : Engine} {base : Nat → Nat} {t : Ty} {l : Layout} {d : Datum} {o : Nat}

theorem accessible_cases (h : accessible t = true) : (∃ n, t = .int n ∧ (byteWidth n = 1 ∨ byteWidth n = 2 ∨
    byteWidth n = 4 ∨ 8 ≤ byteWidth n)) ∨ ∃ t', t = .pointer t' := by
  cases t with
  | int n => exact .inl ⟨n, rfl, by simpa [accessible] using h⟩
  | pointer t' => exact .inr ⟨t', rfl⟩
  | _ => cases h

theorem accessible_layout (h : accessible t = true) : ∃ l, scalarLayout? t = some l := by
  obtain ⟨n, rfl, -⟩ | ⟨t', rfl⟩ := accessible_cases h <;> exact ⟨_, rfl⟩

theorem size_int {n : Nat} (hw : byteWidth n = 1 ∨ byteWidth n = 2 ∨ byteWidth n = 4 ∨ 8 ≤ byteWidth n)
    (hl : scalarLayout? (.int n) = some l) : l.size = byteWidth n := by
  cases hl
  unfold byteWidth at hw ⊢
  rw [Layout.scalar, if_neg (by omega)]

theorem kept_bits {n : Nat} (hd : suits d (.int n) = true) :
    (kept (.int n) d).bits base = if n = 32 then d.bits base else zeroExtend (d.bits base) n := by
  cases d with
  | word v => 
    simp only [kept, Datum.bits]
  | place s o =>
    obtain rfl : n = 64 := by simpa [suits] using hd
    rfl

theorem bits_suits {n : Nat} (hd : suits d (.int n) = true) : signExtend (d.bits base) n = d.bits base := by
  cases d with
  | word v =>
    rw [Datum.bits]
    simpa [suits] using hd
  | place s o =>
    obtain rfl : n = 64 := by simpa [suits] using hd
    rfl

theorem kept_Kept (hl : scalarLayout? t = some l) (hacc : accessible t = true) (hd : suits d t = true) :
    Kept l.size ((kept t d).bits base) := by
  obtain ⟨n, rfl, hw⟩ | ⟨t', rfl⟩ := accessible_cases hacc
  · intro h4
    have hwidth : byteWidth n = 4 := (size_int hw hl).symm.trans h4
    unfold byteWidth at hwidth
    rw [kept_bits hd]
    by_cases hn : n = 32
    · rw [if_pos hn, ← hn]
      exact bits_suits hd
    · rw [if_neg hn, ← UInt64.toBitVec_inj, toBitVec_signExtend_of_lt _ (by omega) (by omega),
        toBitVec_zeroExtend_of_lt _ (by omega) (by omega)]
      ext i hi
      have hlt : n < 32 := by omega
      by_cases hin : i < n
      · simp [BitVec.getElem_signExtend, show i < 32 by omega, hin]
      · simp [BitVec.getElem_signExtend, hin, BitVec.msb_eq_getLsbD_last, show ¬ 31 < n by omega]
  · cases hl
    intro h4
    cases h4

section

variable (hm : e.memory.stack.base.toNat + e.memory.stack.top < 2 ^ 64) (hl : scalarLayout? t = some l)
  (hacc : accessible t = true) (hd : suits d t = true) (h : o + l.size ≤ e.memory.stack.top)

include hm hl hacc hd h

theorem load_kept (hv : slice e.memory.stack.bytes o l.size = littleEndian l.size ((kept t d).bits base).toNat) :
    (load m trace (e.memory.stack.base + o.toUInt64) t).run.run e = (.ok (d.bits base), e) := by
  have hbytes := readBytes_run trace hm h
  obtain ⟨n, rfl, hw⟩ | ⟨t', rfl⟩ := accessible_cases hacc
  · have hsize := size_int hw hl
    rw [hv, hsize] at hbytes
    have hread : (readPattern trace (e.memory.stack.base + o.toUInt64) (byteWidth n)).run.run e =
        (.ok (if byteWidth n <
        8 then (ofLittleEndian (littleEndian (byteWidth n) ((kept (.int n) d).bits base).toNat)).toUInt64
          else (kept (.int n) d).bits base), e) := by
      unfold readPattern
      rw [run_bind_ok hbytes, readWord?_littleEndian hw]
      rfl
    have hback : signExtend (if byteWidth n < 8 then
        (ofLittleEndian (littleEndian (byteWidth n) ((kept (.int n) d).bits base).toNat)).toUInt64
          else (kept (.int n) d).bits base) n = d.bits base := by
      rw [kept_bits hd]
      have hb : byteWidth n = (n + 7) / 8 := rfl
      by_cases hn : n = 32
      · subst hn
        rw [if_pos (by decide), if_pos rfl]
        exact (signExtend_ofLittleEndian _).trans (bits_suits hd)
      · rw [if_neg hn]
        split
        · rw [signExtend_bytes _ (by omega) (by omega), bits_suits hd]
        · rw [signExtend_zeroExtend, bits_suits hd]
    unfold load
    change (do return signExtend (← readPattern trace (e.memory.stack.base + o.toUInt64) (byteWidth n)) n :
      Run UInt64).run.run e = _
    rw [run_bind_ok hread, hback]
    rfl
  · cases hl
    rw [hv] at hbytes
    unfold load readPattern
    dsimp only
    rw [run_bind_ok hbytes, readWord?_littleEndian (.inr (.inr (.inr le_rfl))), if_neg (by decide)]
    rfl

theorem store_kept : (store m trace (e.memory.stack.base + o.toUInt64) t (d.bits base)).run.run e =
    (.ok (), withStack e (e.memory.stack.write o (littleEndian (min l.size 8) ((kept t d).bits base).toNat))) := by
  have hneed := needBytes_run trace hm h
  have hlen : o + (littleEndian (min l.size 8) ((kept t d).bits base).toNat).length ≤ e.memory.stack.top := by
    rw [littleEndian_length]
    omega
  have hwrite := writeBytes_run trace hm _ hlen
  obtain ⟨n, rfl, hw⟩ | ⟨t', rfl⟩ := accessible_cases hacc
  · have hsize := size_int hw hl
    have hbytes : wordBytes? l.size (zeroExtend (d.bits base) n) =
        some (littleEndian (min l.size 8) ((kept (.int n) d).bits base).toNat) := by
      rw [wordBytes?_eq (hsize ▸ hw), kept_bits hd]
      split
      · rename_i hn
        subst hn
        rw [hsize]
        exact congrArg some (littleEndian_zeroExtend _)
      · rfl
    unfold store
    change (writePattern trace (e.memory.stack.base + o.toUInt64) (byteWidth n) (zeroExtend (d.bits base) n)).run.run
      e = _
    unfold writePattern
    rw [← hsize, run_bind_ok hneed, hbytes]
    exact hwrite
  · cases hl
    unfold store writePattern
    dsimp only
    rw [run_bind_ok hneed, wordBytes?_eq (.inr (.inr (.inr le_rfl)))]
    exact hwrite

end

end access

end CilSsa.FlowMachine

namespace CilSsa.FlowMachine

open CilSsa.Ssa CilSsa.Passes CilSsa.Machine CilSsa.Text
open CilSsa.Number hiding Datum
open CilSsa.SlotMachine (Datum Slot Store Leaves Backed Framed Fetches Arrives Kin Idle entryFrame withStack)

def slotType (F : Function) (s : Nat) : Ty := ((F.instr? s).map (·.allocated)).getD .untyped

def slotSize (F : Function) (s : Nat) : Nat := ((scalarLayout? (slotType F s)).map (·.size)).getD 0

def valued (F : Function) (k : Nat) : Bool := ((F.instr? k).map Instr.hasValue).getD false

def State.whole (F : Function) (plain : Nat → Bool) (σ : State) : Store where
  values k := if plain k then (σ.vars k).map fun _ ↦ .place k 0 else if valued F k then σ.values k else none
  slots s := if plain s then (σ.vars s).map fun d ↦ ⟨slotSize F s, [kept (slotType F s) d]⟩ else σ.slots s
  height := σ.height

section stores

variable {m : Module} {F : Function} {plain : Nat → Bool} {args : List UInt64} {base : Nat → Nat}
  {μ μ' : Store} {fr : Frame} {e : Engine} {σ : State} {j k s : Nat} {i : Instr} {d : Datum} {ts : List Ty}
  {ds : List Datum} {fill : FuncId}

theorem whole_define (hk : plain k = false) (hi : F.instr? k = some i) (hv : i.hasValue = true)
    (σ : State) (d : Datum) : (σ.define k d).whole F plain = (σ.whole F plain).define k d := by
  have hvalued : valued F k = true := by simp [valued, hi, hv]
  have hvalues : ((σ.define k d).whole F plain).values = ((σ.whole F plain).define k d).values := by
    funext j
    simp only [State.whole, State.define, Store.define]
    by_cases hj : j = k
    · simp [hj, hk, hvalued]
    · simp [hj]
  exact congrArg (fun values ↦ { σ.whole F plain with values }) hvalues

theorem whole_define_void (hi : F.instr? k = some i) (hv : i.hasValue = false) (σ : State) (d : Datum) :
    (σ.define k d).whole F plain = σ.whole F plain := by
  have hvalued : valued F k = false := by simp [valued, hi, hv]
  have hvalues : ((σ.define k d).whole F plain).values = (σ.whole F plain).values := by
    funext j
    simp only [State.whole, State.define]
    by_cases hj : j = k
    · simp [hj, hvalued]
    · simp [hj]
  exact congrArg (fun values ↦ { σ.whole F plain with values }) hvalues

theorem whole_setVar (hs : plain s = true) (hv : (σ.vars s).isSome = true) (d : Datum) :
    (σ.setVar s d).whole F plain = (σ.whole F plain).setSlot s ⟨slotSize F s, [kept (slotType F s) d]⟩ := by
  obtain ⟨d', hd'⟩ := Option.isSome_iff_exists.mp hv
  have hvalues : ((σ.setVar s d).whole F plain).values = (σ.whole F plain).values := by
    funext j
    simp only [State.whole, State.setVar]
    by_cases hj : j = s
    · simp [hj, hd']
    · simp [hj]
  have hslots : ((σ.setVar s d).whole F plain).slots =
      ((σ.whole F plain).setSlot s ⟨slotSize F s, [kept (slotType F s) d]⟩).slots := by
    funext j
    simp only [State.whole, State.setVar, Store.setSlot]
    by_cases hj : j = s
    · simp [hj, hs]
    · simp [hj]
  exact congr (congrArg (fun values slots ↦ ({ values, slots, height := σ.height } : Store)) hvalues) hslots

theorem kept_zero (t : Ty) : kept t (.word 0) = .word 0 := by
  have hzero : ∀ n, zeroExtend 0 n = 0 := by
    intro n
    unfold zeroExtend
    split
    · rfl
    · exact UInt64.zero_and
  unfold kept
  split
  · rename_i heq
    cases heq
    simp [hzero]
  · rfl

theorem whole_allocate (hs : plain k = true) {l : Layout} (hl : scalarLayout? (slotType F k) = some l) (σ : State) :
    (σ.allocate k l).whole F plain =
      ((σ.whole F plain).without k).allocate k ⟨l.size, List.replicate 1 (.word 0)⟩ l.align := by
  have hsize : slotSize F k = l.size := by simp [slotSize, hl]
  have hvalues : ((σ.allocate k l).whole F plain).values =
      (((σ.whole F plain).without k).allocate k ⟨l.size, List.replicate 1 (.word 0)⟩ l.align).values := by
    funext j
    simp only [State.whole, State.allocate, State.setVar, Store.allocate, Store.define, Store.setSlot, Store.without]
    by_cases hj : j = k
    · simp [hj, hs]
    · simp [hj]
  have hslots : ((σ.allocate k l).whole F plain).slots =
      (((σ.whole F plain).without k).allocate k ⟨l.size, List.replicate 1 (.word 0)⟩ l.align).slots := by
    funext j
    simp only [State.whole, State.allocate, State.setVar, Store.allocate, Store.define, Store.setSlot, Store.without]
    by_cases hj : j = k
    · simp [hj, hs, hsize, kept_zero]
    · simp [hj]
  have hheight : ((σ.allocate k l).whole F plain).height =
      (((σ.whole F plain).without k).allocate k ⟨l.size, List.replicate 1 (.word 0)⟩ l.align).height := by
    simp [State.whole, State.allocate, Store.allocate, Store.without, Slot.bytes]
  cases h1 : (σ.allocate k l).whole F plain
  cases h2 : ((σ.whole F plain).without k).allocate k ⟨l.size, List.replicate 1 (.word 0)⟩ l.align
  rw [h1, h2] at hvalues hslots hheight
  simp only at hvalues hslots hheight
  rw [hvalues, hslots, hheight]

theorem act_whole (hk : plain k = false) (hi : F.instr? k = some i)
    (hmem : i.op = .alloca ∨ i.op = .load ∨ i.op = .store ∨ i.op = .call)
    (hds : ∀ s o, .place s o ∈ ds → plain s = false) (h : SlotMachine.Act fill i k σ.toStore ts ds μ) :
    SlotMachine.Act fill i k (σ.whole F plain) ts ds (State.whole F plain { μ with vars := σ.vars }) := by
  have hnone : σ.values k = none → (σ.whole F plain).values k = none := by
    intro h
    simp [State.whole, hk, h]
  have hslot : ∀ s, plain s = false → (σ.whole F plain).slots s = σ.slots s := by
    intro s hs
    simp [State.whole, hs]
  have hcell : ∀ s o w, plain s = false → (σ.whole F plain).cell? s o w = σ.cell? s o w := by
    intro s o w hs
    simp only [Store.cell?, hslot s hs]
  have hset : ∀ s sl, plain s = false → State.whole F plain { σ.toStore.setSlot s sl with vars := σ.vars } =
      (σ.whole F plain).setSlot s sl := by
    intro s sl hs
    have hslots : (State.whole F plain { σ.toStore.setSlot s sl with vars := σ.vars }).slots =
        ((σ.whole F plain).setSlot s sl).slots := by
      funext j
      simp only [State.whole, Store.setSlot]
      by_cases hj : j = s
      · simp [hj, hs]
      · simp [hj]
    exact congrArg (fun slots ↦ { σ.whole F plain with slots }) hslots
  have hdef : ∀ d, i.hasValue = true → State.whole F plain { σ.toStore.define k d with vars := σ.vars } =
      (σ.whole F plain).define k d := fun d hv ↦ whole_define hk hi hv σ d
  have halloc : ∀ sl align, i.hasValue = true →
    State.whole F plain { σ.toStore.allocate k sl align with vars := σ.vars } =
      (σ.whole F plain).allocate k sl align := by
    intro sl align hv
    have hmade : State.whole F plain { (σ.toStore.setSlot k sl).define k (.place k 0) with vars := σ.vars } =
        ((σ.whole F plain).setSlot k sl).define k (.place k 0) := by
      rw [← hset k sl hk]
      exact whole_define hk hi hv { σ.toStore.setSlot k sl with vars := σ.vars } (.place k 0)
    exact congrArg (fun μ : Store ↦ { μ with height := Machine.Region.alignUp σ.height align + sl.bytes }) hmade
  cases h with
  | slot h1 h2 h3 h4 h5 h6 =>
    rw [halloc _ _ (by simp [Instr.hasValue, h2, Ty.hasValue])]
    exact .slot h1 h2 h3 h4 ((hslot k hk).trans h5) (hnone h6)
  | buffer h1 h2 h3 h4 h5 h6 h7 =>
    rw [halloc _ _ (by simp [Instr.hasValue, h2, Ty.hasValue])]
    exact .buffer h1 h2 h3 h4 h5 ((hslot k hk).trans h6) (hnone h7)
  | load h1 h2 h3 h4 =>
    have hv : i.hasValue = true := by
      unfold Instr.hasValue
      obtain ⟨h, -⟩ | ⟨⟨t', h⟩, -⟩ := width?_cases h2 <;> rw [h] <;> rfl
    rw [hdef _ hv]
    exact .load h1 h2 ((hcell _ _ _ (hds _ _ List.mem_cons_self)).trans h3) (hnone h4)
  | store h1 h2 h3 h4 =>
    have hs := hds _ _ (List.mem_cons_of_mem _ List.mem_cons_self)
    rw [hset _ _ hs]
    exact .store h1 h2 h3 ((hcell _ _ _ hs).trans h4)
  | clear h1 h2 h3 h4 h5 h6 =>
    have hs := hds _ _ List.mem_cons_self
    rw [hset _ _ hs]
    exact .clear h1 h2 h3 ((hslot _ hs).trans h4) h5 h6
  | pure hc => rcases hmem with h | h | h | h <;> simp [h, SlotMachine.computed] at hc

end stores

section operands

variable {m : Module} {dom : DomTree} {F : Function} {plain : Nat → Bool} {args : List UInt64}
  {base : Nat → Nat} {μ : Store} {fr : Frame} {e : Engine} {σ : State} {b k s : Nat} {i : Instr} {d : Datum} {v : Value}
  {vs : List Value} {ts : List Ty}
  {ds : List Datum} {trace : List String}

theorem known_word (w : UInt64) : Datum.Known μ (.word w) := by
  rintro s o ⟨⟩

def Found (base : Nat → Nat) (μ : Store) (fr : Frame) (v : Value) (d : Datum) : Prop :=
  (∀ (m : Module) (trace : List String) (e : Engine), (operand m trace fr (some v)).run.run e =
  (.ok (d.bits base), e)) ∧
    d.Known μ ∧ suits d v.type = true

theorem fetches_of_found (hi : F.instr? k = some i) (ho : i.operands = vs.map some)
    (h : List.Forall₂ (Found base μ fr) vs ds) : Fetches F base μ fr k i (vs.map Value.type) ds := by
  refine ⟨hi, by rw [ho, List.map_map]; rfl, fun m trace e ↦ ?_, ?_, ?_⟩
  · rw [ho]
    clear ho
    induction h with
    | nil => rfl
    | cons hd _ ih =>
      rw [List.map_cons, List.mapM_cons, run_bind_ok (hd.1 m trace e), run_bind_ok ih]
      rfl
  · clear ho
    induction h with
    | nil => exact nofun
    | cons hd _ ih =>
      intro d hmem
      rcases List.mem_cons.mp hmem with rfl | hmem
      · exact hd.2.1
      · exact ih d hmem
  · intro t w ht hw d hd
    cases h with
    | nil => cases hd
    | @cons v d' _ _ hv _ =>
      obtain rfl : v.type = t := by simpa using ht
      obtain rfl : d' = d := by simpa using hd
      have hsuits := hv.2.2
      intro h4
      obtain ⟨hint, -⟩ | ⟨-, rfl⟩ := width?_cases hw
      · rw [hint] at hsuits
        exact bits_suits hsuits
      · cases h4

variable (hv : m.Valid dom F) (hl : F.Lists b k i) (hfr : Framed F args base (σ.whole F plain) fr)

include hv hl hfr

theorem found_of_datum (ho : some v ∈ i.operands) (hd : datum F.id plain args σ v = some d) :
    Found base (σ.whole F plain) fr v d := by
  obtain ⟨w, hw, htakes⟩ := hv.takes hl ho
  obtain rfl := Option.some.inj hw
  have hoffers := hv.offers hl ho
  have hsuits := datum_suits hd
  obtain ⟨hdatum, -⟩ := Option.filter_eq_some_iff.mp hd
  clear hd
  cases v with
  | instr id t =>
    dsimp only at hdatum
    split at hdatum
    · rename_i hfn
      obtain ⟨fn, j⟩ := id
      obtain ⟨rfl, hj⟩ := hfn
      dsimp only at hdatum hj
      obtain ⟨-, x, hx, rfl⟩ := hoffers
      have hvalued : valued F j = true := by simp [valued, hx, Instr.hasValue, htakes.value _ _ rfl]
      have hval : (σ.whole F plain).values j = some d := by simp [State.whole, hj, hvalued, hdatum]
      obtain ⟨hfound, hk⟩ := hfr.values j d hval
      refine ⟨fun m trace e ↦ ?_, hk, hsuits⟩
      simp only [operand, hfound]
      rfl
    · cases hdatum
  | param fn j t =>
    obtain ⟨p, hp, rfl⟩ := Option.map_eq_some_iff.mp hdatum
    refine ⟨fun m trace e ↦ ?_, known_word _, hsuits⟩
    simp only [operand, hfr.args, hp]
    rfl
  | func f t => cases hdatum
  | const c o =>
    obtain rfl := Option.some.inj hdatum
    exact ⟨fun m trace e ↦ rfl, known_word _, hsuits⟩

theorem Reads.found (hr : Reads F plain args σ i vs ds) : List.Forall₂ (Found base (σ.whole F plain) fr) vs ds := by
  have hmem := (List.forall₂_and_left vs ds).mpr ⟨fun v (hv : v ∈ vs) ↦ hv, hr.data⟩
  exact hmem.imp fun v d hvd ↦ found_of_datum hv hl hfr (by rw [hr.operands]; exact List.mem_map_of_mem hvd.1) hvd.2

omit hv hl in
theorem found_plain {t : Ty} (hs : plain s = true) (hvar : σ.vars s = some d) :
    Found base (σ.whole F plain) fr (.instr ⟨F.id, s⟩ (.pointer t)) (.place s 0) := by
  have hval : (σ.whole F plain).values s = some (.place s 0) := by simp [State.whole, hs, hvar]
  obtain ⟨hfound, hk⟩ := hfr.values s _ hval
  refine ⟨fun m trace e ↦ ?_, hk, rfl⟩
  simp only [operand, hfound]
  rfl

end operands

section computing

variable {m : Module} {base : Nat → Nat} {e : Engine} {i : Instr} {d : Datum} {ts : List Ty} {ds : List Datum}
  {trace : List String} {μ : Store}

theorem compute_computed (h : computed i ts ds = some d) (hts : i.operands.map SlotMachine.operandType = ts) :
    (compute m trace i (ds.map (Datum.bits base))).run.run e = (.ok (d.bits base), e) := by
  have hfirst := fun {t ts'} (heq : ts = t :: ts') ↦ SlotMachine.firstType_eq (hts.trans heq)
  cases computed_inv h with
  | add hop ht hs =>
    simp only [compute, hop, List.map_cons, List.map_nil, Op.isBinary, if_true, evalBinary,
      ht, ← SlotMachine.sum_bits hs]
    rfl
  | sub hop ht | mul hop ht =>
    simp only [compute, hop, List.map_cons, List.map_nil, Op.isBinary, if_true, evalBinary, ht, Datum.bits]
    rfl
  | icmp hop ht hp =>
    simp only [compute, hop, List.map_cons, List.map_nil, Datum.bits, hfirst rfl]
    rfl
  | select hop =>
    simp only [compute, hop, List.map_cons, List.map_nil, Datum.bits]
    split <;> rfl
  | cut hop ht =>
    rcases hop with hop | hop <;>
    · simp only [compute, hop, List.map_cons, List.map_nil, Op.isBinary, Op.isCast, evalCast, ht, Datum.bits]
      rfl
  | zext hop ht =>
    simp only [compute, hop, List.map_cons, List.map_nil, Op.isBinary, Op.isCast, evalCast, ht, hfirst rfl, Datum.bits]
    rfl
  | address hop =>
    rcases hop with ⟨hop, -, ht⟩ | ⟨hop, rfl, -⟩ | ⟨hop, -⟩
    · simp only [compute, hop, List.map_cons, List.map_nil, Op.isBinary, Op.isCast, evalCast, ht]
      rfl
    · simp only [compute, hop, List.map_cons, List.map_nil, Op.isBinary, Op.isCast, evalCast, hfirst rfl]
      rfl
    · simp only [compute, hop, List.map_cons, List.map_nil, Op.isBinary, Op.isCast, evalCast]
      rfl

theorem known_of_computed (h : computed i ts ds = some d) (hds : ∀ d ∈ ds, d.Known μ) : d.Known μ := by
  rintro s o rfl
  obtain ⟨o', ho'⟩ := computed_place h
  exact hds _ ho' s o' rfl

end computing

end CilSsa.FlowMachine

/-!
The machine follows runs with variables. Each step of such a run is a step of the machine, which keeps the variables in
memory, as long as its stack has the room.
-/

namespace CilSsa.FlowMachine

open CilSsa.Ssa CilSsa.Passes CilSsa.Machine CilSsa.Text
open CilSsa.Number hiding Datum
open CilSsa.SlotMachine (Datum Slot Store Leaves Backed Framed Fetches Arrives Overflows Kin Idle entryFrame withStack)

variable {m : Module} {dom : DomTree} {F : Function} {plain : Nat → Bool} {fill : FuncId} {args : List UInt64}
  {base : Nat → Nat} {fr : Frame} {e : Engine} {b k s n h : Nat} {i : Instr} {pre rest ks : List Nat} {σ σ' : State}
  {d : Datum} {v : Value} {t : Ty}

/-- What is in a variable suits it, and nothing but the instruction that makes a variable gives its address. -/
structure Proper (F : Function) (plain : Nat → Bool) (σ : State) : Prop where
  hidden : Hidden (plain · = true) σ
  suits : ∀ s d, plain s = true → σ.vars s = some d → FlowMachine.suits d (slotType F s) = true

theorem Proper.start (F : Function) (plain : Nat → Bool) : Proper F plain {} := by
  refine ⟨.start _, ?_⟩
  rintro s d - ⟨⟩

theorem suits_zero (t : Ty) : suits (.word 0) t = true := by
  cases t with
  | int n => simp [suits, signExtend_zero]
  | _ => rfl

section address

variable (hv : m.Valid dom F) (hd : DomTree.Sound m F dom) (hplain : ∀ s, plain s = true → Variable dom F s)

include hv hd hplain

theorem At.address_type (hat : At dom F b pre k i) (hs : plain s = true)
    (ho : some (.instr ⟨F.id, s⟩ t) ∈ i.operands) : t = .pointer (slotType F s) := by
  obtain ⟨-, x, hx, rfl⟩ := hv.offers hat.lists ho
  have hsees := hv.sees hat.lists hat.live ho
  obtain ⟨c, y, hl⟩ := hv.lists_of_sees hsees
  cases hl.found.symm.trans hx
  obtain ⟨hop, -⟩ := (hplain s hs).single hl (reachable_of_sees hv hd hl hat.live hsees)
  rw [(hv.alloca_type hl hop).1, slotType, hx]
  rfl

theorem Proper.act (hσ : Proper F plain σ) (hat : At dom F b pre k i) (hact : Act F plain fill args σ k i σ') :
    Proper F plain σ' := by
  refine ⟨hσ.hidden.act (fun id t _ hid ↦ by simp [datum, hid]) hact, ?_⟩
  intro q dq hq hvar
  cases hact with
  | get | compute | memory => exact hσ.suits q dq hq hvar
  | var =>
    simp only [State.allocate, State.setVar] at hvar
    split at hvar
    · cases hvar
      exact suits_zero _
    · exact hσ.suits q dq hq hvar
  | @put s t v d d' hop ho hs hacc hd' hdv =>
    simp only [State.setVar] at hvar
    split at hvar
    · rename_i heq
      subst heq
      cases hvar
      obtain ⟨v', p, ho', hp⟩ := (hv.ruled hat.lists).store_operands hop
      have ht := hat.address_type hv hd hplain hs (by rw [ho]; exact List.mem_cons_of_mem _ List.mem_cons_self)
      rw [ho, List.cons.injEq, List.cons.injEq, Option.some.injEq, Option.some.injEq] at ho'
      obtain ⟨rfl, rfl, -⟩ := ho'
      have hsuits := datum_suits hdv
      rw [Value.type, ht, Ty.pointer.injEq] at hp
      rwa [hp]
    · exact hσ.suits q dq hq hvar

end address

theorem computed_isPure {ts : List Ty} {ds : List Datum} (h : computed i ts ds = some d) : i.op.isPure = true := by
  cases computed_inv h with
  | add hop | sub hop | mul hop | icmp hop | select hop | zext hop => rw [hop]; rfl
  | cut hop => rcases hop with hop | hop <;> rw [hop] <;> rfl
  | address hop => rcases hop with ⟨hop, -⟩ | ⟨hop, -⟩ | ⟨hop, -⟩ <;> rw [hop] <;> rfl

theorem known_of_kept {μ : Store} (h : (kept t d).Known μ) : d.Known μ := by
  cases d with
  | word w => exact known_word w
  | place s o =>
    unfold kept at h
    split at h
    · rename_i heq
      cases heq
    · exact h

theorem kept_place {s : Nat} {o : UInt64} (h : kept t d = .place s o) : d = .place s o := by
  unfold kept at h
  split at h
  · cases h
  · exact h

theorem whole_slot (hs : plain s = true) (hvar : σ.vars s = some d) (ht : slotType F s = t) {l : Layout}
    (hl : scalarLayout? t = some l) : (σ.whole F plain).slots s = some ⟨l.size, [kept t d]⟩ := by
  subst ht
  simp [State.whole, hs, hvar, slotSize, hl]

theorem place_start {μ : Store} (hB : Backed base μ e) (s : Nat) :
    (Datum.place s 0).bits base = e.memory.stack.base + (base s).toUInt64 := by
  rw [Datum.bits, UInt64.add_zero, hB.bottom]

section step

variable (hF : m.function? F.id = some F) (hv : m.Valid dom F) (hd : DomTree.Sound m F dom)
  (hplain : ∀ s, plain s = true → Variable dom F s) (hat : At dom F b pre k i) (hσ : Proper F plain σ)
  (hB : Backed base (σ.whole F plain) e) (hfr : Framed F args base (σ.whole F plain) fr) (hrest : fr.rest = k :: rest)

include hF hv hat hB hfr hrest

include hσ in
theorem step_var (hk : plain k = true) (hop : i.op = .alloca) (ho : i.operands = []) {l : Layout}
    (hl : scalarLayout? i.allocated = some l) (hsmall : (σ.allocate k l).height < 2 ^ 63) :
    ((σ.allocate k l).height ≤ e.limits.stackSize →
      ∃ base' fr' e', Arrives m F args fr e rest ((σ.allocate k l).whole F plain) base' fr' e') ∧
    (e.limits.stackSize < (σ.allocate k l).height → Overflows m fr e) := by
  have hslot : slotType F k = i.allocated := by
    rw [slotType, hat.found]
    rfl
  have hB' : Backed base ((σ.whole F plain).without k) e := by
    refine hB.without fun j sl o hj _ hmem ↦ ?_
    simp only [State.whole] at hj
    split at hj
    · obtain ⟨d, hd, rfl⟩ := Option.map_eq_some_iff.mp hj
      exact hσ.hidden.vars j k o hk (kept_place (List.mem_singleton.mp hmem).symm ▸ hd)
    · exact hσ.hidden.slots j sl k o hk hj hmem
  have hfr' : Framed F args base ((σ.whole F plain).without k) fr := by
    refine hfr.without fun j o hj hval ↦ ?_
    simp only [State.whole] at hval
    split at hval
    · obtain ⟨d, -, heq⟩ := Option.map_eq_some_iff.mp hval
      cases heq
      exact hj rfl
    · split at hval
      · exact hσ.hidden.values j k o hk hj hval
      · cases hval
  have hnone : ((σ.whole F plain).without k).slots k = none := by simp [Store.without]
  have hfetch : Fetches F base ((σ.whole F plain).without k) fr k i ([].map Value.type) [] :=
    fetches_of_found hat.found ho .nil
  exact SlotMachine.step_allocate hF hB' hfr' hrest hfetch hop (hv.alloca_type hat.lists hop).1 rfl hl 1 rfl
    (.inl ⟨rfl, rfl⟩) hnone (whole_allocate hk (by rw [hslot]; exact hl) σ) hsmall

include hd hplain hσ in
theorem step_get (hop : i.op = .load) (ho : i.operands = [some (.instr ⟨F.id, s⟩ t)]) (hs : plain s = true)
    (hacc : accessible i.type = true) (hvar : σ.vars s = some d) :
    ∃ fr', Arrives m F args fr e rest ((σ.define k d).whole F plain) base fr' e := by
  have ht := hat.address_type hv hd hplain hs (by rw [ho]; exact List.mem_singleton_self _)
  subst ht
  have hslot : slotType F s = i.type := by
    obtain ⟨p, ho', hp⟩ := (hv.ruled hat.lists).load_operands hop
    cases ho.symm.trans ho'
    exact Ty.pointer.inj hp
  obtain ⟨l, hl⟩ := accessible_layout hacc
  have hslots := whole_slot hs hvar hslot hl
  have hold := hB.slots s _ hslots
  have hroom : base s + l.size ≤ e.memory.stack.top := by
    have := hold.room
    rw [Region.length_bytes] at this
    simpa [Slot.bytes] using this
  have hsuits : suits d i.type = true := hslot ▸ hσ.suits s d hs hvar
  have hload : (load m [fr.name] (e.memory.stack.base + (base s).toUInt64) i.type).run.run e = (.ok (d.bits base), e) :=
    load_kept hB.bounds hl hacc hsuits hroom (by simpa using hold.cell 0 _ rfl)
  have hcompute : (compute m [fr.name] i ([.place s 0].map (Datum.bits base))).run.run e = (.ok (d.bits base), e) := by
    simp only [List.map_cons, List.map_nil, compute, hop, place_start hB]
    exact hload
  have hvalue : i.hasValue = true := by
    unfold Instr.hasValue
    obtain ⟨n, ht, -⟩ | ⟨t', ht⟩ := accessible_cases hacc <;> rw [ht] <;> rfl
  have hk : plain k = false := plain_eq_false hplain hat.lists hat.live (by rw [hop]; decide)
  rw [whole_define hk hat.found hvalue]
  have hfetch : Fetches F base (σ.whole F plain) fr k i [.pointer (slotType F s)] [.place s 0] :=
    @fetches_of_found _ _ _ _ _ _ [.instr ⟨F.id, s⟩ (.pointer (slotType F s))] _ hat.found ho
      (.cons (found_plain hfr hs hvar) .nil)
  exact ⟨_, SlotMachine.step_value hF hB hfr hrest hfetch
    (by simp [hop]) hvalue (known_of_kept (hB.known s _ _ hslots (List.mem_singleton_self _))) hcompute⟩

include hd hplain in
theorem step_put {d' : Datum} (hop : i.op = .store) (ho : i.operands = [some v, some (.instr ⟨F.id, s⟩ t)])
    (hs : plain s = true) (hacc : accessible v.type = true) (hvar : σ.vars s = some d')
    (hdv : datum F.id plain args σ v = some d) :
    ∃ fr' e', Arrives m F args fr e rest ((σ.setVar s d).whole F plain) base fr' e' := by
  have ht := hat.address_type hv hd hplain hs (by rw [ho]; exact List.mem_cons_of_mem _ (List.mem_singleton_self _))
  subst ht
  obtain ⟨v', p, ho', hp⟩ := (hv.ruled hat.lists).store_operands hop
  have hvoid := hv.store_type hat.lists hop
  have hslot : slotType F s = v.type := by
    cases ho.symm.trans ho'
    exact Ty.pointer.inj hp
  obtain ⟨l, hl⟩ := accessible_layout hacc
  have hslots := whole_slot hs hvar hslot hl
  have hold := hB.slots s _ hslots
  have hroom : base s + l.size ≤ e.memory.stack.top := by
    have := hold.room
    rw [Region.length_bytes] at this
    simpa [Slot.bytes] using this
  have hfound := found_of_datum hv hat.lists hfr (by rw [ho]; exact List.mem_cons_self) hdv
  have hfetch : Fetches F base (σ.whole F plain) fr k i [v.type, .pointer (slotType F s)] [d, .place s 0] :=
    @fetches_of_found _ _ _ _ _ _ [v, .instr ⟨F.id, s⟩ (.pointer (slotType F s))] _ hat.found ho
      (.cons hfound (.cons (found_plain hfr hs hvar) .nil))
  have hsize : slotSize F s = l.size := by simp [slotSize, hslot, hl]
  have hstore : (store m [fr.name] (e.memory.stack.base + (base s).toUInt64) v.type (d.bits base)).run.run e =
    (.ok (), withStack e
      (e.memory.stack.write (base s) (littleEndian (min l.size 8) ((kept v.type d).bits base).toNat))) :=
    store_kept hB.bounds hl hacc hfound.2.2 hroom
  have hcompute : (compute m [fr.name] i ([d, .place s 0].map (Datum.bits base))).run.run e = (.ok 0, withStack e
      (e.memory.stack.write (base s) (littleEndian (min l.size 8) ((kept v.type d).bits base).toNat))) := by
    simp only [List.map_cons, List.map_nil, compute, hop, place_start hB, SlotMachine.firstType_eq hfetch.types]
    rw [run_bind_ok hstore]
    rfl
  have hvalue : i.hasValue = false := by simp [Instr.hasValue, hvoid, Ty.hasValue]
  obtain ⟨h1, h2, h3⟩ := SlotMachine.advance_rest hrest i 0
  rw [whole_setVar hs (by rw [hvar]; rfl), hslot, hsize]
  refine ⟨fr.advance i 0, _, ?_, hB.update hslots rfl le_rfl ?_ (Holds.put hold (kept_Kept hl hacc hfound.2.2)) ?_,
    (hfr.setSlot s _).advance hvalue 0, h1, h2, h3, ⟨rfl, rfl, rfl, rfl⟩⟩
  · rw [SlotMachine.step_compute hF hfr hrest hfetch (by simp [hop]), run_bind_ok hcompute]
    rfl
  · rw [littleEndian_length]
    simp only [Slot.bytes, List.length_singleton]
    omega
  · intro d'' hd''
    rw [List.mem_singleton.mp hd'']
    intro q o hq
    exact hfound.2.1 q o (kept_place hq)

include hplain in
theorem step_computed {vs : List Value} {ds : List Datum} (hr : Reads F plain args σ i vs ds)
    (hc : computed i (vs.map Value.type) ds = some d) :
    ∃ fr', Arrives m F args fr e rest ((σ.define k d).whole F plain) base fr' e := by
  have hfetch := fetches_of_found hat.found hr.operands (hr.found hv hat.lists hfr)
  have hpure := computed_isPure hc
  have hop : i.op ≠ .br ∧ i.op ≠ .condbr ∧ i.op ≠ .ret ∧ i.op ≠ .call := by
    refine ⟨?_, ?_, ?_, ?_⟩ <;> (intro h; rw [h] at hpure; cases hpure)
  have hcompute : (compute m [fr.name] i (ds.map (Datum.bits base))).run.run e = (.ok (d.bits base), e) :=
    compute_computed hc hfetch.types
  by_cases hvalue : i.hasValue = true
  · rw [whole_define (plain_eq_false hplain hat.lists hat.live (computed_op hc).1) hat.found hvalue]
    exact ⟨_, SlotMachine.step_value hF hB hfr hrest hfetch hop hvalue (known_of_computed hc hfetch.known) hcompute⟩
  · have hvoid : i.hasValue = false := by simpa using hvalue
    rw [whole_define_void hat.found hvoid]
    exact ⟨_, SlotMachine.step_void hF hB hfr hrest hfetch hop hvoid hcompute⟩

include hσ in
theorem step_memory (hclears : i.callee = some fill → ∃ g, m.function? fill = some g ∧ g.name = memsetName)
    (hk : plain k = false) (hmem : i.op = .alloca ∨ i.op = .load ∨ i.op = .store ∨ i.op = .call) {vs : List Value}
    {ds : List Datum} {μ : Store} (hr : Reads F plain args σ i vs ds)
    (hact : SlotMachine.Act fill i k (σ.forget k) (vs.map Value.type) ds μ) (hsmall : μ.height < 2 ^ 63) :
    (μ.height ≤ e.limits.stackSize ∨ μ.height = σ.height → ∃ base' fr' e',
      Arrives m F args fr e rest (State.whole F plain { μ with vars := σ.vars }) base' fr' e') ∧
    (¬ (μ.height ≤ e.limits.stackSize ∨ μ.height = σ.height) → Overflows m fr e) := by
  have hfetch := fetches_of_found hat.found hr.operands (hr.found hv hat.lists hfr)
  have hds : ∀ q o, .place q o ∈ ds → plain q = false := by
    intro q o hq
    by_contra hne
    exact hσ.hidden.reads (s := q) (by simpa using hne) (fun id t _ hid ↦ by simp [datum, hid]) hr hq
  -- what instruction `k` computed before is forgotten
  let τ : State := { σ.forget k with vars := σ.vars }
  have hvalues : ∀ j d, (τ.whole F plain).values j = some d → (σ.whole F plain).values j = some d := by
    intro j d hj
    by_cases hjk : j = k
    · subst hjk
      simp [τ, State.whole, State.forget, hk] at hj
    · simpa [τ, State.whole, State.forget, hjk] using hj
  exact SlotMachine.step_act (σ := τ.whole F plain) hF hclears (hB.reenter _) (hfr.reenter hvalues) hrest
    ⟨hfetch.found, hfetch.types, hfetch.run, hfetch.known, hfetch.kept⟩ (act_whole hk hat.found hmem hds hact) hsmall

include hd hplain hσ in
theorem Act.follows (hclears : i.callee = some fill → ∃ g, m.function? fill = some g ∧ g.name = memsetName)
    (hact : Act F plain fill args σ k i σ') (hsmall : σ'.height < 2 ^ 63) :
    (∃ base' fr' e', Arrives m F args fr e rest (σ'.whole F plain) base' fr' e') ∧
        (σ'.height ≤ e.limits.stackSize ∨ σ'.height = σ.height) ∨
      Overflows m fr e ∧ e.limits.stackSize < σ'.height := by
  cases hact with
  | @var l hk hop ho hl =>
    obtain ⟨hgood, hover⟩ := step_var hF hv hat hσ hB hfr hrest hk hop ho hl hsmall
    by_cases hfits : ((σ.allocate k l).height : Int) ≤ e.limits.stackSize
    · exact .inl ⟨hgood hfits, .inl hfits⟩
    · exact .inr ⟨hover (by omega), by omega⟩
  | get hop ho hs hacc hvar =>
    obtain ⟨fr', h⟩ := step_get hF hv hd hplain hat hσ hB hfr hrest hop ho hs hacc hvar
    exact .inl ⟨⟨base, fr', e, h⟩, .inr rfl⟩
  | put hop ho hs hacc hvar hdv =>
    obtain ⟨fr', e', h⟩ := step_put hF hv hd hplain hat hB hfr hrest hop ho hs hacc hvar hdv
    exact .inl ⟨⟨base, fr', e', h⟩, .inr rfl⟩
  | compute hr hc =>
    obtain ⟨fr', h⟩ := step_computed hF hv hplain hat hB hfr hrest hr hc
    exact .inl ⟨⟨base, fr', e, h⟩, .inr rfl⟩
  | @memory vs ds μ hk hmem hr hact =>
    obtain ⟨hgood, hover⟩ := step_memory hF hv hat hσ hB hfr hrest hclears hk hmem hr hact hsmall
    by_cases hfits : (μ.height : Int) ≤ e.limits.stackSize ∨ μ.height = σ.height
    · exact .inl ⟨hgood hfits, hfits⟩
    · exact .inr ⟨hover hfits, by simp only; omega⟩

end step

theorem Act.height_le (h : Act F plain fill args σ k i σ') : σ.height ≤ σ'.height := by
  cases h with
  | var => exact (Machine.Region.le_alignUp _ _).trans (Nat.le_add_right _ _)
  | get | put | compute => exact le_rfl
  | memory _ _ _ h => exact h.height_le

theorem Runs.height_le (h : Runs F plain fill args b ks σ n d k) : σ.height ≤ k := by
  induction h with
  | act _ hact _ ih => exact hact.height_le.trans ih
  | goto _ _ _ _ _ ih => exact ih
  | ret => exact le_rfl

section run

variable (hF : m.function? F.id = some F) (hv : m.Valid dom F) (hd : DomTree.Sound m F dom) (hflow : Flows m F)
  (hplain : ∀ s, plain s = true → Variable dom F s)
  (hclears : ∀ b k i, F.Lists b k i → i.callee = some fill → ∃ g, m.function? fill = some g ∧ g.name = memsetName)
  (hret : F.ret.isStruct = false)

include hF hv hd hflow hplain hclears hret

/-- The machine gives what a run with variables gives, after as many steps, if its stack has the room. -/
theorem Runs.machine {w : UInt64} (hrun : Runs F plain fill args b ks σ n (.word w) h)
    (hlive : dom.reachable (F.blockId b) = true) (hplace : F.blocks[b]?.map (·.instrs) = some (pre ++ ks))
    (hσ : Proper F plain σ) (hB : Backed base (σ.whole F plain) e) (hfr : Framed F args base (σ.whole F plain) fr)
    (hrest : fr.rest = ks) (hfn : fr.fn = F.id) (hsmall : h < 2 ^ 63) (hroom : h ≤ e.limits.stackSize) :
    ∃ e', (∀ fuel, n ≤ fuel → run m fuel [fr] e = (.returned ⟨w, []⟩, e')) ∧ Kin e e' := by
  generalize hword : Datum.word w = d at hrun
  induction hrun generalizing pre base fr e with
  | @act b k n h ks σ σ' i d hi hact hrun ih =>
    obtain ⟨B, hB', hlist⟩ := Option.map_eq_some_iff.mp hplace
    have hat : At dom F b pre k i := ⟨hlive, hi, B, ks, hB', hlist⟩
    have hle := hrun.height_le
    obtain ⟨⟨base₁, fr₁, e₁, h₁⟩, -⟩ | ⟨-, hover⟩ := hact.follows hF hv hd hplain hat hσ hB hfr hrest
      (hclears b k i hat.lists) (by omega)
    · have hnext : F.blocks[b]?.map (·.instrs) = some ((pre ++ [k]) ++ ks) := by
        rw [hplace, List.append_assoc]
        rfl
      obtain ⟨e', hsteps, hkin⟩ := ih hlive hnext (hσ.act hv hd hplain hat hact) h₁.backed h₁.framed h₁.rest
        (h₁.fn.trans hfn) hsmall (by rw [h₁.kin.limits]; exact hroom) hword
      refine ⟨e', fun fuel hfuel ↦ ?_, h₁.kin.trans hkin⟩
      obtain ⟨fuel, rfl⟩ : ∃ f, fuel = f + 1 := ⟨fuel - 1, by omega⟩
      rw [run, h₁.run]
      exact hsteps fuel (by omega)
    · omega
  | @goto b b' k n h σ i vs ds B d hi hr hl hB' hrun ih =>
    obtain ⟨C, hC, hlist⟩ := Option.map_eq_some_iff.mp hplace
    have hat : At dom F b pre k i := ⟨hlive, hi, C, [], hC, hlist⟩
    have hfetch := fetches_of_found hat.found hr.operands (hr.found hv hat.lists hfr)
    have hlive' := hd.next hlive (hflow.leaves hv hat hplace hl)
    have hstart : F.blocks[b']?.map (·.instrs) = some ([] ++ B.instrs) := by rw [hB']; rfl
    obtain ⟨e', hsteps, hkin⟩ := ih hlive' hstart hσ hB
      (⟨hfr.values, hfr.args, rfl⟩ : Framed F args base _ { fr with block := ⟨F.id, b'⟩, rest := B.instrs }) rfl hfn
      hsmall hroom hword
    refine ⟨e', fun fuel hfuel ↦ ?_, hkin⟩
    obtain ⟨fuel, rfl⟩ : ∃ f, fuel = f + 1 := ⟨fuel - 1, by omega⟩
    rw [run, SlotMachine.step_goto hF hfr hrest hfetch hl hB']
    exact hsteps fuel (by omega)
  | @ret b k σ i v d hi hop hr =>
    subst hword
    obtain ⟨C, hC, hlist⟩ := Option.map_eq_some_iff.mp hplace
    have hat : At dom F b pre k i := ⟨hlive, hi, C, [], hC, hlist⟩
    have hfetch := fetches_of_found hat.found hr.operands (hr.found hv hat.lists hfr)
    refine ⟨withStack e (e.memory.stack.release fr.mark), fun fuel hfuel ↦ ?_, ⟨rfl, rfl, rfl, rfl⟩⟩
    obtain ⟨fuel, rfl⟩ : ∃ f, fuel = f + 1 := ⟨fuel - 1, by omega⟩
    rw [run, SlotMachine.step_ret hF hfr hrest hfetch (.ret hop) hfn hret]

theorem Gives.machine {w : UInt64} {B : Block} (hgives : Gives F plain fill args n (.word w) h) (he : Idle e)
    (hB : F.blocks[0]? = some B) (hsmall : h < 2 ^ 63) (hroom : h ≤ e.limits.stackSize) :
    ∃ e', (∀ fuel, n ≤ fuel → run m fuel [entryFrame F args B] e = (.returned ⟨w, []⟩, e')) ∧ Kin e e' := by
  obtain ⟨C, hC, hrun⟩ := hgives
  obtain rfl : B = C := Option.some.inj (hB.symm.trans hC)
  have hempty : State.whole F plain {} = {} := by simp [State.whole]
  have hplace : F.blocks[0]?.map (·.instrs) = some ([] ++ B.instrs) := by rw [hB]; rfl
  have hbacked : Backed (fun _ ↦ 0) (State.whole F plain {}) e := by rw [hempty]; exact he.backed
  have hframed : Framed F args (fun _ ↦ 0) (State.whole F plain {}) (entryFrame F args B) := by
    rw [hempty]
    exact SlotMachine.entryFrame_framed F args B
  exact hrun.machine hF hv hd hflow hplain hclears hret hd.entry hplace (.start F plain) hbacked hframed rfl
    rfl hsmall hroom

end run

end CilSsa.FlowMachine

