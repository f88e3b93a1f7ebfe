import CilSsa.Proofs.Words

namespace CilSsa.Ssa

open CilSsa.Number

def patternOfBits {n : Nat} (x : BitVec n) : UInt64 := ⟨x.signExtend 64⟩

def addressOfBits {n : Nat} (x : BitVec n) : UInt64 := ⟨x.setWidth 64⟩

def lowBits (n : Nat) (v : UInt64) : BitVec n := v.toBitVec.setWidth n

def Canonical (n : Nat) (v : UInt64) : Prop := patternOfBits (lowBits n v) = v

def Op.onVectors? (op : Op) (n : Nat) : Option (BitVec n → BitVec n → BitVec n) :=
  match op with
  | .add => some (· + ·)
  | .sub => some (· - ·)
  | .mul => some (· * ·)
  | _ => none

def Pred.relates {n : Nat} (p : Pred) (x y : BitVec n) : Bool :=
  match p with
  | .eq => x == y
  | .ne => x != y
  | .slt => x.slt y
  | .sle => x.sle y
  | .sgt => y.slt x
  | .sge => y.sle x
  | .ult => x.ult y
  | .ule => x.ule y
  | .ugt => y.ult x
  | .uge => y.ule x
  | _ => false

section

variable {m n : Nat} {a b v : UInt64}

@[simp] theorem toBitVec_patternOfBits (x : BitVec n) : (patternOfBits x).toBitVec = x.signExtend 64 := rfl

@[simp] theorem toBitVec_addressOfBits (x : BitVec n) : (addressOfBits x).toBitVec = x.setWidth 64 := rfl

theorem lowBits_patternOfBits (h : m ≤ 64) (x : BitVec n) : lowBits m (patternOfBits x) = x.signExtend m := by
  rw [lowBits, toBitVec_patternOfBits]
  ext i hi
  simp only [BitVec.getElem_setWidth, BitVec.getLsbD_signExtend, BitVec.getElem_signExtend,
    show i < 64 by omega, decide_true, Bool.true_and]
  split <;> simp [*]

theorem lowBits_addressOfBits (h : m ≤ 64) (x : BitVec n) : lowBits m (addressOfBits x) = x.setWidth m := by
  rw [lowBits, toBitVec_addressOfBits, BitVec.setWidth_setWidth_of_le _ h]

theorem canonical_patternOfBits (hn : n ≤ 64) (x : BitVec n) : Canonical n (patternOfBits x) := by
  rw [Canonical, lowBits_patternOfBits hn, BitVec.signExtend_eq]

theorem signExtend_eq_patternOfBits (h0 : 0 < n) (hn : n ≤ 64) (v : UInt64) : signExtend v n =
    patternOfBits (lowBits n v) := by
  rw [← UInt64.toBitVec_inj, toBitVec_patternOfBits]
  rcases Nat.lt_or_eq_of_le hn with hlt | rfl
  · exact toBitVec_signExtend_of_lt v h0 hlt
  · rw [signExtend_of_outside v (.inr le_rfl), lowBits, BitVec.setWidth_eq, BitVec.signExtend_eq]

theorem zeroExtend_eq_addressOfBits (h0 : 0 < n) (hn : n ≤ 64) (v : UInt64) : zeroExtend v n =
    addressOfBits (lowBits n v) := by
  rw [← UInt64.toBitVec_inj, toBitVec_addressOfBits]
  rcases Nat.lt_or_eq_of_le hn with hlt | rfl
  · exact toBitVec_zeroExtend_of_lt v h0 hlt
  · rw [zeroExtend, if_pos (.inr le_rfl), lowBits, BitVec.setWidth_eq, BitVec.setWidth_eq]

/-! ### Arithmetic -/

theorem lowBits_add (hn : n ≤ 64) (a b : UInt64) : lowBits n (a + b) = lowBits n a + lowBits n b := by
  rw [lowBits, UInt64.toBitVec_add, BitVec.setWidth_add _ _ hn]
  rfl

theorem lowBits_sub (hn : n ≤ 64) (a b : UInt64) : lowBits n (a - b) = lowBits n a - lowBits n b := by
  rw [lowBits, UInt64.toBitVec_sub, BitVec.sub_eq_add_neg, BitVec.setWidth_add _ _ hn, BitVec.setWidth_neg_of_le hn,
    ← BitVec.sub_eq_add_neg]
  rfl

theorem lowBits_mul (hn : n ≤ 64) (a b : UInt64) : lowBits n (a * b) = lowBits n a * lowBits n b := by
  rw [lowBits, UInt64.toBitVec_mul, BitVec.setWidth_mul _ _ hn]
  rfl

theorem evalBinary_onVectors (h0 : 0 < n) (hn : n ≤ 64) (a b : UInt64) {op : Op} {f : BitVec n → BitVec n → BitVec n}
    (hop : op.onVectors? n = some f) :
    evalBinary op (.int n) a b = .ok (patternOfBits (f (lowBits n a) (lowBits n b))) := by
  cases op <;> cases hop
  · rw [evalBinary, Ty.bits, signExtend_eq_patternOfBits h0 hn, lowBits_add hn]
  · rw [evalBinary, Ty.bits, signExtend_eq_patternOfBits h0 hn, lowBits_sub hn]
  · rw [evalBinary, Ty.bits, signExtend_eq_patternOfBits h0 hn, lowBits_mul hn]

/-! ### Comparison -/

theorem intOfWord_patternOfBits (hn : n ≤ 64) (x : BitVec n) : intOfWord (patternOfBits x) = x.toInt := by
  show (x.signExtend 64).toInt = x.toInt
  rw [BitVec.toInt_signExtend_of_le hn]

theorem toNat_addressOfBits (hn : n ≤ 64) (x : BitVec n) : (addressOfBits x).toNat = x.toNat := by
  show (x.setWidth 64).toNat = x.toNat
  rw [BitVec.toNat_setWidth_of_le hn]

theorem addressOfBits_inj (hn : n ≤ 64) {x y : BitVec n} : addressOfBits x = addressOfBits y ↔ x = y := by
  rw [← UInt64.toNat_inj, toNat_addressOfBits hn, toNat_addressOfBits hn, BitVec.toNat_inj]

theorem intHolds_relates (h0 : 0 < n) (hn : n ≤ 64) (a b : UInt64) (p : Pred) :
    intHolds p n a b = p.relates (lowBits n a) (lowBits n b) := by
  simp only [intHolds, signExtend_eq_patternOfBits h0 hn, zeroExtend_eq_addressOfBits h0 hn, intOfWord_patternOfBits hn]
  rw [Bool.eq_iff_iff]
  cases p <;> simp [Pred.relates, addressOfBits_inj hn, UInt64.lt_iff_toNat_lt, UInt64.le_iff_toNat_le,
    toNat_addressOfBits hn, BitVec.slt_iff_toInt_lt, BitVec.sle_iff_toInt_le, BitVec.ult_iff_toNat_lt,
    BitVec.ule_iff_toNat_le]

theorem evalCompare_relates (h0 : 0 < n) (hn : n ≤ 64) {p : Pred} (hp : p.isFloat = false) (a b : UInt64) :
    evalCompare p (.int n) a b = p.relates (lowBits n a) (lowBits n b) := by
  rw [evalCompare, hp]
  exact intHolds_relates h0 hn a b p

theorem evalCompare_swapped {p : Pred} (hp : p.isFloat = false) (t : Ty) (a b : UInt64) :
    evalCompare p.swapped t b a = evalCompare p t a b := by
  have hswapped : p.swapped.isFloat = false := by cases p <;> first | rfl | exact hp
  simp only [evalCompare, hp, hswapped, Bool.false_eq_true, if_false]
  exact intHolds_swapped p _ a b

/-! ### Conversion -/

theorem evalCast_trunc (h0 : 0 < m) (hm : m ≤ n) (hn : n ≤ 64) (v : UInt64) :
    evalCast .trunc (.int n) (.int m) v = .ok (patternOfBits ((lowBits n v).setWidth m)) := by
  change Except.ok (signExtend v m) = _
  rw [signExtend_eq_patternOfBits h0 (hm.trans hn), lowBits, lowBits, BitVec.setWidth_setWidth_of_le _ hm]

theorem evalCast_zext (h0 : 0 < n) (hn : n ≤ m) (hm : m ≤ 64) (v : UInt64) :
    evalCast .zext (.int n) (.int m) v = .ok (patternOfBits ((lowBits n v).setWidth m)) := by
  change Except.ok (signExtend (zeroExtend v n) m) = _
  rw [zeroExtend_eq_addressOfBits h0 (hn.trans hm), signExtend_eq_patternOfBits (h0.trans_le hn) hm,
    lowBits_addressOfBits hm]

theorem evalCast_sext (h0 : 0 < n) (hn : n ≤ m) (hm : m ≤ 64) (ha : Canonical n a) :
    evalCast .sext (.int n) (.int m) a = .ok (patternOfBits ((lowBits n a).signExtend m)) := by
  change Except.ok (signExtend a m) = _
  rw [signExtend_eq_patternOfBits (h0.trans_le hn) hm, ← lowBits_patternOfBits hm, ha]

theorem evalCast_ptrtoint (h0 : 0 < n) (hn : n ≤ 64) (t : Ty) (v : UInt64) :
    evalCast .ptrtoint t (.int n) v = .ok (patternOfBits (v.toBitVec.setWidth n)) := by
  change Except.ok (signExtend v n) = _
  rw [signExtend_eq_patternOfBits h0 hn, lowBits]

theorem evalCast_inttoptr (h0 : 0 < n) (hn : n ≤ 64) (t : Ty) (v : UInt64) :
    evalCast .inttoptr (.int n) t v = .ok (addressOfBits (lowBits n v)) := by
  change Except.ok (zeroExtend v n) = _
  rw [zeroExtend_eq_addressOfBits h0 hn]

theorem evalCast_trunc_extended (h0 : 0 < n) (hn : n ≤ m) (hm : m ≤ 64) (ha : Canonical n a) {op : Op}
    (hop : op = .zext ∨ op = .sext) :
    (evalCast op (.int n) (.int m) a >>= evalCast .trunc (.int m) (.int n)) = .ok a := by
  have hcut : ∀ x : BitVec m, x.setWidth n = lowBits n a → evalCast .trunc (.int m) (.int n) (patternOfBits x) =
      .ok a := by
    intro x hx
    rw [evalCast_trunc h0 hn hm, lowBits_patternOfBits hm, BitVec.signExtend_eq, hx, ha]
  rcases hop with rfl | rfl
  · rw [evalCast_zext h0 hn hm]
    refine hcut _ ?_
    rw [BitVec.setWidth_setWidth_of_le _ hn, BitVec.setWidth_eq]
  · rw [evalCast_sext h0 hn hm ha]
    refine hcut _ ?_
    rw [← lowBits_patternOfBits hm, ha, lowBits, BitVec.setWidth_setWidth_of_le _ hn]
    rfl

/-! ### Constants -/

theorem bits?_ofBits? (h0 : 0 < n) (hn : n ≤ 64) (v : UInt64) :
    (Const.ofBits? (.int n) v).bind Const.bits? = some (patternOfBits (lowBits n v)) := by
  rw [← signExtend_eq_patternOfBits h0 hn]
  rfl

/-- On the patterns of vectors of `n` bits, arithmetic, comparison and conversion of integers are those of the vectors,
and give patterns of vectors again; the constant of a pattern has the pattern of its low bits. -/
theorem evaluates_vectors (h0 : 0 < n) (hn : n ≤ 64) (ha : Canonical n a) (b : UInt64) :
    (∀ op f, Op.onVectors? op n = some f →
      evalBinary op (.int n) a b = .ok (patternOfBits (f (lowBits n a) (lowBits n b)))) ∧
    (∀ p : Pred, p.isFloat = false →
      evalCompare p (.int n) a b = p.relates (lowBits n a) (lowBits n b) ∧
        ∀ t v w, evalCompare p.swapped t w v = evalCompare p t v w) ∧
    (∀ m, 0 < m → m ≤ n → evalCast .trunc (.int n) (.int m) a = .ok (patternOfBits ((lowBits n a).setWidth m))) ∧
    (∀ m, n ≤ m → m ≤ 64 →
      evalCast .zext (.int n) (.int m) a = .ok (patternOfBits ((lowBits n a).setWidth m)) ∧
      evalCast .sext (.int n) (.int m) a = .ok (patternOfBits ((lowBits n a).signExtend m)) ∧
      ∀ op, op = .zext ∨ op = .sext →
        (evalCast op (.int n) (.int m) a >>= evalCast .trunc (.int m) (.int n)) = .ok a) ∧
    (∀ t v, evalCast .ptrtoint t (.int n) v = .ok (patternOfBits (v.toBitVec.setWidth n))) ∧
    (∀ t, evalCast .inttoptr (.int n) t a = .ok (addressOfBits (lowBits n a))) ∧
    (∀ v, (Const.ofBits? (.int n) v).bind Const.bits? = some (patternOfBits (lowBits n v))) ∧
    ∀ m ≤ 64, ∀ x : BitVec m, Canonical m (patternOfBits x) :=
  ⟨fun _ _ hop ↦ evalBinary_onVectors h0 hn a b hop,
    fun _ hp ↦ ⟨evalCompare_relates h0 hn hp a b, evalCompare_swapped hp⟩,
    fun _ hm hmn ↦ evalCast_trunc hm hmn hn a,
    fun _ hnm hm ↦ ⟨evalCast_zext h0 hnm hm a, evalCast_sext h0 hnm hm ha,
      fun _ ↦ evalCast_trunc_extended h0 hnm hm ha⟩,
    evalCast_ptrtoint h0 hn, fun t ↦ evalCast_inttoptr h0 hn t a, bits?_ofBits? h0 hn,
    fun _ hm x ↦ canonical_patternOfBits hm x⟩

/-- In seven bits 63 and 1 make -64, and zeros in front of all ones make 127. -/
theorem evaluates_vectors_seven : Canonical 7 63 ∧ evalBinary .add (.int 7) 63 1 = .ok (-64) ∧ Canonical 7 (-1) ∧
    evalCast .zext (.int 7) (.int 8) (-1) = .ok 127 := by
  have h63 : Canonical 7 63 := by rfl
  have hones : Canonical 7 (-1) := by rfl
  obtain ⟨hsum, -⟩ := evaluates_vectors (by decide) (by decide) h63 1
  obtain ⟨-, -, -, hextend, -⟩ := evaluates_vectors (by decide) (by decide) hones 0
  exact ⟨h63, hsum .add _ rfl, hones, (hextend 8 (by decide) (by decide)).1⟩

end

end CilSsa.Ssa

