import CilSsa.Proofs.LayoutHistory

open CilSsa.Number

namespace CilSsa.Ssa

namespace Layout

def step (k : Layout) : Nat := max k.align 1

/-- Members one behind the other: each at the least multiple of its alignment that is not below the end of the one
before. The last of them ends at `stop`. -/
inductive Packed : (start : Nat) → List Layout → List Nat → (stop : Nat) → Prop
  | nil (start : Nat) : Packed start [] [] start
  | cons {start stop o : Nat} {k : Layout} {ks : List Layout} {os : List Nat} : IsLeast {x | k.step ∣ x ∧ start ≤ x} o →
      Packed (o + k.size) ks os stop → Packed start (k :: ks) (o :: os) stop

variable {ks : List Layout}

theorem isLeast_roundUp (n : Nat) {align : Nat} (h : 0 < align) : IsLeast {x | align ∣ x ∧ n ≤ x}
    (roundUp n align) := by
  refine ⟨⟨?_, le_roundUp n align⟩, ?_⟩
  · unfold roundUp
    split
    · obtain rfl : align = 1 := by omega
      exact Nat.one_dvd n
    · exact Nat.dvd_mul_left ..
  · rintro x ⟨⟨q, rfl⟩, hn⟩
    unfold roundUp
    split
    · exact hn
    · rw [Nat.mul_comm align q]
      refine Nat.mul_le_mul_right _ (Nat.lt_succ_iff.mp ((Nat.div_lt_iff_lt_mul h).mpr ?_))
      rw [Nat.succ_mul, Nat.mul_comm q align]
      omega

theorem foldl_place (ks : List Layout) (l : Layout) : ∃ os, (ks.foldl place l).offsets = l.offsets ++ os ∧
    (ks.foldl place l).aligns = l.aligns ++ ks.map step ∧ Packed l.size ks os (ks.foldl place l).size ∧
    IsGreatest {a | a ∈ l.align :: ks.map step} (ks.foldl place l).align := by
  induction ks generalizing l with
  | nil => exact ⟨[], (List.append_nil _).symm, (List.append_nil _).symm, .nil _, by simp⟩
  | cons k ks ih =>
    obtain ⟨os, hoffsets, haligns, hpacked, hmem, hmax⟩ := ih (l.place k)
    have hleast : IsLeast {x | k.step ∣ x ∧ l.size ≤ x} (roundUp l.size k.step) :=
      isLeast_roundUp _ (Nat.lt_of_lt_of_le Nat.zero_lt_one (Nat.le_max_right ..))
    refine ⟨roundUp l.size k.step :: os, ?_, ?_, .cons hleast hpacked, ?_, ?_⟩
    · rw [List.foldl_cons, hoffsets]
      exact List.append_assoc ..
    · rw [List.foldl_cons, haligns]
      exact List.append_assoc ..
    · rcases List.mem_cons.mp hmem with heq | hmem
      · rcases max_choice l.align k.step with hchoice | hchoice
        · exact List.mem_cons.mpr (.inl (heq.trans hchoice))
        · exact List.mem_cons_of_mem _ (List.mem_cons.mpr (.inl (heq.trans hchoice)))
      · exact List.mem_cons_of_mem _ (List.mem_cons_of_mem _ hmem)
    · intro a ha
      have hplace : (l.place k).align ≤ ((k :: ks).foldl place l).align := hmax List.mem_cons_self
      have halign : (l.place k).align = max l.align k.step := rfl
      rcases List.mem_cons.mp ha with rfl | ha
      · omega
      · rcases List.mem_cons.mp ha with rfl | ha
        · omega
        · exact hmax (List.mem_cons_of_mem _ ha)

theorem ofMembers_packed (ks : List Layout) : (ofMembers ks).aligns = ks.map step ∧
    IsGreatest {a | a ∈ 1 :: ks.map step} (ofMembers ks).align ∧ ∃ stop, Packed 0 ks (ofMembers ks).offsets stop ∧
      IsLeast {x | (ofMembers ks).align ∣ x ∧ stop ≤ x} (ofMembers ks).size := by
  obtain ⟨os, hoffsets, haligns, hpacked, halign⟩ := foldl_place ks .empty
  have hpos : 0 < (ks.foldl place .empty).align := halign.2 List.mem_cons_self
  refine ⟨haligns, halign, _, ?_, isLeast_roundUp _ hpos⟩
  show Packed 0 ks (ks.foldl place .empty).offsets _
  rw [hoffsets]
  exact hpacked

end Layout

namespace Layouts

variable {m : Module} {target : Target} {s : Layouts} {t r : Ty} {l : Layout} {fields : List Ty}

theorem Asked.exactly (h : Asked target m s) : Exactly m target s :=
  ⟨h.truthful.machine, fun t a ha ↦ match a, h.truthful.memo t a ha with
    | .ok _, hl => hl
    | .error _, he => Explains.not_laidOut he⟩

theorem of_eq_ok_iff (h : Exactly m target s) : (s.of m t).1 = .ok l ↔ LaidOut m target t l := by
  have hexact := (of_exact (t := t) h).2
  constructor
  · intro hl
    rwa [hl] at hexact
  · intro hl
    generalize (s.of m t).1 = a at hexact
    cases a with
    | ok l' => exact congrArg Except.ok (hexact.unique hl)
    | error e => exact absurd hl (hexact l)

end Layouts

/-! ### Layouts as they are handed out -/

theorem Layout.Packed.le {start stop : Nat} {ks : List Layout} {os : List Nat} (h : Layout.Packed start ks os stop) :
    start ≤ stop := by
  induction h with
  | nil => exact Nat.le_refl _
  | cons hleast _ ih => exact hleast.1.2.trans ((Nat.le_add_right ..).trans ih)

namespace TypeLayout

theorem roundUp_wide {n align : Nat} (h : n + align ≤ 2 ^ 63) : roundUp n align = (Layout.roundUp n align : Nat) := by
  unfold roundUp Layout.roundUp
  by_cases halign : align ≤ 1
  · rw [if_pos halign, if_pos (by omega)]
  · have hsum : (n : Int) + align - 1 = ((n + align - 1 : Nat) : Int) := by omega
    rw [if_neg halign, if_neg (by omega), hsum, Machine.wrapInt_of_lt (by omega), Int.natCast_mul]
    rfl

theorem place_wide {l k : Layout} (hfit : (l.place k).size + (l.place k).align ≤ 2 ^ 63) :
    l.wide.place k.wide = (l.place k).wide := by
  have hsize : (l.place k).size = Layout.roundUp l.size k.step + k.size := rfl
  have halign : (l.place k).align = max l.align k.step := rfl
  have hle := Layout.le_roundUp l.size k.step
  have hstep : max k.wide.align 1 = (k.step : Int) := by
    change max (k.align : Int) 1 = ((max k.align 1 : Nat) : Int)
    omega
  have hmax : max l.wide.align k.step = ((l.place k).align : Int) := by
    change max (l.align : Int) k.step = ((max l.align k.step : Nat) : Int)
    omega
  have hoffset : roundUp l.wide.size k.step = (Layout.roundUp l.size k.step : Nat) :=
    roundUp_wide (by have := Nat.le_max_right l.align k.step; omega)
  have hsum : ((Layout.roundUp l.size k.step : Nat) : Int) + k.wide.size =
    ((Layout.roundUp l.size k.step + k.size : Nat) : Int) := rfl
  unfold place
  dsimp only
  rw [hstep, hoffset, hsum, hmax, Machine.wrapInt_of_lt (by have := Nat.le_max_right l.align k.step; omega)]
  simp only [Layout.wide, Layout.place, List.map_append, List.map_cons, List.map_nil]
  rfl

theorem foldl_place_wide (ks : List Layout) (l : Layout)
    (hfit : (ks.foldl Layout.place l).size + (ks.foldl Layout.place l).align ≤ 2 ^ 63) :
    (ks.map Layout.wide).foldl place l.wide = (ks.foldl Layout.place l).wide := by
  induction ks generalizing l with
  | nil => rfl
  | cons k ks ih =>
    obtain ⟨os, -, -, hpacked, -, hmax⟩ := Layout.foldl_place ks (l.place k)
    have hsize := hpacked.le
    have halign := hmax List.mem_cons_self
    rw [List.foldl_cons] at hfit
    rw [List.map_cons, List.foldl_cons, List.foldl_cons, place_wide (by omega)]
    exact ih _ hfit

theorem ofMembers_wide {ks : List Layout} (hfit : (Layout.ofMembers ks).size + (Layout.ofMembers ks).align ≤ 2 ^ 63) :
    ofMembers (ks.map Layout.wide) = (Layout.ofMembers ks).wide := by
  generalize hl : ks.foldl Layout.place .empty = l
  have hmembers : Layout.ofMembers ks = { l with size := Layout.roundUp l.size l.align } := by rw [← hl]; rfl
  have hle := Layout.le_roundUp l.size l.align
  rw [hmembers] at hfit ⊢
  dsimp only at hfit
  have hfold : (ks.map Layout.wide).foldl place empty = l.wide := by
    rw [← hl]
    exact foldl_place_wide ks .empty (by rw [hl]; omega)
  have hround : roundUp l.wide.size l.wide.align = (Layout.roundUp l.size l.align : Nat) := roundUp_wide (by omega)
  unfold ofMembers
  dsimp only
  rw [hfold, hround]
  rfl

def step (k : TypeLayout) : Int := max k.align 1

theorem foldl_place (ks : List TypeLayout) (l : TypeLayout) :
    (ks.foldl place l).offsets.length = l.offsets.length + ks.length ∧ (ks.foldl place l).aligns =
    l.aligns ++ ks.map step ∧
      IsGreatest {a | a ∈ l.align :: ks.map step} (ks.foldl place l).align := by
  induction ks generalizing l with
  | nil => exact ⟨rfl, (List.append_nil _).symm, by simp⟩
  | cons k ks ih =>
    obtain ⟨hoffsets, haligns, hmem, hmax⟩ := ih (l.place k)
    have halign : (l.place k).align = max l.align k.step := rfl
    have hplaced := hmax List.mem_cons_self
    refine ⟨?_, haligns.trans (List.append_assoc ..), ?_, fun a ha ↦ ?_⟩
    · rw [List.foldl_cons, hoffsets, List.length_cons, place, List.length_append, List.length_singleton]
      omega
    · rw [List.foldl_cons, List.map_cons]
      rcases List.mem_cons.mp hmem with heq | hmem
      · rw [heq, halign]
        rcases max_choice l.align k.step with hchoice | hchoice <;> simp [hchoice]
      · exact List.mem_cons_of_mem _ (List.mem_cons_of_mem _ hmem)
    · rw [List.map_cons] at ha
      rcases List.mem_cons.mp ha with rfl | ha
      · exact (halign ▸ le_max_left ..).trans hplaced
      · rcases List.mem_cons.mp ha with rfl | ha
        · exact (halign ▸ le_max_right ..).trans hplaced
        · exact hmax (List.mem_cons_of_mem _ ha)

theorem le_ofMembers {ks : List Layout} {k : Layout} (hk : k ∈ ks) :
    k.size ≤ (Layout.ofMembers ks).size ∧ k.align ≤ (Layout.ofMembers ks).align := by
  obtain ⟨-, halign, -⟩ := Layout.ofMembers_packed ks
  have hstep : k.step ≤ (Layout.ofMembers ks).align := halign.2 (List.mem_cons_of_mem _ (List.mem_map_of_mem hk))
  have hlines := Layout.lines_ofMembers ks
  obtain ⟨i, hi⟩ := List.mem_iff_getElem?.mp hk
  have hlt : i < (Layout.ofMembers ks).offsets.length := hlines.count ▸ (List.getElem?_eq_some_iff.mp hi).1
  have := hlines.inside i _ k (List.getElem?_eq_getElem hlt) hi
  exact ⟨by omega, (Nat.le_max_left ..).trans hstep⟩

variable {m : Module} {target : Target} {t : Ty} {l : Layout} {fuel : Nat}

theorem scalar_wide {n : Nat} : scalar n = (Layout.scalar n).wide := by
  unfold scalar Layout.scalar
  by_cases h : n = 0
  · rw [if_pos h, if_pos (by omega)]
    rfl
  · rw [if_neg h, if_neg (by omega)]
    rfl

/-- The layout of a type, in wrapping sums throughout; the fuel bounds the nesting. -/
def anew (m : Module) (target : Target) : Nat → Ty → TypeLayout := compute m target fun _ ↦ none

theorem anew_struct (m : Module) (target : Target) (fuel id : Nat) (name : String) : anew m target (fuel + 1)
    (.struct id name) = ofMembers (((m.fields? (.struct id name)).getD []).map (anew m target fuel)) := rfl

theorem anew_wide (h : Layouts.layout? m target fuel t = some l) (hplain : l.size + l.align ≤ plain) :
    anew m target fuel t = l.wide := by
  induction fuel generalizing t l with
  | zero => cases h
  | succ fuel ih =>
    cases t with
    | int bits =>
      cases h
      have hsize : (bits + 7) / 8 < 2 ^ 60 := by
        unfold Layout.scalar plain at hplain
        split at hplain
        · omega
        · dsimp only at hplain
          omega
      have hsum : (bits : Int) + 7 = ((bits + 7 : Nat) : Int) := rfl
      rw [anew, compute, Option.getD_none, ofType, hsum, Machine.wrapInt_of_lt (by omega)]
      exact scalar_wide
    | float | double | pointer =>
      cases h
      rfl
    | struct id name =>
      obtain ⟨fields, hfields, hmembers⟩ := Option.bind_eq_some_iff.mp h
      obtain ⟨ls, hls, rfl⟩ := Option.map_eq_some_iff.mp hmembers
      have hsmall : ∀ k ∈ ls, k.size + k.align ≤ plain := fun k hk ↦ by
        have := le_ofMembers hk
        omega
      have hall : List.Forall₂ (fun r k ↦ anew m target fuel r = k.wide) fields ls :=
        ((List.forall₂_and_left ls fields).mpr ⟨hsmall, (mapM_some_iff.mp hls).flip⟩).flip.imp fun _ _ h ↦ ih h.2 h.1
      have hall : fields.map (anew m target fuel) = ls.map Layout.wide := by
        rwa [← List.forall₂_eq_eq_eq, List.forall₂_map_left_iff, List.forall₂_map_right_iff]
      rw [anew_struct, hfields, Option.getD_some, hall]
      exact ofMembers_wide (by rw [plain] at hplain; omega)
    | _ => cases h

end TypeLayout

namespace Layouts

open TypeLayout

variable {m : Module} {target : Target} {s : Layouts} {t r q : Ty} {l : Layout} {fields : List Ty} {path : List Ty}

theorem anew_succ (fuel : Nat) (hnested : Nested m q path t) (hfuel : nesting m + 1 ≤ fuel + path.length)
    (hl : LaidOut m target t l) : anew m target (fuel + 1) t = anew m target fuel t := by
  induction fuel generalizing path t l with
  | zero =>
    have := hnested.length_le
    have := length_members_lt m
    omega
  | succ fuel ih =>
    have hfresh : t ∉ path := fun hmem ↦ not_laidOut_of_cycle (hnested.leads t hmem) hl
    cases t with
    | struct id name =>
      cases hfields : m.fields? (.struct id name) with
      | none => rw [anew_struct, anew_struct, hfields]; rfl
      | some fields =>
        rw [anew_struct, anew_struct, hfields, Option.getD_some]
        refine congrArg ofMembers (List.map_congr_left fun r hr ↦ ?_)
        obtain ⟨k, hk⟩ := hl.member hfields hr
        exact ih (hnested.push hfresh hfields hr) (by rw [List.length_append, List.length_singleton]; omega) hk
    | _ => rfl

theorem anew_of_le {fuel fuel' : Nat} (hle : fuel ≤ fuel') (hnested : Nested m q path t)
    (hfuel : nesting m + 1 ≤ fuel + path.length) (hl : LaidOut m target t l) : anew m target fuel' t =
    anew m target fuel t := by
  induction hle with
  | refl => rfl
  | @step fuel' hle ih =>
    have : fuel ≤ fuel' := hle
    exact (anew_succ fuel' hnested (by omega) hl).trans ih

theorem compute_eq_anew (h : Exactly m target s) (fuel : Nat) (hnested : Nested m q path t)
    (hfuel : nesting m + 1 ≤ fuel + path.length) (hl : LaidOut m target t l) :
    TypeLayout.compute m target s.plain? fuel t = anew m target fuel t := by
  induction fuel generalizing path t l with
  | zero => rfl
  | succ fuel ih =>
    have hknown : ∀ x, s.plain? t = some x → x = anew m target (fuel + 1) t := by
      intro x hx
      unfold plain? at hx
      split at hx
      next l' hmemo =>
        split at hx
        next hsmall =>
          cases hx
          obtain ⟨fuel', hfound⟩ := h.memo t _ hmemo
          rw [← anew_of_le (Nat.le_max_right fuel' (fuel + 1)) hnested hfuel ⟨fuel', hfound⟩,
            anew_wide (layout?_mono hfound (Nat.le_max_left ..)) hsmall]
        next => cases hx
      next => cases hx
    rw [TypeLayout.compute]
    cases hplain : s.plain? t with
    | some x => exact hknown x hplain
    | none =>
      rw [Option.getD_none]
      cases t with
      | struct id name =>
        rw [ofType, anew_struct]
        cases hfields : m.fields? (.struct id name) with
        | none => rfl
        | some fields =>
          rw [Option.getD_some]
          have hfresh : Ty.struct id name ∉ path := fun hmem ↦ not_laidOut_of_cycle (hnested.leads _ hmem) hl
          refine congrArg ofMembers (List.map_congr_left fun r hr ↦ ?_)
          obtain ⟨k, hk⟩ := hl.member hfields hr
          exact ih (hnested.push hfresh hfields hr) (by rw [List.length_append, List.length_singleton]; omega) hk
      | int bits => rw [ofType, anew, TypeLayout.compute, Option.getD_none, ofType]
      | _ => rfl

theorem Nested.start (m : Module) (t : Ty) : Nested m t [] t :=
  ⟨List.nodup_nil, List.forall_mem_nil _, .inl rfl, List.forall_mem_nil _⟩

theorem layoutOf_eq_ok_iff (h : Exactly m target s) {k : TypeLayout} : (s.layoutOf m t).1 = .ok k ↔
    (∃ l, LaidOut m target t l) ∧ k = anew m target (nesting m + 1) t := by
  obtain ⟨hafter, -⟩ := of_exact (t := t) h
  have hanswer := fun l ↦ of_eq_ok_iff (t := t) (l := l) h
  unfold layoutOf
  generalize s.of m t = found at hafter hanswer
  obtain ⟨e | l, s'⟩ := found
  · exact iff_of_false nofun fun ⟨⟨l, hl⟩, _⟩ ↦ nomatch (hanswer l).mpr hl
  · have hl := (hanswer l).mp rfl
    dsimp only at hafter ⊢
    rw [Except.map, Except.ok.injEq, hafter.machine, compute_eq_anew hafter _ (.start m t) (by simp) hl,
      and_iff_right ⟨l, hl⟩, eq_comm]

theorem offsetOf_eq_ok_iff {k : TypeLayout} (hl : (s.layoutOf m t).1 = .ok k) {i o : Int} :
    (s.offsetOf m t i).1 = .ok o ↔ 0 ≤ i ∧ k.offsets[i.toNat]? = some o := by
  unfold offsetOf
  dsimp only
  rw [hl]
  dsimp only
  split
  · rename_i hneg
    exact iff_of_false nofun fun h ↦ absurd h.1 (Int.not_le.mpr hneg)
  · rename_i hpos
    cases hplace : k.offsets[i.toNat]? with
    | none => exact iff_of_false nofun fun h ↦ nomatch h.2
    | some p => exact ⟨fun h ↦ ⟨Int.not_lt.mp hpos, congrArg some (Except.ok.inj h)⟩,
      fun h ↦ congrArg Except.ok (Option.some.inj h.2)⟩

/-- The layout of a struct. Its members have the layouts that they are asked for, its alignment is the largest of
theirs, and an offset is answered for the members' places and for no others. If the members' layouts are natural numbers
and the exact size and alignment of the struct do not exceed `2 ^ 63` together, the members are packed: each lies at the
least multiple of its alignment that is not below the end of the one before, they have no bytes in common and end within
the struct, whose size is the least multiple of its alignment that is not below the end of the last. -/
theorem struct_packed (h : Asked target m s) {k : TypeLayout} (hk : (s.layoutOf m t).1 = .ok k)
    (hfields : m.fields? t = some fields) :
    ∃ ks, List.Forall₂ (fun r x ↦ (s.layoutOf m r).1 = .ok x) fields ks ∧ k.aligns = ks.map TypeLayout.step ∧
      IsGreatest {a | a ∈ 1 :: k.aligns} k.align ∧
      (∀ i o : Int, (s.offsetOf m t i).1 = .ok o ↔ 0 ≤ i ∧ k.offsets[i.toNat]? = some o) ∧
      (∀ i : Int, (∃ o, (s.offsetOf m t i).1 = .ok o) ↔ 0 ≤ i ∧ i < fields.length) ∧
      ∀ ls : List Layout, ks = ls.map Layout.wide → (Layout.ofMembers ls).size + (Layout.ofMembers ls).align ≤ 2 ^ 63 →
        k = (Layout.ofMembers ls).wide ∧ (Layout.ofMembers ls).Lines ls ∧
          ∃ stop, Layout.Packed 0 ls (Layout.ofMembers ls).offsets stop ∧
            IsLeast {x | (Layout.ofMembers ls).align ∣ x ∧ stop ≤ x} (Layout.ofMembers ls).size := by
  have hexact := h.exactly
  obtain ⟨⟨l, hl⟩, hcompute⟩ := (layoutOf_eq_ok_iff hexact).mp hk
  have hmember : ∀ r ∈ fields, (s.layoutOf m r).1 = .ok (anew m target (nesting m + 1) r) := fun r hr ↦
    (layoutOf_eq_ok_iff hexact).mpr ⟨hl.member hfields hr, rfl⟩
  have hmembers : k = ofMembers (fields.map (anew m target (nesting m + 1))) := by
    cases t with
    | struct id name =>
      rw [hcompute, anew_struct, hfields, Option.getD_some]
      refine congrArg ofMembers (List.map_congr_left fun r hr ↦ ?_)
      obtain ⟨l', hl'⟩ := hl.member hfields hr
      exact (anew_succ _ ((Nested.start m _).push List.not_mem_nil hfields hr) (by simp) hl').symm
    | _ => cases hfields
  obtain ⟨hoffsets, haligns, halign⟩ :=
    TypeLayout.foldl_place (fields.map (anew m target (nesting m + 1))) .empty
  have hcount : k.offsets.length = fields.length := by
    rw [hmembers]
    exact hoffsets.trans (by simp [TypeLayout.empty])
  have haligns : k.aligns = (fields.map (anew m target (nesting m + 1))).map TypeLayout.step := by
    rw [hmembers]
    exact haligns
  refine ⟨_, List.forall₂_map_right_iff.mpr (List.forall₂_same.mpr hmember), haligns, ?_,
    fun i o ↦ offsetOf_eq_ok_iff hk, fun i ↦ ?_, ?_⟩
  · rw [haligns, hmembers]
    exact halign
  · have hplace : (∃ o, k.offsets[i.toNat]? = some o) ↔ i.toNat < fields.length := by
      rw [← hcount]
      exact ⟨fun ⟨o, ho⟩ ↦ (List.getElem?_eq_some_iff.mp ho).1, fun hlt ↦ ⟨_, List.getElem?_eq_getElem hlt⟩⟩
    simp only [offsetOf_eq_ok_iff hk, exists_and_left, hplace]
    omega
  · intro ls hls hfit
    obtain ⟨-, -, stop, hpacked, hsize⟩ := Layout.ofMembers_packed ls
    rw [hls, ofMembers_wide hfit] at hmembers
    exact ⟨hmembers, Layout.lines_ofMembers ls, stop, hpacked, hsize⟩

def paddedModule : Module where
  name := "padded"
  structs := #[⟨"S", some [.i8, .struct 1 "E", .i64]⟩, ⟨"E", some []⟩]
  liveStructs := [0, 1]

/-- The word lies behind seven bytes that nothing uses, and there is no fourth member. -/
theorem struct_packed_padded :
    (Layouts.layoutOf {} paddedModule (.struct 0 "S")).1 = .ok ⟨16, 8, [0, 1, 8], [1, 1, 8]⟩ ∧
    (∃ stop, Layout.Packed 0 [.scalar 1, .empty, .scalar 8] [0, 1, 8] stop ∧ IsLeast {x | 8 ∣ x ∧ stop ≤ x} 16) ∧
    ¬ ∃ o, (Layouts.offsetOf {} paddedModule (.struct 0 "S") 3).1 = .ok o := by
  have hl : (Layouts.layoutOf {} paddedModule (.struct 0 "S")).1 = .ok ⟨16, 8, [0, 1, 8], [1, 1, 8]⟩ :=
    by decide +kernel
  have hbyte : (Layouts.layoutOf {} paddedModule .i8).1 = .ok (Layout.scalar 1).wide := by decide +kernel
  have hempty : (Layouts.layoutOf {} paddedModule (.struct 1 "E")).1 = .ok Layout.empty.wide := by decide +kernel
  have hword : (Layouts.layoutOf {} paddedModule .i64).1 = .ok (Layout.scalar 8).wide := by decide +kernel
  obtain ⟨_, hks, -, -, -, hplaces, hpacked⟩ := struct_packed (@Asked.fresh .host paddedModule) hl rfl
  obtain _ | ⟨ha, _ | ⟨hb, _ | ⟨hc, _ | _⟩⟩⟩ := hks
  have heq : [_, _, _] = [Layout.scalar 1, .empty, .scalar 8].map Layout.wide :=
    congrArg₂ _ (Except.ok.inj (ha.symm.trans hbyte))
    (congrArg₂ _ (Except.ok.inj (hb.symm.trans hempty)) (congrArg (· :: []) (Except.ok.inj (hc.symm.trans hword))))
  obtain ⟨-, -, stop, hstop, hsize⟩ := hpacked _ heq (by decide)
  exact ⟨hl, ⟨stop, hstop, hsize⟩, by rw [hplaces]; decide⟩

/-- Eight numbers of so many bits that their bytes fill all but the last eight of `2 ^ 63`. -/
def vastModule : Module where
  name := "vast"
  structs := #[⟨"S", some (List.replicate 8 (.int 9223372036854775800))⟩]
  liveStructs := [0]

/-- The members end eight bytes below `2 ^ 63`, which is a multiple of their alignment; the struct is handed out with a
size below zero. -/
theorem struct_overflows : ∃ offsets aligns,
    (Layouts.layoutOf {} vastModule (.int 9223372036854775800)).1 = .ok ⟨2 ^ 60 - 1, 2 ^ 60 - 1, [], []⟩ ∧
    (Layouts.layoutOf {} vastModule (.struct 0 "S")).1 = .ok ⟨-8070450532247928825, 2 ^ 60 - 1, offsets, aligns⟩ ∧
    offsets.getLast? = some (7 * (2 ^ 60 - 1)) ∧
    IsLeast {x : Int | 2 ^ 60 - 1 ∣ x ∧ 7 * (2 ^ 60 - 1) + (2 ^ 60 - 1) ≤ x} (2 ^ 63 - 8) := by
  refine ⟨(List.range 8).map fun i ↦ (i : Int) * (2 ^ 60 - 1), List.replicate 8 (2 ^ 60 - 1),
    by decide +kernel, by decide +kernel,
    by decide +kernel, ⟨by decide, by decide⟩, fun x hx ↦ ?_⟩
  have := hx.2
  omega

end Layouts

end CilSsa.Ssa

