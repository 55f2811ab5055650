import ValueFlow.Proofs.Comparison
import ValueFlow.Proofs.Interval.Tightness

namespace ValueFlow

namespace Interval

variable {a b c : Interval} {x : Int} {S : Int → Prop} {o : Option Interval}
  {narrow : Interval → Interval → Option Interval} {R : Int → Int → Prop}

/-- What is left are the numbers of `S`, and nothing is left if there is none. -/
def IsExactly (S : Int → Prop) : Option Interval → Prop
  | some c => ∀ x, x ∈ c ↔ S x
  | none => ∀ x, ¬ S x

/-- What is left is the smallest interval around the numbers of `S`, and nothing is left if there is
none. -/
def IsSmallestOf (S : Int → Prop) : Option Interval → Prop
  | some c => c.IsSmallest S
  | none => ∀ x, ¬ S x

/-- A number of `a` that is related to some number of `b`. -/
def Related (R : Int → Int → Prop) (a b : Interval) (x : Int) : Prop := x ∈ a ∧ ∃ y ∈ b, R x y

theorem isSome_iff_exists (hnone : o = none → ∀ x, ¬ S x) (hsome : ∀ c, o = some c → ∃ x, S x) :
    o.isSome = true ↔ ∃ x, S x := by
  cases o with
  | none =>
    simp only [Option.isSome_none, Bool.false_eq_true, false_iff]
    rintro ⟨x, hx⟩
    exact hnone rfl x hx
  | some c =>
    simp only [Option.isSome_some, true_iff]
    exact hsome c rfl

theorem IsExactly.isSome_iff (h : IsExactly S o) : o.isSome = true ↔ ∃ x, S x := by
  apply isSome_iff_exists
  · rintro rfl
    exact h
  · rintro c rfl
    exact ⟨c.lo, (h c.lo).1 c.lo_mem⟩

/-- The smallest interval around nothing would lie within any two single numbers. -/
theorem IsSmallest.exists_mem (h : c.IsSmallest S) : ∃ x, S x := by
  apply Classical.byContradiction
  intro hnone
  have hvacuous : ∀ d : Interval, d.includes c = true := fun d =>
    h.least d fun x hx => absurd ⟨x, hx⟩ hnone
  have hlo : 1 ≤ c.lo := (includes_iff.1 (hvacuous (point 1))).1
  have hhi : c.hi ≤ 0 := (includes_iff.1 (hvacuous (point 0))).2
  have hc := c.lo_le_hi
  omega

theorem IsSmallestOf.isSome_iff (h : IsSmallestOf S o) : o.isSome = true ↔ ∃ x, S x := by
  apply isSome_iff_exists
  · rintro rfl
    exact h
  · rintro c rfl
    exact IsSmallest.exists_mem h

section Kept

variable (hkeeps : KeepsRelated narrow R)
include hkeeps

theorem mem_of_related (hc : narrow a b = some c) (hx : Related R a b x) : x ∈ c := by
  obtain ⟨hxa, y, hy, hR⟩ := hx
  obtain ⟨c', hc', hxc⟩ := hkeeps hxa hy hR
  cases hc.symm.trans hc'
  exact hxc

theorem not_related_of_none (hnone : narrow a b = none) (x : Int) : ¬ Related R a b x := by
  rintro ⟨hx, y, hy, hR⟩
  obtain ⟨c, hc, -⟩ := hkeeps hx hy hR
  cases hnone.symm.trans hc

/-- A narrowing that keeps the related numbers is exact if it keeps no others. -/
theorem isExactly_of_keepsRelated
    (hback : ∀ c x, narrow a b = some c → x ∈ c → Related R a b x) :
    IsExactly (Related R a b) (narrow a b) := by
  cases h : narrow a b with
  | none => exact not_related_of_none hkeeps h
  | some c => exact fun x => ⟨hback c x h, mem_of_related hkeeps h⟩

end Kept

section Ordering

theorem mem_of_meet (h : a.meet b = some c) (hx : x ∈ c) : x ∈ a ∧ x ∈ b :=
  ⟨mem_of_includes (includes_of_meet_left h) hx, mem_of_includes (includes_of_meet_right h) hx⟩

theorem isExactly_greater (a b : Interval) :
    IsExactly (Related (fun x y => y < x) a b) (a.greater b) := by
  refine isExactly_of_keepsRelated keepsRelated_greater fun c x hc hx => ?_
  have hb := b.minInt_le_lo
  unfold greater at hc
  split at hc
  · obtain ⟨ha, hmem⟩ := mem_of_meet hc hx
    have hlo : saturate (b.lo + 1) ≤ x := hmem.1
    rw [saturate_eq_self (by omega) (by omega)] at hlo
    exact ⟨ha, b.lo, b.lo_mem, by omega⟩
  · cases hc

theorem isExactly_less (a b : Interval) :
    IsExactly (Related (fun x y => x < y) a b) (a.less b) := by
  refine isExactly_of_keepsRelated keepsRelated_less fun c x hc hx => ?_
  have hb := b.hi_le_maxInt
  unfold less at hc
  split at hc
  · obtain ⟨ha, hmem⟩ := mem_of_meet hc hx
    have hhi : x ≤ saturate (b.hi - 1) := hmem.2
    rw [saturate_eq_self (by omega) (by omega)] at hhi
    exact ⟨ha, b.hi, b.hi_mem, by omega⟩
  · cases hc

theorem isExactly_greaterOrEqual (a b : Interval) :
    IsExactly (Related (fun x y => y ≤ x) a b) (a.greaterOrEqual b) := by
  refine isExactly_of_keepsRelated keepsRelated_greaterOrEqual fun c x hc hx => ?_
  obtain ⟨ha, hmem⟩ := mem_of_meet hc hx
  have hlo : saturate b.lo ≤ x := hmem.1
  rw [saturate_eq_self b.minInt_le_lo (Int.le_trans b.lo_le_hi b.hi_le_maxInt)] at hlo
  exact ⟨ha, b.lo, b.lo_mem, hlo⟩

theorem isExactly_lessOrEqual (a b : Interval) :
    IsExactly (Related (fun x y => x ≤ y) a b) (a.lessOrEqual b) := by
  refine isExactly_of_keepsRelated keepsRelated_lessOrEqual fun c x hc hx => ?_
  obtain ⟨ha, hmem⟩ := mem_of_meet hc hx
  have hhi : x ≤ saturate b.hi := hmem.2
  rw [saturate_eq_self (Int.le_trans b.minInt_le_lo b.lo_le_hi) b.hi_le_maxInt] at hhi
  exact ⟨ha, b.hi, b.hi_mem, hhi⟩

theorem keepsRelated_meet : KeepsRelated meet fun x y => x = y := by
  rintro a b x y hx hy rfl
  exact meet_isSome_of_mem hx hy

theorem isExactly_meet (a b : Interval) :
    IsExactly (Related (fun x y => x = y) a b) (a.meet b) :=
  isExactly_of_keepsRelated keepsRelated_meet fun _ x hc hx =>
    ⟨(mem_of_meet hc hx).1, x, (mem_of_meet hc hx).2, rfl⟩

end Ordering

section NotEqual

theorem notEqual_attained (h : a.notEqual b = some c) :
    Related (fun x y => x ≠ y) a b c.lo ∧ Related (fun x y => x ≠ y) a b c.hi := by
  have ha := a.lo_le_hi
  -- only the sole number of `b` differs from no number of `b`
  have hother : ∀ x, x ∈ a → ¬ (b.lo = b.hi ∧ x = b.lo) → Related (fun x y => x ≠ y) a b x := by
    intro x hx hne
    by_cases hlo : x = b.lo
    · exact ⟨hx, b.hi, b.hi_mem, by omega⟩
    · exact ⟨hx, b.lo, b.lo_mem, hlo⟩
  simp only [notEqual, isPoint, beq_iff_eq] at h
  split at h
  · split at h
    · split at h
      · cases h
        exact ⟨hother _ (mem_def.2 (by simp only; omega)) (by simp only; omega),
          hother _ (mem_def.2 (by simp only; omega)) (by simp only; omega)⟩
      · cases h
    · split at h
      · cases h
        exact ⟨hother _ (mem_def.2 (by simp only; omega)) (by simp only; omega),
          hother _ (mem_def.2 (by simp only; omega)) (by simp only; omega)⟩
      · cases h
        exact ⟨hother _ a.lo_mem (by omega), hother _ a.hi_mem (by omega)⟩
  · cases h
    exact ⟨hother _ a.lo_mem (by omega), hother _ a.hi_mem (by omega)⟩

theorem isSmallestOf_notEqual (a b : Interval) :
    IsSmallestOf (Related (fun x y => x ≠ y) a b) (a.notEqual b) := by
  cases h : a.notEqual b with
  | none => exact not_related_of_none keepsRelated_notEqual h
  | some c =>
    obtain ⟨hlo, hhi⟩ := notEqual_attained h
    exact isSmallest_of_attained (fun _ => mem_of_related keepsRelated_notEqual h) hlo hhi

end NotEqual

section Words

/-- What `>` leaves, if the number after the least one of `b` is a word where it is used. -/
def greaterInWords? (a b : Interval) : Option (Option (Int × Int)) :=
  if b.lo < maxInt then
    (signedWord? (b.lo + 1)).map fun least => (a.meet (atLeast least)).map bounds
  else some none

/-- What `<` leaves, if the number before the greatest one of `b` is a word where it is used. -/
def lessInWords? (a b : Interval) : Option (Option (Int × Int)) :=
  if minInt < b.hi then
    (signedWord? (b.hi - 1)).map fun most => (a.meet (atMost most)).map bounds
  else some none

/-- What `≠` leaves, if the endpoint after or before the one that is dropped is a word. -/
def notEqualInWords? (a b : Interval) : Option (Option (Int × Int)) :=
  if b.isPoint then
    if a.isPoint && a.lo == b.lo then some none
    else if b.lo = a.lo then (signedWord? (a.lo + 1)).map fun lo => some (lo, a.hi)
    else if b.lo = a.hi then (signedWord? (a.hi - 1)).map fun hi => some (a.lo, hi)
    else some (some a.bounds)
  else some (some a.bounds)

theorem greaterInWords?_eq (a b : Interval) :
    a.greaterInWords? b = some ((a.greater b).map bounds) := by
  have hb := b.minInt_le_lo
  unfold greaterInWords? greater
  split
  · rw [signedWord?_of_fits (by omega) (by omega)]
    rfl
  · rfl

theorem lessInWords?_eq (a b : Interval) :
    a.lessInWords? b = some ((a.less b).map bounds) := by
  have hb := b.hi_le_maxInt
  unfold lessInWords? less
  split
  · rw [signedWord?_of_fits (by omega) (by omega)]
    rfl
  · rfl

theorem notEqualInWords?_eq (a b : Interval) :
    a.notEqualInWords? b = some ((a.notEqual b).map bounds) := by
  have hlo := a.minInt_le_lo
  have hhi := a.hi_le_maxInt
  have hle := a.lo_le_hi
  simp only [notEqualInWords?, notEqual, isPoint, Bool.and_eq_true, beq_iff_eq]
  by_cases hb : b.lo = b.hi
  · by_cases hleast : b.lo = a.lo
    · by_cases ha : a.lo < a.hi
      · have hword := signedWord?_of_fits (x := a.lo + 1) (by omega) (by omega)
        rw [if_pos hb, if_pos hb, if_neg (by omega), if_pos hleast, dif_pos hleast, dif_pos ha,
          hword]
        rfl
      · rw [if_pos hb, if_pos hb, if_pos (by omega), dif_pos hleast, dif_neg ha]
        rfl
    · by_cases hmost : b.lo = a.hi
      · have hword := signedWord?_of_fits (x := a.hi - 1) (by omega) (by omega)
        rw [if_pos hb, if_pos hb, if_neg (by omega), if_neg hleast, if_pos hmost, dif_neg hleast,
          dif_pos hmost, hword]
        rfl
      · rw [if_pos hb, if_pos hb, if_neg (by omega), if_neg hleast, if_neg hmost, dif_neg hleast,
          dif_neg hmost]
        rfl
  · rw [if_neg hb, if_neg hb]
    rfl

end Words

def narrowBy : Relation → Interval → Interval → Option Interval
  | .lt => less
  | .le => lessOrEqual
  | .gt => greater
  | .ge => greaterOrEqual
  | .eq => meet
  | .ne => notEqual

/-- Something is left exactly if the relation holds of some pair. -/
theorem isSome_narrowBy (rel : Relation) (a b : Interval) :
    (narrowBy rel a b).isSome = true ↔ ∃ x ∈ a, ∃ y ∈ b, rel.holds x y = true := by
  cases rel <;> simp only [Relation.holds, decide_eq_true_eq]
  · exact (isExactly_less a b).isSome_iff
  · exact (isExactly_lessOrEqual a b).isSome_iff
  · exact (isExactly_greater a b).isSome_iff
  · exact (isExactly_greaterOrEqual a b).isSome_iff
  · exact (isExactly_meet a b).isSome_iff
  · exact (isSmallestOf_notEqual a b).isSome_iff

end Interval

theorem Relation.holds_negation (rel : Relation) (x y : Int) :
    rel.negation.holds x y = !rel.holds x y := by
  rw [Bool.eq_iff_iff]
  cases rel <;> simp [negation, holds]

namespace Value

variable {v w : Value} {i j : Interval}

theorem restrict_of_ranges (rel : Relation) (hv : v.range? = some i) (hw : w.range? = some j) :
    v.restrict rel w = narrowRange (Interval.narrowBy rel) v w := by
  rcases range?_eq_some hv with rfl | rfl <;> rcases range?_eq_some hw with rfl | rfl <;>
    cases rel <;> rfl

theorem isEmpty_narrowRange {narrow : Interval → Interval → Option Interval}
    (hv : v.range? = some i) (hw : w.range? = some j) :
    (!(narrowRange narrow v w).isEmpty) = (narrow i j).isSome := by
  unfold narrowRange
  rcases range?_eq_some hv with rfl | rfl
  · simp only [hw]
    cases narrow i j <;> rfl
  · simp only [hw]
    cases narrow i j <;> rfl

theorem test_of_ranges (rel : Relation) (hv : v.range? = some i) (hw : w.range? = some j) :
    v.test rel w = .ok (ofFlags (Interval.narrowBy rel i j).isSome
      (Interval.narrowBy rel.negation i j).isSome) := by
  have hplain : ∀ {u : Value} {k : Interval}, u.range? = some k →
      u.isEmpty = false ∧ u.isNull = false := by
    intro u k hu
    rcases range?_eq_some hu with rfl | rfl <;> exact ⟨rfl, rfl⟩
  rw [test, restrict_of_ranges rel hv hw, restrict_of_ranges rel.negation hv hw,
    isEmpty_narrowRange hv hw, isEmpty_narrowRange hv hw, (hplain hv).1, (hplain hv).2,
    (hplain hw).1, (hplain hw).2]
  simp

theorem test_eq_boolean (rel : Relation) (hv : v.range? = some i) (hw : w.range? = some j) :
    v.test rel w = .ok (boolean (Interval.narrowBy rel i j).isSome
      (Interval.narrowBy rel.negation i j).isSome) := by
  rw [test_of_ranges rel hv hw, ofFlags, if_pos]
  rw [Bool.or_eq_true, Interval.isSome_narrowBy, Interval.isSome_narrowBy]
  cases h : rel.holds i.lo j.lo with
  | true => exact .inl ⟨i.lo, i.lo_mem, j.lo, j.lo_mem, h⟩
  | false =>
    refine .inr ⟨i.lo, i.lo_mem, j.lo, j.lo_mem, ?_⟩
    rw [Relation.holds_negation, h]
    rfl

end Value

namespace Interval

/-- An ordering leaves exactly the numbers that are so related to some number of the other interval,
and `≠` the smallest interval around them; the endpoints next to the bounds are words wherever they
are used. So a comparison of numbers or characters can be true, or false, exactly if it is so of
some pair. -/
theorem narrowing_is_exact (a b : Interval) :
    IsExactly (fun x => x ∈ a ∧ ∃ y ∈ b, y < x) (a.greater b) ∧
    IsExactly (fun x => x ∈ a ∧ ∃ y ∈ b, y ≤ x) (a.greaterOrEqual b) ∧
    IsExactly (fun x => x ∈ a ∧ ∃ y ∈ b, x < y) (a.less b) ∧
    IsExactly (fun x => x ∈ a ∧ ∃ y ∈ b, x ≤ y) (a.lessOrEqual b) ∧
    IsSmallestOf (fun x => x ∈ a ∧ ∃ y ∈ b, x ≠ y) (a.notEqual b) ∧
    a.greaterInWords? b = some ((a.greater b).map bounds) ∧
    a.lessInWords? b = some ((a.less b).map bounds) ∧
    a.notEqualInWords? b = some ((a.notEqual b).map bounds) ∧
    ∀ (rel : Relation) (v w : Value), v.range? = some a → w.range? = some b →
      ∃ canBeTrue canBeFalse, v.test rel w = .ok (.boolean canBeTrue canBeFalse) ∧
        (canBeTrue = true ↔ ∃ x ∈ a, ∃ y ∈ b, rel.holds x y = true) ∧
        (canBeFalse = true ↔ ∃ x ∈ a, ∃ y ∈ b, rel.holds x y = false) := by
  refine ⟨isExactly_greater a b, isExactly_greaterOrEqual a b, isExactly_less a b,
    isExactly_lessOrEqual a b, isSmallestOf_notEqual a b, greaterInWords?_eq a b,
    lessInWords?_eq a b, notEqualInWords?_eq a b, fun rel v w hv hw => ?_⟩
  refine ⟨_, _, Value.test_eq_boolean rel hv hw, isSome_narrowBy rel a b, ?_⟩
  rw [isSome_narrowBy]
  simp only [Relation.holds_negation, Bool.not_eq_true']

end Interval

theorem none_above_greatest :
    (Value.integer .full).range? = some .full ∧
    (Value.int maxInt).range? = some (.point maxInt) ∧
    (Value.integer .full).test .gt (.int maxInt) = .ok (.boolean false true) := by
  refine ⟨rfl, rfl, ?_⟩
  obtain ⟨-, -, -, -, -, -, -, -, hcompare⟩ := Interval.narrowing_is_exact .full (.point maxInt)
  obtain ⟨t, f, htest, ht, hf⟩ := hcompare .gt (.integer .full) (.int maxInt) rfl rfl
  have hgreatest : t = false := by
    rw [Bool.eq_false_iff, Ne, ht]
    rintro ⟨x, hx, y, hy, h⟩
    have hxy : y < x := of_decide_eq_true h
    have hmost : x ≤ maxInt := hx.2
    have hleast : maxInt ≤ y := hy.1
    omega
  have hequal : f = true := hf.2 ⟨maxInt, by decide, maxInt, by decide, by decide⟩
  rw [htest, hgreatest, hequal]

end ValueFlow
