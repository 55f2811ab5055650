import ValueFlow.Proofs.Arithmetic

namespace ValueFlow

def signedWord? (x : Int) : Option Int := if minInt ≤ x ∧ x ≤ maxInt then some x else none

def unsignedWord? (x : Int) : Option Int :=
  if 0 ≤ x ∧ x ≤ 18446744073709551615 then some x else none

theorem signedWord?_of_fits {x : Int} (hlo : minInt ≤ x) (hhi : x ≤ maxInt) :
    signedWord? x = some x := if_pos ⟨hlo, hhi⟩

theorem unsignedWord?_of_fits {x : Int} (hlo : 0 ≤ x) (hhi : x ≤ 18446744073709551615) :
    unsignedWord? x = some x := if_pos ⟨hlo, hhi⟩

namespace Interval

variable {a b c : Interval} {m n : Int}

def bounds (a : Interval) : Int × Int := (a.lo, a.hi)

theorem lo_mem (a : Interval) : a.lo ∈ a := ⟨Int.le_refl _, a.lo_le_hi⟩

theorem hi_mem (a : Interval) : a.hi ∈ a := ⟨a.lo_le_hi, Int.le_refl _⟩

/-- The interval contains the numbers of `S`, and every interval that does contains it. -/
structure IsSmallest (c : Interval) (S : Int → Prop) : Prop where
  mem : ∀ x, S x → x ∈ c
  least : ∀ d : Interval, (∀ x, S x → x ∈ d) → d.includes c = true

theorem isSmallest_of_attained {S : Int → Prop} (hmem : ∀ x, S x → x ∈ c) (hlo : S c.lo)
    (hhi : S c.hi) : c.IsSmallest S where
  mem := hmem
  least d hd := by
    have hl := (mem_def.1 (hd _ hlo)).1
    have hh := (mem_def.1 (hd _ hhi)).2
    exact includes_iff.2 ⟨hl, hh⟩

/-- The results of an operation on the numbers of two intervals, brought back into the 64-bit
range. -/
def Results (f : Int → Int → Int) (a b : Interval) (r : Int) : Prop :=
  ∃ x ∈ a, ∃ y ∈ b, r = saturate (f x y)

section Smallest

theorem isSmallest_add (a b : Interval) : (a.add b).IsSmallest (Results (· + ·) a b) := by
  apply isSmallest_of_attained
  · rintro r ⟨x, hx, y, hy, rfl⟩
    exact mem_add hx hy
  · exact ⟨a.lo, a.lo_mem, b.lo, b.lo_mem, rfl⟩
  · exact ⟨a.hi, a.hi_mem, b.hi, b.hi_mem, rfl⟩

theorem isSmallest_sub (a b : Interval) : (a.sub b).IsSmallest (Results (· - ·) a b) := by
  apply isSmallest_of_attained
  · rintro r ⟨x, hx, y, hy, rfl⟩
    exact mem_sub hx hy
  · exact ⟨a.lo, a.lo_mem, b.hi, b.hi_mem, rfl⟩
  · exact ⟨a.hi, a.hi_mem, b.lo, b.lo_mem, rfl⟩

theorem isSmallest_neg (a : Interval) :
    a.neg.IsSmallest fun r => ∃ x ∈ a, r = saturate (-x) := by
  apply isSmallest_of_attained
  · rintro r ⟨x, hx, rfl⟩
    exact mem_neg hx
  · exact ⟨a.hi, a.hi_mem, rfl⟩
  · exact ⟨a.lo, a.lo_mem, rfl⟩

/-- An operation that stays between its values at the corners attains the bounds there. -/
theorem isSmallest_ofCorners {f : Int → Int → Int}
    (hmem : ∀ x ∈ a, ∀ y ∈ b, saturate (f x y) ∈
      ofCorners (f a.lo b.lo) (f a.lo b.hi) (f a.hi b.lo) (f a.hi b.hi)) :
    (ofCorners (f a.lo b.lo) (f a.lo b.hi) (f a.hi b.lo) (f a.hi b.hi)).IsSmallest
      (Results f a b) := by
  have hcorner : ∀ z, z = f a.lo b.lo ∨ z = f a.lo b.hi ∨ z = f a.hi b.lo ∨ z = f a.hi b.hi →
      Results f a b (saturate z) := by
    rintro z (rfl | rfl | rfl | rfl)
    · exact ⟨a.lo, a.lo_mem, b.lo, b.lo_mem, rfl⟩
    · exact ⟨a.lo, a.lo_mem, b.hi, b.hi_mem, rfl⟩
    · exact ⟨a.hi, a.hi_mem, b.lo, b.lo_mem, rfl⟩
    · exact ⟨a.hi, a.hi_mem, b.hi, b.hi_mem, rfl⟩
  apply isSmallest_of_attained
  · rintro r ⟨x, hx, y, hy, rfl⟩
    exact hmem x hx y hy
  · exact hcorner _ (by omega)
  · exact hcorner _ (by omega)

theorem isSmallest_mul (a b : Interval) : (a.mul b).IsSmallest (Results (· * ·) a b) :=
  isSmallest_ofCorners fun _ hx _ hy => mem_mul hx hy

theorem div?_of_zero_notMem (h : 0 ∉ b) : a.div? b =
    some (ofCorners (a.lo.tdiv b.lo) (a.lo.tdiv b.hi) (a.hi.tdiv b.lo) (a.hi.tdiv b.hi)) :=
  if_neg h

theorem isSmallest_div? (h : 0 ∉ b) (hc : a.div? b = some c) :
    c.IsSmallest (Results Int.tdiv a b) := by
  have hmem : ∀ x ∈ a, ∀ y ∈ b, saturate (x.tdiv y) ∈ c := fun _ hx _ hy => mem_div? hx hy hc
  rw [div?_of_zero_notMem h, Option.some.injEq] at hc
  subst hc
  exact isSmallest_ofCorners hmem

end Smallest

section Remainder

theorem tmod_fits (hm : m ∈ a) : minInt ≤ m.tmod n ∧ m.tmod n ≤ maxInt := by
  have hlo := a.minInt_le_lo
  have hhi := a.hi_le_maxInt
  have hsign := tmod_between m n
  rw [mem_def] at hm
  unfold Between at hsign
  simp only [minInt, maxInt] at hlo hhi ⊢
  omega

theorem tmod_mem_rem? (hm : m ∈ a) (hn : n ∈ b) (hc : a.rem? b = some c) : m.tmod n ∈ c := by
  have hmem := mem_rem? hm hn hc
  obtain ⟨hlo, hhi⟩ := tmod_fits (n := n) hm
  rwa [saturate_eq_self hlo hhi] at hmem

theorem exists_rem? (h : 0 ∉ b) : ∃ c, a.rem? b = some c := by
  rw [rem?, if_neg h]
  split <;> exact ⟨_, rfl⟩

theorem rem?_of_points (h : 0 ∉ b) (ha : a.lo = a.hi) (hb : b.lo = b.hi) (hc : a.rem? b = some c) :
    c.lo = a.lo.tmod b.lo ∧ c.hi = a.lo.tmod b.lo := by
  have hpoints : (a.isPoint && b.isPoint) = true := by simp [isPoint, ha, hb]
  obtain ⟨hlo, hhi⟩ := tmod_fits (n := b.lo) a.lo_mem
  rw [rem?, if_neg h, if_pos hpoints, Option.some.injEq] at hc
  subst hc
  exact ⟨saturate_eq_self hlo hhi, saturate_eq_self hlo hhi⟩

theorem remainderBound_lt (h : 0 ∉ b) : b.remainderBound < max b.lo.natAbs b.hi.natAbs ∧
    (b.remainderBound : Int) ≤ maxInt := by
  have hlo := b.minInt_le_lo
  have hhi := b.hi_le_maxInt
  have hle := b.lo_le_hi
  rw [mem_def] at h
  simp only [minInt, maxInt] at hlo hhi ⊢
  unfold remainderBound
  omega

theorem rem?_bounds (h : 0 ∉ b) (hpoints : ¬ (a.lo = a.hi ∧ b.lo = b.hi))
    (hc : a.rem? b = some c) :
    c.lo = (if a.lo < 0 then max a.lo (-b.remainderBound) else 0) ∧
      c.hi = if 0 < a.hi then min a.hi b.remainderBound else 0 := by
  have hlo := a.minInt_le_lo
  have hhi := a.hi_le_maxInt
  have hle := a.lo_le_hi
  have hbound := (remainderBound_lt h).2
  have hnot : (a.isPoint && b.isPoint) ≠ true := by simpa [isPoint] using hpoints
  rw [rem?, if_neg h, if_neg hnot, Option.some.injEq] at hc
  subst hc
  simp only [minInt, maxInt] at hlo hhi hbound
  constructor
  · apply saturate_eq_self <;> simp only [minInt, maxInt] <;> split <;> omega
  · apply saturate_eq_self <;> simp only [minInt, maxInt] <;> split <;> omega

theorem rem?_within (h : 0 ∉ b) (hpoints : ¬ (a.lo = a.hi ∧ b.lo = b.hi))
    (hc : a.rem? b = some c) :
    ((point 0).hull a).includes c = true ∧
      ∀ r ∈ c, r.natAbs < max b.lo.natAbs b.hi.natAbs := by
  obtain ⟨hlo, hhi⟩ := rem?_bounds h hpoints hc
  have hbound := (remainderBound_lt h).1
  have hzero : (point 0).lo = 0 ∧ (point 0).hi = 0 := ⟨rfl, rfl⟩
  constructor
  · rw [includes_iff, hlo, hhi]
    simp only [hull, hzero]
    constructor <;> split <;> omega
  · intro r hr
    rw [mem_def, hlo, hhi] at hr
    revert hr
    split <;> split <;> omega

end Remainder

section Words

def extremes (p q r s : Int) : Int × Int := (min (min p q) (min r s), max (max p q) (max r s))

theorem saturate_min (x y : Int) : saturate (min x y) = min (saturate x) (saturate y) := by
  simp only [saturate]
  omega

theorem saturate_max (x y : Int) : saturate (max x y) = max (saturate x) (saturate y) := by
  have hrange : minInt ≤ maxInt := by decide
  simp only [saturate]
  omega

/-- It makes no difference whether the corners or the bounds are brought back into the range. -/
theorem extremes_saturate (p q r s : Int) :
    extremes (saturate p) (saturate q) (saturate r) (saturate s) =
      (ofCorners p q r s).bounds := by
  simp only [extremes, bounds, ofCorners, saturated, saturate_min, saturate_max]

/-- The product's bounds, from four products each of which stops at the ends of the range. -/
def mulInWords (a b : Interval) : Int × Int :=
  extremes (saturate (a.lo * b.lo)) (saturate (a.lo * b.hi)) (saturate (a.hi * b.lo))
    (saturate (a.hi * b.hi))

/-- A quotient that stops at the ends of the range; there is none by zero. -/
def wordQuotient? (x y : Int) : Option Int := if y = 0 then none else some (saturate (x.tdiv y))

/-- The quotient's bounds, if no corner divides by zero. -/
def divInWords? (a b : Interval) : Option (Int × Int) := do
  let p ← wordQuotient? a.lo b.lo
  let q ← wordQuotient? a.lo b.hi
  let r ← wordQuotient? a.hi b.lo
  let s ← wordQuotient? a.hi b.hi
  return extremes p q r s

/-- The remainder of two words; that of the least number by minus one is found without dividing. -/
def wordRemainder? (x y : Int) : Option Int :=
  if y = 0 then none else if x = minInt ∧ y = -1 then some 0 else signedWord? (x.tmod y)

def remainderBoundInWords? (b : Interval) : Option Int := do
  let p ← unsignedWord? b.lo.natAbs
  let q ← unsignedWord? b.hi.natAbs
  let size ← unsignedWord? (max p q - 1)
  signedWord? size

/-- The remainder's bounds, if no step leaves its word. -/
def remInWords? (a b : Interval) : Option (Int × Int) :=
  if a.isPoint && b.isPoint then (wordRemainder? a.lo b.lo).map fun r => (r, r)
  else do
    let most ← remainderBoundInWords? b
    let least ← signedWord? (-most)
    return (if a.lo < 0 then max a.lo least else 0, if 0 < a.hi then min a.hi most else 0)

theorem divInWords?_eq (h : 0 ∉ b) (hc : a.div? b = some c) :
    a.divInWords? b = some c.bounds := by
  have hle := b.lo_le_hi
  rw [mem_def] at h
  have hquotient : ∀ x y, y ≠ 0 → wordQuotient? x y = some (saturate (x.tdiv y)) :=
    fun x y hy => if_neg hy
  have hlo : b.lo ≠ 0 := by omega
  have hhi : b.hi ≠ 0 := by omega
  rw [div?_of_zero_notMem h, Option.some.injEq] at hc
  subst hc
  simp only [divInWords?, hquotient _ _ hlo, hquotient _ _ hhi, Option.bind_eq_bind,
    Option.bind_some, extremes_saturate]
  rfl

theorem wordRemainder?_eq (hm : m ∈ a) (hn : n ≠ 0) : wordRemainder? m n = some (m.tmod n) := by
  obtain ⟨hlo, hhi⟩ := tmod_fits (n := n) hm
  rw [wordRemainder?, if_neg hn]
  split
  · rename_i hleast
    rw [hleast.1, hleast.2]
    rfl
  · exact signedWord?_of_fits hlo hhi

theorem remainderBoundInWords?_eq (h : 0 ∉ b) :
    b.remainderBoundInWords? = some (b.remainderBound : Int) := by
  have hlo := b.minInt_le_lo
  have hhi := b.hi_le_maxInt
  have hle := b.lo_le_hi
  have hbound := (remainderBound_lt h).2
  rw [mem_def] at h
  simp only [minInt, maxInt] at hlo hhi hbound
  have hp : unsignedWord? b.lo.natAbs = some (b.lo.natAbs : Int) :=
    unsignedWord?_of_fits (by omega) (by omega)
  have hq : unsignedWord? b.hi.natAbs = some (b.hi.natAbs : Int) :=
    unsignedWord?_of_fits (by omega) (by omega)
  -- one of the two sizes is positive, so that the difference does not fall below zero
  have hdifference : max (b.lo.natAbs : Int) b.hi.natAbs - 1 = b.remainderBound := by
    unfold remainderBound
    omega
  have hsize : unsignedWord? (b.remainderBound : Int) = some (b.remainderBound : Int) :=
    unsignedWord?_of_fits (by omega) (by omega)
  have hmost : signedWord? (b.remainderBound : Int) = some (b.remainderBound : Int) :=
    signedWord?_of_fits (by simp only [minInt]; omega) hbound
  simp only [remainderBoundInWords?, Option.bind_eq_bind, hp, hq, Option.bind_some, hdifference,
    hsize, hmost]

theorem remInWords?_eq (h : 0 ∉ b) (hc : a.rem? b = some c) :
    a.remInWords? b = some c.bounds := by
  by_cases hpoints : a.lo = a.hi ∧ b.lo = b.hi
  · obtain ⟨hclo, hchi⟩ := rem?_of_points h hpoints.1 hpoints.2 hc
    have hpoint : (a.isPoint && b.isPoint) = true := by simp [isPoint, hpoints]
    have hdivisor : b.lo ≠ 0 := fun hzero => h (hzero ▸ b.lo_mem)
    rw [remInWords?, if_pos hpoint, wordRemainder?_eq a.lo_mem hdivisor, bounds, hclo, hchi]
    rfl
  · obtain ⟨hclo, hchi⟩ := rem?_bounds h hpoints hc
    have hbound := (remainderBound_lt h).2
    have hpoint : (a.isPoint && b.isPoint) = false := by simpa [isPoint] using hpoints
    have hleast : signedWord? (-(b.remainderBound : Int)) = some (-(b.remainderBound : Int)) := by
      simp only [maxInt] at hbound
      exact signedWord?_of_fits (by simp only [minInt]; omega) (by simp only [maxInt]; omega)
    simp [remInWords?, bounds, hpoint, remainderBoundInWords?_eq h, hleast, hclo, hchi]

end Words

/-- The sum, the difference, the product, the negative and, unless the divisor is around zero, the
quotient of intervals are the smallest intervals around the results on their numbers. A remainder
contains the results; it is exact for two single numbers, and else lies between zero and the
dividend and below the greatest size of a divisor. In 64-bit words the same bounds come out, and
no step fails. -/
theorem arithmetic_is_tight (a b : Interval) :
    (a.add b).IsSmallest (Results (· + ·) a b) ∧
    (a.sub b).IsSmallest (Results (· - ·) a b) ∧
    (a.mul b).IsSmallest (Results (· * ·) a b) ∧
    a.mulInWords b = (a.mul b).bounds ∧
    (a.neg.IsSmallest fun r => ∃ x ∈ a, r = saturate (-x)) ∧
    (0 ∉ b →
      (∃ c, a.div? b = some c ∧ c.IsSmallest (Results Int.tdiv a b) ∧
        a.divInWords? b = some c.bounds) ∧
      ∃ c, a.rem? b = some c ∧ (∀ x ∈ a, ∀ y ∈ b, x.tmod y ∈ c) ∧
        (a.lo = a.hi → b.lo = b.hi → c.lo = a.lo.tmod b.lo ∧ c.hi = a.lo.tmod b.lo) ∧
        (¬ (a.lo = a.hi ∧ b.lo = b.hi) →
          ((point 0).hull a).includes c = true ∧
            ∀ r ∈ c, r.natAbs ≤ max b.lo.natAbs b.hi.natAbs - 1) ∧
        a.remInWords? b = some c.bounds) := by
  refine ⟨isSmallest_add a b, isSmallest_sub a b, isSmallest_mul a b, extremes_saturate _ _ _ _,
    isSmallest_neg a, fun hzero => ⟨?_, ?_⟩⟩
  · have hdiv := div?_of_zero_notMem (a := a) hzero
    exact ⟨_, hdiv, isSmallest_div? hzero hdiv, divInWords?_eq hzero hdiv⟩
  · obtain ⟨c, hrem⟩ := exists_rem? (a := a) hzero
    refine ⟨c, hrem, fun x hx y hy => tmod_mem_rem? hx hy hrem,
      fun ha hb => rem?_of_points hzero ha hb hrem, fun hpoints => ?_, remInWords?_eq hzero hrem⟩
    obtain ⟨hhull, hsize⟩ := rem?_within hzero hpoints hrem
    exact ⟨hhull, fun r hr => Nat.le_sub_one_of_lt (hsize r hr)⟩

def upToThree : Interval := saturated minInt 3 (by decide)

def smallNegatives : Interval := saturated (-4) (-1) (by decide)

/-- The least number over minus one lies beyond the range, and leaves no remainder. -/
theorem upToThree_over_smallNegatives : 0 ∉ smallNegatives ∧
    (∃ c, upToThree.div? smallNegatives = some c ∧ maxInt ∈ c ∧
      c.IsSmallest (Results Int.tdiv upToThree smallNegatives)) ∧
    ∃ c, upToThree.rem? smallNegatives = some c ∧ 0 ∈ c ∧ ∀ r ∈ c, r.natAbs ≤ 3 := by
  have hzero : 0 ∉ smallNegatives := by decide
  have hleast : minInt ∈ upToThree := by decide
  have hone : -1 ∈ smallNegatives := by decide
  obtain ⟨-, -, -, -, -, harith⟩ := arithmetic_is_tight upToThree smallNegatives
  obtain ⟨⟨c, hdiv, hsmallest, -⟩, d, hrem, hmem, -, hsize, -⟩ := harith hzero
  refine ⟨hzero, ⟨c, hdiv, ?_, hsmallest⟩, d, hrem, hmem _ hleast _ hone, (hsize (by decide)).2⟩
  exact hsmallest.mem _ ⟨minInt, hleast, -1, hone, by decide⟩

end Interval

end ValueFlow
