import ValueFlow.Proofs.Arithmetic

namespace ValueFlow

namespace Relation

def holds (rel : Relation) (m n : Int) : Bool :=
  match rel with
  | lt => m < n
  | le => m ≤ n
  | gt => n < m
  | ge => n ≤ m
  | eq => m = n
  | ne => m ≠ n

/-- The outcome of a comparison: numbers are ordered, truth values only equal or not. -/
def eval? (rel : Relation) : Concrete → Concrete → Option Bool
  | .number m, .number n => some (rel.holds m n)
  | .bool b, .bool c =>
    match rel with
    | eq => some (b = c)
    | ne => some (b ≠ c)
    | _ => none
  | _, _ => none

/-- The comparison holds of two values: an ordering of numbers, `≠` of what is not null. -/
def Holds (rel : Relation) (x y : Concrete) : Prop :=
  match rel with
  | eq => x = y
  | ne => x ≠ y ∧ x ≠ .null ∧ y ≠ .null
  | rel => ∃ m n, x = .number m ∧ y = .number n ∧ rel.holds m n = true

/-- The comparison with the outcome `b`: the relation itself, or its negation. -/
def withOutcome (rel : Relation) (b : Bool) : Relation := if b then rel else rel.negation

theorem holds_withOutcome {rel : Relation} {x y : Concrete} {b : Bool}
    (h : rel.eval? x y = some b) : (rel.withOutcome b).Holds x y := by
  unfold eval? at h
  split at h
  · rename_i m n
    cases h
    cases rel <;> cases hb : holds _ m n <;>
      simp only [holds, decide_eq_true_eq, decide_eq_false_iff_not] at hb <;>
      simp [withOutcome, negation, Holds, holds] <;> omega
  · rename_i c d
    cases rel <;> cases h <;> cases c <;> cases d <;> simp [withOutcome, negation, Holds]
  · cases h

theorem holds_converse {rel : Relation} {x y : Concrete} (h : rel.Holds x y) :
    rel.converse.Holds y x := by
  cases rel with
  | eq => exact h.symm
  | ne => exact ⟨h.1.symm, h.2.2, h.2.1⟩
  | _ =>
    obtain ⟨m, n, hx, hy, h⟩ := h
    exact ⟨n, m, hy, hx, h⟩

end Relation

/-- The narrowing keeps every number that is related to some number of the second interval. -/
def Interval.KeepsRelated (narrow : Interval → Interval → Option Interval) (R : Int → Int → Prop) :
    Prop :=
  ∀ {a b : Interval} {m n : Int}, m ∈ a → n ∈ b → R m n → ∃ c, narrow a b = some c ∧ m ∈ c

namespace Interval

theorem mem_atLeast {x n : Int} (h : saturate n ≤ x) (hx : x ≤ maxInt) : x ∈ atLeast n := ⟨h, hx⟩

theorem mem_atMost {x n : Int} (h : x ≤ saturate n) (hx : minInt ≤ x) : x ∈ atMost n := ⟨hx, h⟩

theorem keepsRelated_greater : KeepsRelated greater fun m n => n < m := by
  intro a b m n hm hn h
  have ha := a.hi_le_maxInt
  have hb := b.minInt_le_lo
  have hm' := mem_def.1 hm
  rw [mem_def] at hn
  unfold greater
  -- no overflow: `n` lies below some number, so the bound after it exists
  rw [if_pos (by omega)]
  refine meet_isSome_of_mem hm (mem_atLeast ?_ (by omega))
  rw [saturate_eq_self (by omega) (by omega)]
  omega

theorem keepsRelated_less : KeepsRelated less fun m n => m < n := by
  intro a b m n hm hn h
  have ha := a.minInt_le_lo
  have hb := b.hi_le_maxInt
  have hm' := mem_def.1 hm
  rw [mem_def] at hn
  unfold less
  rw [if_pos (by omega)]
  refine meet_isSome_of_mem hm (mem_atMost ?_ (by omega))
  rw [saturate_eq_self (by omega) (by omega)]
  omega

theorem keepsRelated_greaterOrEqual : KeepsRelated greaterOrEqual fun m n => n ≤ m := by
  intro a b m n hm hn h
  have ha := a.hi_le_maxInt
  have hb := b.minInt_le_lo
  have hm' := mem_def.1 hm
  rw [mem_def] at hn
  refine meet_isSome_of_mem hm (mem_atLeast ?_ (by omega))
  rw [saturate_eq_self hb (by omega)]
  omega

theorem keepsRelated_lessOrEqual : KeepsRelated lessOrEqual fun m n => m ≤ n := by
  intro a b m n hm hn h
  have ha := a.minInt_le_lo
  have hb := b.hi_le_maxInt
  have hm' := mem_def.1 hm
  rw [mem_def] at hn
  refine meet_isSome_of_mem hm (mem_atMost ?_ (by omega))
  rw [saturate_eq_self (by omega) hb]
  omega

theorem keepsRelated_notEqual : KeepsRelated notEqual fun m n => m ≠ n := by
  intro a b m n hm hn h
  rw [mem_def] at hn
  have hm' := mem_def.1 hm
  unfold notEqual
  -- only a single number can be cut off, and only at an end of the interval
  split
  · rename_i hpoint
    simp only [isPoint, beq_iff_eq] at hpoint
    split
    · rw [dif_pos (by omega)]
      exact ⟨_, rfl, mem_def.2 (by simp only; omega)⟩
    · split
      · exact ⟨_, rfl, mem_def.2 (by simp only; omega)⟩
      · exact ⟨a, rfl, hm⟩
  · exact ⟨a, rfl, hm⟩

end Interval

namespace Value

variable {a b v : Value} {x y : Concrete} {m n : Int} {rel : Relation}
  {narrow : Interval → Interval → Option Interval} {R : Int → Int → Prop}

theorem mem_narrowRange (h : Interval.KeepsRelated narrow R) (hx : x ∈ a) (hy : y ∈ b)
    (hR : ∀ m n, x = .number m → y = .number n → R m n) : x ∈ narrowRange narrow a b := by
  have hnumber : ∀ (i j : Interval) (m : Int), m ∈ i → x = .number m → b.range? = some j →
      ∃ c, narrow i j = some c ∧ m ∈ c := by
    intro i j m hm hxm hj
    have hy' : ∃ n ∈ j, y = .number n := by
      rcases range?_eq_some hj with rfl | rfl <;> exact hy
    obtain ⟨n, hn, hyn⟩ := hy'
    exact h hm hn (hR m n hxm hyn)
  unfold narrowRange
  split
  · rename_i i j hj
    obtain ⟨m, hm, hxm⟩ := hx
    obtain ⟨c, hc, hmc⟩ := hnumber i j m hm hxm hj
    exact mem_integerOf.2 ⟨c, hc, m, hmc, hxm⟩
  · rename_i i j hj
    obtain ⟨m, hm, hxm⟩ := hx
    obtain ⟨c, hc, hmc⟩ := hnumber i j m hm hxm hj
    exact mem_charOf.2 ⟨c, hc, m, hmc, hxm⟩
  · exact hx

theorem isEmpty_eq_false (hx : x ∈ v) : v.isEmpty = false := by
  cases v <;> first | rfl | exact hx.elim

theorem isNull_eq_false (hx : x ∈ v) (hne : x ≠ .null) : v.isNull = false := by
  cases v <;> first | rfl | exact absurd hx hne

theorem mem_restrictOrderedRight (h : Interval.KeepsRelated narrow R) (ha : .number m ∈ a)
    (hb : .number n ∈ b) (hR : R m n) : .number m ∈ restrictOrderedRight narrow a b := by
  have hae := isEmpty_eq_false ha
  have han := isNull_eq_false ha (by simp)
  induction b with
  | boxed b w ih =>
    rw [restrictOrderedRight, hae, han]
    exact ih (number_mem_boxed.1 hb)
  | _ =>
    rw [restrictOrderedRight, hae, han, isEmpty_eq_false hb, isNull_eq_false hb (by simp)]
    · refine mem_narrowRange h ha hb fun m' n' hm hn => ?_
      cases hm
      cases hn
      exact hR
    · simp

theorem mem_restrictOrdered (h : Interval.KeepsRelated narrow R) (ha : .number m ∈ a)
    (hb : .number n ∈ b) (hR : R m n) : .number m ∈ restrictOrdered narrow a b := by
  induction a with
  | boxed a w ih =>
    rw [restrictOrdered, isEmpty_eq_false hb, isNull_eq_false hb (by simp)]
    exact mem_box.2 (number_mem_boxed.2 (ih (number_mem_boxed.1 ha)))
  | _ =>
    rw [restrictOrdered]
    · exact mem_restrictOrderedRight h ha hb hR
    · simp

theorem mem_restrictEqualFlat (ha : x ∈ a) (hb : x ∈ b) : x ∈ restrictEqualFlat a b := by
  unfold restrictEqualFlat
  split
  · rename_i i j hj
    rcases range?_eq_some hj with rfl | rfl <;>
      exact HoldsNumbers.mem_meet (k := integer) (.inl rfl) ha hb
  · rename_i i j hj
    rcases range?_eq_some hj with rfl | rfl <;>
      exact HoldsNumbers.mem_meet (k := char) (.inr rfl) ha hb
  · split
    · exact ha
    · exact mem_intersect ha hb

theorem mem_getD_restrictEqual (ha : x ∈ a) (hb : x ∈ b) :
    x ∈ (restrictEqualNull a b).getD (restrictEqualFlat a b) := by
  unfold restrictEqualNull
  rw [isEmpty_eq_false ha, isEmpty_eq_false hb]
  simp only [Bool.or_false, Bool.false_eq_true, if_false]
  split
  · rename_i hn
    cases b <;> cases hn
    cases hb
    exact mem_onlyNull.2 ⟨mayBeNull_of_mem ha, rfl⟩
  · split
    · rename_i hn
      cases a <;> cases hn
      cases ha
      exact mem_onlyNull.2 ⟨mayBeNull_of_mem hb, rfl⟩
    · exact mem_restrictEqualFlat ha hb

theorem mem_of_mem_boxed {w : Bool} (h : x ∈ boxed v w) (hne : x ≠ .null) : x ∈ v := by
  rcases h with ⟨-, hx⟩ | ⟨-, hx⟩
  · exact absurd hx hne
  · exact hx

theorem mem_restrictEqualPrimitive (hp : a.isPrimitive = true) (ha : x ∈ a) (hb : x ∈ b) :
    x ∈ restrictEqualPrimitive a b := by
  induction b with
  | boxed b w ih => exact ih (mem_of_mem_boxed hb (ne_null_of_isPrimitive hp ha))
  | _ => exact mem_getD_restrictEqual ha hb

theorem mem_restrictEqual (ha : x ∈ a) (hb : x ∈ b) : x ∈ restrictEqual a b := by
  fun_induction restrictEqual a b with
  | case1 v w b hp ih =>
    have hne := ne_null_of_isPrimitive hp hb
    exact mem_box.2 (.inr ⟨hne, ih (mem_of_mem_boxed ha hne) hb⟩)
  | case2 => exact mem_getD_restrictEqual ha hb
  | case3 a b _ hp => exact mem_restrictEqualPrimitive hp ha hb
  | case4 => exact mem_getD_restrictEqual ha hb

theorem mem_boolean_of_flags? {t f : Bool} (h : v.flags? = some (t, f)) (hx : x ∈ v)
    (hne : x ≠ .null) : x ∈ boolean t f := by
  induction v with
  | boolean t' f' =>
    cases h
    exact hx
  | boxed v w ih => exact ih h (mem_of_mem_boxed hx hne)
  | _ => cases h

theorem restrictNotEqualNull_eq_none (ha : x ∈ a) (hb : y ∈ b) (hx : x ≠ .null) (hy : y ≠ .null) :
    restrictNotEqualNull a b = none := by
  simp [restrictNotEqualNull, isEmpty_eq_false ha, isEmpty_eq_false hb, isNull_eq_false ha hx,
    isNull_eq_false hb hy]

theorem mem_restrictNotEqualFlat (ha : x ∈ a) (hb : y ∈ b) (hxy : x ≠ y) (hy : y ≠ .null) :
    x ∈ restrictNotEqualFlat a b := by
  unfold restrictNotEqualFlat
  split
  · rename_i t f
    split
    · rename_i hflags
      have hb' := mem_boolean_of_flags? hflags hb hy
      simp only [mem_boolean] at hb'
      refine mem_ofFlags.2 ?_
      rcases ha with ⟨-, hx⟩ | hx
      · simp_all
      · exact .inr hx
    · rename_i hflags
      have hb' := mem_boolean_of_flags? hflags hb hy
      simp only [mem_boolean] at hb'
      refine mem_ofFlags.2 ?_
      rcases ha with hx | ⟨-, hx⟩
      · exact .inl hx
      · simp_all
    · exact ha
  · refine mem_narrowRange Interval.keepsRelated_notEqual ha hb fun m n hm hn hmn => hxy ?_
    rw [hm, hn, hmn]

theorem mem_restrictNotEqualPrimitive (ha : x ∈ a) (hb : y ∈ b) (hxy : x ≠ y) (hx : x ≠ .null)
    (hy : y ≠ .null) : x ∈ restrictNotEqualPrimitive a b := by
  induction b with
  | boxed b w ih =>
    cases a with
    | boolean t f => exact mem_restrictNotEqualFlat ha hb hxy hy
    | _ => exact ih (mem_of_mem_boxed hb hy)
  | _ =>
    show x ∈ (restrictNotEqualNull a _).getD (restrictNotEqualFlat a _)
    rw [restrictNotEqualNull_eq_none ha hb hx hy]
    exact mem_restrictNotEqualFlat ha hb hxy hy

theorem mem_restrictNotEqual (ha : x ∈ a) (hb : y ∈ b) (hxy : x ≠ y) (hx : x ≠ .null)
    (hy : y ≠ .null) : x ∈ restrictNotEqual a b := by
  fun_induction restrictNotEqual a b with
  | case1 v w b hp ih => exact mem_box.2 (.inr ⟨hx, ih (mem_of_mem_boxed ha hx) hb⟩)
  | case2 v w b hp =>
    rw [restrictNotEqualNull_eq_none ha hb hx hy]
    exact ha
  | case3 => exact mem_restrictNotEqualPrimitive ha hb hxy hx hy
  | case4 =>
    rw [restrictNotEqualNull_eq_none ha hb hx hy]
    exact ha

/-- Narrowing keeps each value that compares as stated with some value of the other operand. -/
theorem mem_restrict (h : rel.Holds x y) (hx : x ∈ a) (hy : y ∈ b) : x ∈ a.restrict rel b := by
  cases rel with
  | eq =>
    cases h
    exact mem_restrictEqual hx hy
  | ne => exact mem_restrictNotEqual hx hy h.1 h.2.1 h.2.2
  | lt =>
    obtain ⟨m, n, rfl, rfl, h⟩ := h
    exact mem_restrictOrdered Interval.keepsRelated_less hx hy (of_decide_eq_true h)
  | le =>
    obtain ⟨m, n, rfl, rfl, h⟩ := h
    exact mem_restrictOrdered Interval.keepsRelated_lessOrEqual hx hy (of_decide_eq_true h)
  | gt =>
    obtain ⟨m, n, rfl, rfl, h⟩ := h
    exact mem_restrictOrdered Interval.keepsRelated_greater hx hy (of_decide_eq_true h)
  | ge =>
    obtain ⟨m, n, rfl, rfl, h⟩ := h
    exact mem_restrictOrdered Interval.keepsRelated_greaterOrEqual hx hy (of_decide_eq_true h)

/-- A comparison foresees the outcome it has. -/
theorem test_eq (h : rel.Holds x y ∨ rel.negation.Holds x y) (hx : x ∈ a) (hy : y ∈ b) :
    a.test rel b =
      .ok (ofFlags (!(a.restrict rel b).isEmpty) (!(a.restrict rel.negation b).isEmpty)) := by
  have hnull : (rel.isOrdering && (a.isNull || b.isNull)) = false := by
    cases hrel : rel.isOrdering with
    | false => rfl
    | true =>
      have hnumbers : ∃ m n, x = .number m ∧ y = .number n := by
        cases rel <;> cases hrel <;>
          rcases h with ⟨m, n, hm, hn, -⟩ | ⟨m, n, hm, hn, -⟩ <;> exact ⟨m, n, hm, hn⟩
      obtain ⟨m, n, rfl, rfl⟩ := hnumbers
      rw [isNull_eq_false hx (by simp), isNull_eq_false hy (by simp)]
      rfl
  unfold test
  rw [isEmpty_eq_false hx, isEmpty_eq_false hy, hnull]
  rfl

theorem mem_test {c : Bool} (h : rel.eval? x y = some c) (hx : x ∈ a) (hy : y ∈ b) :
    .bool c ∈ (a.test rel b).value := by
  cases c with
  | true =>
    have hc : rel.Holds x y := Relation.holds_withOutcome h
    rw [test_eq (.inl hc) hx hy]
    refine mem_ofFlags.2 (.inl ⟨?_, rfl⟩)
    rw [isEmpty_eq_false (mem_restrict hc hx hy)]
    rfl
  | false =>
    have hc : rel.negation.Holds x y := Relation.holds_withOutcome h
    rw [test_eq (.inr hc) hx hy]
    refine mem_ofFlags.2 (.inr ⟨?_, rfl⟩)
    rw [isEmpty_eq_false (mem_restrict hc hx hy)]
    rfl

theorem flag_of_mem {c t f : Bool} (h : v.flags? = some (t, f)) (hc : .bool c ∈ v) :
    (if c then t else f) = true := by
  have hmem := mem_boolean_of_flags? h hc (by simp)
  rw [mem_boolean] at hmem
  cases c <;> simp_all

theorem flags?_of_mem_ofFlags {c t f : Bool} (h : .bool c ∈ ofFlags t f) :
    (ofFlags t f).flags? = some (t, f) := by
  cases t <;> cases f <;> first | rfl | exact h.elim

theorem flags?_test {c : Bool} (h : rel.eval? x y = some c) (hx : x ∈ a) (hy : y ∈ b) :
    ∃ t f, (a.test rel b).value.flags? = some (t, f) ∧ (if c then t else f) = true := by
  have hmem := mem_test h hx hy
  have hholds : rel.Holds x y ∨ rel.negation.Holds x y := by
    cases c with
    | true => exact .inl (Relation.holds_withOutcome h)
    | false => exact .inr (Relation.holds_withOutcome h)
  rw [test_eq hholds hx hy] at hmem ⊢
  have hflags := flags?_of_mem_ofFlags hmem
  exact ⟨_, _, hflags, flag_of_mem hflags hmem⟩

end Value

end ValueFlow
