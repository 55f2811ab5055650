import ValueFlow.Proofs.Comparison

namespace ValueFlow

/-- The comparison can hold of a value `x` of `a` and a value `y` of `b`. Against a primitive, `!=`
compares contents, and unboxing null would fail. Otherwise it compares references, and only null is
sure to be one and the same. -/
def Relation.CanHold (rel : Relation) (a b : Value) (x y : Concrete) : Prop :=
  match rel with
  | .ne =>
    if a.isPrimitive || b.isPrimitive then x ≠ y ∧ x ≠ .null ∧ y ≠ .null
    else ¬ (x = .null ∧ y = .null)
  | rel => rel.Holds x y

namespace Value

variable {a b : Value} {x y : Concrete} {rel : Relation}

/-- References are told apart by their nullability only. -/
theorem restrictNotEqual_of_references (ha : a.isPrimitive = false) (hb : b.isPrimitive = false) :
    restrictNotEqual a b = (restrictNotEqualNull a b).getD a := by
  unfold restrictNotEqual
  split
  · rw [hb]
    rfl
  · rw [ha]
    rfl

theorem mem_restrictNotEqual_of_references (ha : a.isPrimitive = false)
    (hb : b.isPrimitive = false) (hx : x ∈ a) (hy : y ∈ b) (h : ¬ (x = .null ∧ y = .null)) :
    x ∈ restrictNotEqual a b := by
  rw [restrictNotEqual_of_references ha hb]
  unfold restrictNotEqualNull
  rw [isEmpty_eq_false hx, isEmpty_eq_false hy]
  simp only [Bool.or_false, Bool.false_eq_true, if_false]
  split
  · rename_i hnull
    -- the right side is null, so the left one is not
    have hy' : y = .null := by
      cases b <;> first | exact hy | cases hnull
    exact mem_withNullable_of_mem hx fun hx' => absurd ⟨hx', hy'⟩ h
  · split
    · rename_i hnull
      cases a <;> first | exact hx | cases hnull
    · exact hx

theorem mem_restrict_of_canHold (h : rel.CanHold a b x y) (hx : x ∈ a) (hy : y ∈ b) :
    x ∈ a.restrict rel b := by
  cases rel with
  | ne =>
    unfold Relation.CanHold at h
    simp only at h
    split at h
    · exact mem_restrictNotEqual hx hy h.1 h.2.1 h.2.2
    · rename_i hreferences
      rw [Bool.not_eq_true, Bool.or_eq_false_iff] at hreferences
      exact mem_restrictNotEqual_of_references hreferences.1 hreferences.2 hx hy h
  | _ => exact mem_restrict h hx hy

theorem test_of_canHold (h : rel.CanHold a b x y ∨ rel.negation.CanHold a b x y) (hx : x ∈ a)
    (hy : y ∈ b) : a.test rel b =
      .ok (ofFlags (!(a.restrict rel b).isEmpty) (!(a.restrict rel.negation b).isEmpty)) := by
  cases rel with
  | eq | ne =>
    unfold test
    rw [isEmpty_eq_false hx, isEmpty_eq_false hy]
    rfl
  | _ => exact test_eq h hx hy

end Value

/-- A comparison that can hold of two values keeps the first of them when it narrows, and is
foreseen to come out true; and one whose negation can hold is foreseen to come out false. -/
theorem comparison_keeps_and_foresees_what_can_hold (rel : Relation) {a b : Value} {x y : Concrete}
    (hx : x ∈ a) (hy : y ∈ b) :
    (rel.CanHold a b x y → x ∈ a.restrict rel b ∧
      ∃ canBeFalse, (a.test rel b).value = .boolean true canBeFalse) ∧
    (rel.negation.CanHold a b x y →
      ∃ canBeTrue, (a.test rel b).value = .boolean canBeTrue true) := by
  constructor
  · intro h
    have hkept := Value.mem_restrict_of_canHold h hx hy
    rw [Value.test_of_canHold (.inl h) hx hy, Value.isEmpty_eq_false hkept]
    exact ⟨hkept, _, rfl⟩
  · intro h
    have hkept := Value.mem_restrict_of_canHold h hx hy
    have hflag : ∀ t, Value.ofFlags t true = .boolean t true := by
      intro t
      cases t <;> rfl
    rw [Value.test_of_canHold (.inr h) hx hy, Value.isEmpty_eq_false hkept]
    exact ⟨_, hflag _⟩

def boxedOne : Value := .boxed (.int 1) false

/-- Two wrappers around the same number may be different references, and may be the same one. -/
theorem boxedOne_compares_either_way : .number 1 ∈ boxedOne ∧
    .number 1 ∈ boxedOne.restrict .ne boxedOne ∧
    (∃ canBeFalse, (boxedOne.test .ne boxedOne).value = .boolean true canBeFalse) ∧
    ∃ canBeTrue, (boxedOne.test .ne boxedOne).value = .boolean canBeTrue true := by
  have hone : .number 1 ∈ boxedOne := .inr ⟨by simp, 1, by decide, rfl⟩
  have hcompared := comparison_keeps_and_foresees_what_can_hold .ne hone hone
  obtain ⟨hkept, htrue⟩ := hcompared.1 (by simp [Relation.CanHold, boxedOne, Value.isPrimitive])
  exact ⟨hone, hkept, htrue, hcompared.2 rfl⟩

end ValueFlow
