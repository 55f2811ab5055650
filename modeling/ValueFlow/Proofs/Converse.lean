import ValueFlow.Proofs.Fault
import ValueFlow.Proofs.Narrowing

namespace ValueFlow

namespace Relation

theorem isOrdering_converse (rel : Relation) : rel.converse.isOrdering = rel.isOrdering := by
  cases rel <;> rfl

theorem negation_converse (rel : Relation) : rel.converse.negation = rel.negation.converse := by
  cases rel <;> rfl

end Relation

namespace Interval

variable {a b : Interval}

/-- The second way of narrowing rules out what the first one does, seen from the other side. -/
def Mirrors (narrow narrow' : Interval → Interval → Option Interval) : Prop :=
  ∀ a b, narrow a b = none ↔ narrow' b a = none

theorem Mirrors.symm {narrow narrow' : Interval → Interval → Option Interval}
    (h : Mirrors narrow narrow') : Mirrors narrow' narrow := fun a b => (h b a).symm

theorem meet_eq_none_iff : a.meet b = none ↔ a.hi < b.lo ∨ b.hi < a.lo := by
  have ha := a.lo_le_hi
  have hb := b.lo_le_hi
  rw [meet]
  split <;> simp only [reduceCtorEq, false_iff, true_iff] <;> omega

theorem meet_atLeast_eq_none_iff {x : Int} (hlo : minInt ≤ x) (hhi : x ≤ maxInt) :
    a.meet (atLeast x) = none ↔ a.hi < x := by
  have hbound : (atLeast x).lo = x := saturate_eq_self hlo hhi
  have htop : (atLeast x).hi = maxInt := rfl
  have := a.lo_le_hi
  have := a.hi_le_maxInt
  rw [meet_eq_none_iff]
  omega

theorem meet_atMost_eq_none_iff {x : Int} (hlo : minInt ≤ x) (hhi : x ≤ maxInt) :
    a.meet (atMost x) = none ↔ x < a.lo := by
  have hbound : (atMost x).hi = x := saturate_eq_self hlo hhi
  have hbottom : (atMost x).lo = minInt := rfl
  have := a.lo_le_hi
  have := a.minInt_le_lo
  rw [meet_eq_none_iff]
  omega

theorem greater_eq_none_iff : a.greater b = none ↔ a.hi ≤ b.lo := by
  have ha := a.hi_le_maxInt
  have hb := b.minInt_le_lo
  rw [greater]
  split
  · rw [meet_atLeast_eq_none_iff (by omega) (by omega)]
    omega
  · simp only [true_iff]
    omega

theorem less_eq_none_iff : a.less b = none ↔ b.hi ≤ a.lo := by
  have ha := a.minInt_le_lo
  have hb := b.hi_le_maxInt
  rw [less]
  split
  · rw [meet_atMost_eq_none_iff (by omega) (by omega)]
    omega
  · simp only [true_iff]
    omega

theorem greaterOrEqual_eq_none_iff : a.greaterOrEqual b = none ↔ a.hi < b.lo :=
  meet_atLeast_eq_none_iff b.minInt_le_lo (Int.le_trans b.lo_le_hi b.hi_le_maxInt)

theorem lessOrEqual_eq_none_iff : a.lessOrEqual b = none ↔ b.hi < a.lo :=
  meet_atMost_eq_none_iff (Int.le_trans b.minInt_le_lo b.lo_le_hi) b.hi_le_maxInt

theorem notEqual_eq_none_iff : a.notEqual b = none ↔ a = b ∧ a.lo = a.hi := by
  have ha := a.lo_le_hi
  simp only [notEqual, isPoint, beq_iff_eq, Interval.ext_iff]
  split
  · split
    · split <;> simp only [reduceCtorEq, false_iff, true_iff] <;> omega
    · split <;> simp only [reduceCtorEq, false_iff] <;> omega
  · simp only [reduceCtorEq, false_iff]
    omega

theorem mirrors_greater_less : Mirrors greater less := fun _ _ => by
  rw [greater_eq_none_iff, less_eq_none_iff]

theorem mirrors_greaterOrEqual_lessOrEqual : Mirrors greaterOrEqual lessOrEqual := fun _ _ => by
  rw [greaterOrEqual_eq_none_iff, lessOrEqual_eq_none_iff]

theorem mirrors_notEqual : Mirrors notEqual notEqual := fun a b => by
  rw [notEqual_eq_none_iff, notEqual_eq_none_iff, Interval.ext_iff, Interval.ext_iff]
  omega

end Interval

namespace Value

variable {limit : Interval} {a b v w : Value} {n : Bool}
  {narrow narrow' : Interval → Interval → Option Interval}

theorem box_false_eq_empty_iff : box v false = empty ↔ v = empty := by
  unfold box
  split <;> simp_all [onlyNull]

theorem integerOf_eq_empty_iff {o : Option Interval} : integerOf o = empty ↔ o = none := by
  cases o <;> simp [integerOf]

theorem charOf_eq_empty_iff {o : Option Interval} : charOf o = empty ↔ o = none := by
  cases o <;> simp [charOf]

/-- Both are numbers, of which narrowing leaves none. -/
def NumbersRuledOut (narrow : Interval → Interval → Option Interval) (a b : Value) : Prop :=
  ∃ i j, a.range? = some i ∧ b.range? = some j ∧ narrow i j = none

theorem NumbersRuledOut.mirror (h : Interval.Mirrors narrow narrow') :
    NumbersRuledOut narrow a b → NumbersRuledOut narrow' b a := fun ⟨i, j, hi, hj, hnone⟩ =>
  ⟨j, i, hj, hi, (h i j).1 hnone⟩

theorem narrowRange_eq_empty_iff (ha : a ≠ empty) :
    narrowRange narrow a b = empty ↔ NumbersRuledOut narrow a b := by
  unfold narrowRange NumbersRuledOut
  split
  · rename_i i j hj
    rw [integerOf_eq_empty_iff, hj]
    simp [range?]
  · rename_i i j hj
    rw [charOf_eq_empty_iff, hj]
    simp [range?]
  · rename_i hinteger hchar
    simp only [ha, false_iff]
    rintro ⟨i, j, hi, hj, -⟩
    rcases range?_eq_some hi with rfl | rfl
    · exact hinteger i j rfl hj
    · exact hchar i j rfl hj

section Ordered

def unordered (v : Value) : Bool := v.isEmpty || v.isNull

theorem unordered_of_isContent (hv : v.isContent = true) : v.unordered = false := by
  cases v <;> first | rfl | cases hv

theorem ne_empty_of_unordered (h : v.unordered = false) : v ≠ empty := by
  rintro rfl
  cases h

theorem ne_null_of_unordered (h : v.unordered = false) : v ≠ null := by
  rintro rfl
  cases h

/-- An ordering is ruled out if an operand cannot be ordered or its numbers do not allow for it. -/
def OrderRuledOut (narrow : Interval → Interval → Option Interval) (a b : Value) : Prop :=
  a.unordered = true ∨ b.unordered = true ∨ NumbersRuledOut narrow a.unboxed b.unboxed

theorem OrderRuledOut.mirror (h : Interval.Mirrors narrow narrow') :
    OrderRuledOut narrow a b → OrderRuledOut narrow' b a
  | .inl ha => .inr (.inl ha)
  | .inr (.inl hb) => .inl hb
  | .inr (.inr hnumbers) => .inr (.inr (hnumbers.mirror h))

theorem restrictOrderedRight_eq_empty_iff (hb : b.CarriesContent) :
    restrictOrderedRight narrow a b = empty ↔
      a.unordered = true ∨ b.unordered = true ∨ NumbersRuledOut narrow a b.unboxed := by
  have hflat : ∀ w : Value, (if a.isEmpty || a.isNull || w.isEmpty || w.isNull then empty else
      narrowRange narrow a w) = empty ↔
      a.unordered = true ∨ w.unordered = true ∨ NumbersRuledOut narrow a w := by
    intro w
    rw [Bool.or_assoc (a.isEmpty || a.isNull)]
    show (if a.unordered || w.unordered then _ else _) = _ ↔ _
    cases hua : a.unordered with
    | true => simp
    | false =>
      cases w.unordered with
      | true => simp
      | false => simp [narrowRange_eq_empty_iff (ne_empty_of_unordered hua)]
  cases b with
  | boxed w m =>
    have hw := hb w m rfl
    have hright : restrictOrderedRight narrow a w = empty ↔
        a.unordered = true ∨ w.unordered = true ∨ NumbersRuledOut narrow a w := by
      rw [← hflat]
      cases w <;> first | rfl | cases hw
    rw [unordered_of_isContent hw] at hright
    rw [restrictOrderedRight]
    show (if a.unordered then _ else _) = _ ↔ _
    split
    · simp_all
    · exact hright
  | _ => exact hflat _

theorem restrictOrdered_eq_empty_iff (ha : a.CarriesContent) (hb : b.CarriesContent) :
    restrictOrdered narrow a b = empty ↔ OrderRuledOut narrow a b := by
  cases a with
  | boxed v n =>
    have hv := ha v n rfl
    have hright : restrictOrdered narrow v b = restrictOrderedRight narrow v b := by
      cases v <;> first | rfl | cases hv
    have hempty : restrictOrderedRight narrow v b = empty ↔
        v.unordered = true ∨ b.unordered = true ∨ NumbersRuledOut narrow v b.unboxed :=
      restrictOrderedRight_eq_empty_iff hb
    rw [unordered_of_isContent hv] at hempty
    rw [restrictOrdered, hright]
    show (if b.unordered then _ else _) = _ ↔ _
    split
    · simp_all [OrderRuledOut]
    · rw [box_false_eq_empty_iff]
      exact hempty
  | _ => exact restrictOrderedRight_eq_empty_iff hb

end Ordered

section Equal

/-- Equality is ruled out for null and a primitive, about which the meet has nothing to say. -/
def EqualRuledOut (a b : Value) : Prop :=
  a.intersect b = empty ∨ (a = null ∧ b.isPrimitive = true) ∨ (a.isPrimitive = true ∧ b = null)

theorem EqualRuledOut.symm (h : EqualRuledOut a b) : EqualRuledOut b a := by
  rcases h with h | ⟨ha, hb⟩ | ⟨ha, hb⟩
  · exact .inl (by rw [intersect_comm, h])
  · exact .inr (.inr ⟨hb, ha⟩)
  · exact .inr (.inl ⟨hb, ha⟩)

theorem equalRuledOut_comm : EqualRuledOut a b ↔ EqualRuledOut b a := ⟨.symm, .symm⟩

theorem restrictEqualFlat_eq_empty_iff (ha : a ≠ empty) :
    restrictEqualFlat a b = empty ↔ a.intersect b = empty := by
  unfold restrictEqualFlat
  split
  · rename_i i j hj
    rcases range?_eq_some hj with rfl | rfl
    · rfl
    · show integerOf _ = _ ↔ charOf _ = _
      rw [integerOf_eq_empty_iff, charOf_eq_empty_iff]
  · rename_i i j hj
    rcases range?_eq_some hj with rfl | rfl <;> rfl
  · split
    · rename_i hany
      simp only [ha, false_iff]
      intro h
      rw [h] at hany
      cases hany
    · rfl

theorem onlyNull_mayBeNull_eq_empty_iff : onlyNull v.mayBeNull = empty ↔ EqualRuledOut v null := by
  cases v <;> simp [EqualRuledOut, intersect, intersectPrimitive, intersectFlat, isPrimitive,
    isReference, mayBeNull, onlyNull]

theorem getD_restrictEqual_eq_empty_iff :
    (restrictEqualNull a b).getD (restrictEqualFlat a b) = empty ↔ EqualRuledOut a b := by
  unfold restrictEqualNull
  split
  · rename_i hempty
    refine iff_of_true rfl (.inl ?_)
    cases a <;> cases b <;> first | rfl | cases hempty
  · rename_i hempty
    split
    · rename_i hb
      rw [eq_null_of_isNull hb]
      exact onlyNull_mayBeNull_eq_empty_iff
    · rename_i hb
      split
      · rename_i ha
        rw [eq_null_of_isNull ha]
        exact onlyNull_mayBeNull_eq_empty_iff.trans equalRuledOut_comm
      · rename_i ha
        have ha' : a ≠ empty := by
          rintro rfl
          exact hempty rfl
        refine (restrictEqualFlat_eq_empty_iff ha').trans ⟨.inl, ?_⟩
        rintro (h | ⟨rfl, -⟩ | ⟨-, rfl⟩)
        · exact h
        · exact absurd rfl ha
        · exact absurd rfl hb

theorem equalRuledOut_boxed_iff (hv : v.isContent = true) (hb : b.isPrimitive = true) :
    EqualRuledOut (boxed v n) b ↔ EqualRuledOut v b := by
  have hmeet : (boxed v n).intersect b = empty ↔ v.intersect b = empty := by
    rw [intersect_of_isPrimitive_right hb, intersect_of_isPrimitive_right hb, intersectPrimitive,
      box_false_eq_empty_iff]
  have hnull := ne_null_of_unordered (unordered_of_isContent hv)
  have hnull' := ne_null_of_unordered (unordered_of_isContent (isContent_of_isPrimitive hb))
  simp [EqualRuledOut, hmeet, hnull, hnull']

theorem restrictEqualPrimitive_eq_empty_iff (ha : a.isPrimitive = true) (hb : b.CarriesContent) :
    restrictEqualPrimitive a b = empty ↔ EqualRuledOut a b := by
  cases b with
  | boxed w m =>
    have hw := hb w m rfl
    have hflat : restrictEqualPrimitive a w = empty ↔ EqualRuledOut a w := by
      rw [← getD_restrictEqual_eq_empty_iff]
      cases w <;> first | rfl | cases hw
    rw [restrictEqualPrimitive, hflat, equalRuledOut_comm, equalRuledOut_comm (b := boxed w m),
      equalRuledOut_boxed_iff hw ha]
  | _ => exact getD_restrictEqual_eq_empty_iff

theorem restrictEqual_eq_empty_iff (ha : a.CarriesContent) (hb : b.CarriesContent) :
    restrictEqual a b = empty ↔ EqualRuledOut a b := by
  fun_induction restrictEqual a b with
  | case1 v n b hp ih =>
    have hv := ha v n rfl
    rw [box_false_eq_empty_iff, equalRuledOut_boxed_iff hv hp]
    exact ih (fun w m h => absurd h (not_boxed_of_isContent hv w m)) hb
  | case2 | case4 => exact getD_restrictEqual_eq_empty_iff
  | case3 a b _ hp => exact restrictEqualPrimitive_eq_empty_iff hp hb

end Equal

section NotEqual

/-- Inside their wrappers, both are the same number or the same truth value. -/
def SameSingle (a b : Value) : Prop :=
  NumbersRuledOut Interval.notEqual a.unboxed b.unboxed ∨
    ∃ c, a.flags? = some (c, !c) ∧ b.flags? = some (c, !c)

/-- Inequality is ruled out for nulls, and for the same single value unless both are references. -/
def NotEqualRuledOut (a b : Value) : Prop :=
  a = empty ∨ b = empty ∨ (a = null ∧ b = null) ∨
    ((a.isPrimitive = true ∨ b.isPrimitive = true) ∧ SameSingle a b)

theorem SameSingle.symm (h : SameSingle a b) : SameSingle b a :=
  h.imp (·.mirror Interval.mirrors_notEqual) fun ⟨c, ha, hb⟩ => ⟨c, hb, ha⟩

theorem sameSingle_comm : SameSingle a b ↔ SameSingle b a := ⟨.symm, .symm⟩

theorem NotEqualRuledOut.symm : NotEqualRuledOut a b → NotEqualRuledOut b a
  | .inl ha => .inr (.inl ha)
  | .inr (.inl hb) => .inl hb
  | .inr (.inr (.inl h)) => .inr (.inr (.inl h.symm))
  | .inr (.inr (.inr ⟨hp, hsame⟩)) => .inr (.inr (.inr ⟨hp.symm, hsame.symm⟩))

theorem not_sameSingle (hrange : a.unboxed.range? = none) (hflags : a.flags? = none) :
    ¬ SameSingle a b := by
  rintro (⟨i, j, hi, -⟩ | ⟨c, hc, -⟩)
  · cases hrange.symm.trans hi
  · cases hflags.symm.trans hc

theorem sameSingle_boxed_iff (hw : w.isContent = true) :
    SameSingle a (boxed w n) ↔ SameSingle a w := by
  rw [SameSingle, SameSingle, (unboxed_of_not_boxed (not_boxed_of_isContent hw)).1]
  rfl

theorem getD_restrictNotEqual_eq_empty_iff :
    (restrictNotEqualNull a b).getD a = empty ↔ a = empty ∨ b = empty ∨ (a = null ∧ b = null) := by
  cases b with
  | empty | null => cases a <;> simp [restrictNotEqualNull, isEmpty, isNull, withNullable, onlyNull]
  | _ => cases a <;> simp [restrictNotEqualNull, isEmpty, isNull]

theorem restrictNotEqualFlat_eq_empty_iff (ha : a.isPrimitive = true)
    (hwf : a.WellFormedWithin limit) :
    restrictNotEqualFlat a b = empty ↔
      NumbersRuledOut Interval.notEqual a b ∨
        ∃ c, a.flags? = some (c, !c) ∧ b.flags? = some (c, !c) := by
  cases a with
  | integer i | char i =>
    rw [restrictNotEqualFlat, narrowRange_eq_empty_iff (by simp)]
    · simp [flags?]
    · simp
  | boolean t f =>
    have hnumbers : ¬ NumbersRuledOut Interval.notEqual (boolean t f) b := by
      rintro ⟨i, j, hi, -⟩
      cases hi
    have hflags : t = true ∨ f = true := hwf
    simp only [hnumbers, false_or, restrictNotEqualFlat, flags?]
    -- with the other outcome left on one side, something is left
    rcases b.flags? with _ | ⟨t', f'⟩
    · simp
    · clear ha hwf hnumbers
      decide +revert
  | _ => cases ha

section Primitive

variable (ha : a.isPrimitive = true) (hwf : a.WellFormedWithin limit)

include ha hwf

theorem restrictNotEqualPrimitive_flat_eq_empty_iff (hb : ∀ w m, b ≠ boxed w m) :
    restrictNotEqualPrimitive a b = empty ↔ b = empty ∨ SameSingle a b := by
  have hunboxed := (unboxed_of_not_boxed (not_boxed_of_isContent (isContent_of_isPrimitive ha))).1
  have hprimitive : restrictNotEqualPrimitive a b =
      (restrictNotEqualNull a b).getD (restrictNotEqualFlat a b) := by
    cases b <;> first | rfl | exact absurd rfl (hb _ _)
  have hsame : restrictNotEqualFlat a b = empty ↔ SameSingle a b := by
    rw [restrictNotEqualFlat_eq_empty_iff ha hwf, SameSingle, hunboxed,
      (unboxed_of_not_boxed hb).1]
  have hordered := unordered_of_isContent (isContent_of_isPrimitive ha)
  obtain ⟨hempty, hnull⟩ := Bool.or_eq_false_iff.1 hordered
  rw [hprimitive, restrictNotEqualNull, hempty, hnull]
  cases b with
  | empty => simp [isEmpty]
  | null =>
    have hkept : a.withNullable false = a := by
      cases a <;> first | rfl | cases ha
    have hne := ne_empty_of_unordered hordered
    have hnot : ¬ SameSingle a null := fun h => not_sameSingle rfl rfl h.symm
    simp [isEmpty, isNull, hkept, hne, hnot]
  | boxed w m => exact absurd rfl (hb w m)
  | _ => simp [isEmpty, isNull, hsame]

theorem restrictNotEqualPrimitive_eq_empty_iff (hb : b.CarriesContent) :
    restrictNotEqualPrimitive a b = empty ↔ b = empty ∨ SameSingle a b := by
  cases b with
  | boxed w m =>
    have hw := hb w m rfl
    have hflat := not_boxed_of_isContent hw
    have hunwrap : restrictNotEqualPrimitive a (boxed w m) = restrictNotEqualPrimitive a w := by
      cases a with
      | boolean t f => cases w <;> first | rfl | cases hw
      | integer i | char i => rfl
      | _ => cases ha
    have hne := ne_empty_of_unordered (unordered_of_isContent hw)
    rw [hunwrap, restrictNotEqualPrimitive_flat_eq_empty_iff ha hwf hflat, sameSingle_boxed_iff hw]
    simp [hne]
  | _ => exact restrictNotEqualPrimitive_flat_eq_empty_iff ha hwf (by simp)

end Primitive

theorem restrictNotEqual_eq_empty_iff (ha : a.WellFormedWithin limit) (hb : b.CarriesContent) :
    restrictNotEqual a b = empty ↔ NotEqualRuledOut a b := by
  fun_induction restrictNotEqual a b with
  | case1 v n b hp ih =>
    have hunwrap : SameSingle (boxed v n) b ↔ SameSingle v b := by
      rw [sameSingle_comm, sameSingle_boxed_iff ha.1, sameSingle_comm]
    rw [box_false_eq_empty_iff, ih ha.2 hb, NotEqualRuledOut, NotEqualRuledOut, hunwrap]
    have hv := ha.1
    cases v with
    | any | integer i | char i | boolean t f => simp [hp]
    | _ => cases hv
  | case2 v n b hp =>
    rw [getD_restrictNotEqual_eq_empty_iff]
    have hreference : (boxed v n).isPrimitive = false := rfl
    simp [NotEqualRuledOut, hreference, hp]
  | case3 a b _ hp =>
    rw [restrictNotEqualPrimitive_eq_empty_iff hp ha hb]
    cases a with
    | integer i | char i | boolean t f => simp [NotEqualRuledOut, isPrimitive]
    | _ => cases hp
  | case4 a b hboxed hp =>
    have hnot : ¬ SameSingle a b := by
      cases a <;>
        first | exact not_sameSingle rfl rfl | exact absurd rfl hp | exact absurd rfl (hboxed _ _)
    rw [getD_restrictNotEqual_eq_empty_iff]
    simp [NotEqualRuledOut, hnot]

end NotEqual

section Converse

variable (ha : a.WellFormedWithin limit) (hb : b.WellFormedWithin limit)

include ha hb

/-- Each relation comes with a condition under which it is ruled out, and that does not change
if the operands are exchanged. -/
theorem restrict_eq_empty_of_converse (rel : Relation) (h : a.restrict rel b = empty) :
    b.restrict rel.converse a = empty := by
  have ha' := carriesContent_of_wellFormed ha
  have hb' := carriesContent_of_wellFormed hb
  have hordered : ∀ {narrow narrow' : Interval → Interval → Option Interval},
      Interval.Mirrors narrow narrow' → restrictOrdered narrow a b = empty →
      restrictOrdered narrow' b a = empty := fun hmirrors hempty =>
    (restrictOrdered_eq_empty_iff hb' ha').2
      (((restrictOrdered_eq_empty_iff ha' hb').1 hempty).mirror hmirrors)
  cases rel with
  | lt => exact hordered Interval.mirrors_greater_less.symm h
  | le => exact hordered Interval.mirrors_greaterOrEqual_lessOrEqual.symm h
  | gt => exact hordered Interval.mirrors_greater_less h
  | ge => exact hordered Interval.mirrors_greaterOrEqual_lessOrEqual h
  | eq =>
    have hruled := (restrictEqual_eq_empty_iff ha' hb').1 h
    exact (restrictEqual_eq_empty_iff hb' ha').2 hruled.symm
  | ne =>
    have hruled := (restrictNotEqual_eq_empty_iff ha hb').1 h
    exact (restrictNotEqual_eq_empty_iff hb ha').2 hruled.symm

end Converse

theorem isEmpty_iff : v.isEmpty = true ↔ v = empty := by
  cases v <;> simp [isEmpty]

end Value

/-- A comparison of well-formed values leaves nothing of its left operand exactly if the converse
comparison leaves nothing of its right one, and both have the same outcomes and the same fault. -/
theorem comparison_is_the_same_from_either_side (rel : Relation) {a b : Value}
    (ha : a.WellFormedWithin lengths) (hb : b.WellFormedWithin lengths) :
    (a.restrict rel b = .empty ↔ b.restrict rel.converse a = .empty) ∧
      a.test rel b = b.test rel.converse a := by
  have hempty : ∀ r : Relation, a.restrict r b = .empty ↔ b.restrict r.converse a = .empty := by
    intro r
    have hconverse : r.converse.converse = r := by cases r <;> rfl
    refine ⟨Value.restrict_eq_empty_of_converse ha hb r, fun h => ?_⟩
    have hback := Value.restrict_eq_empty_of_converse hb ha r.converse h
    rwa [hconverse] at hback
  have hleft : ∀ r : Relation,
      (a.restrict r b).isEmpty = (b.restrict r.converse a).isEmpty := by
    intro r
    rw [Bool.eq_iff_iff, Value.isEmpty_iff, Value.isEmpty_iff]
    exact hempty r
  refine ⟨hempty rel, ?_⟩
  rw [Value.test, Value.test, hleft, hleft, rel.isOrdering_converse, rel.negation_converse,
    Bool.or_comm a.isEmpty, Bool.or_comm a.isNull]

/-- A wrapped letter that may be null is not below its code, and the code is not above it. -/
theorem wrappedLetter_compared_with_code :
    (Value.boxed (.ofCode 97) true).WellFormedWithin lengths ∧
    (Value.int 97).WellFormedWithin lengths ∧
    (Value.boxed (.ofCode 97) true).restrict .lt (.int 97) = .empty ∧
    (Value.int 97).restrict .gt (.boxed (.ofCode 97) true) = .empty ∧
    (Value.int 97).test .gt (.boxed (.ofCode 97) true) = .ok (.bool false) := by
  have hletter : (Value.boxed (.ofCode 97) true).WellFormedWithin lengths := ⟨rfl, rfl⟩
  have hcode : (Value.int 97).WellFormedWithin lengths := trivial
  have hempty : (Value.boxed (.ofCode 97) true).restrict .lt (.int 97) = .empty := by decide
  obtain ⟨hconverse, htest⟩ := comparison_is_the_same_from_either_side .lt hletter hcode
  exact ⟨hletter, hcode, hempty, hconverse.1 hempty, htest.symm.trans (by decide)⟩

end ValueFlow
