import ValueFlow.Proofs.WellFormed

namespace ValueFlow

namespace Interval

variable {a : Interval}

theorem hull_self : a.hull a = a := by
  apply Interval.ext
  · exact Int.min_self a.lo
  · exact Int.max_self a.hi

theorem meet_self : a.meet a = some a := includes_iff_meet.1 includes_self

theorem widen_self : a.widen a = a := by
  apply Interval.ext
  · exact if_neg (Int.lt_irrefl a.lo)
  · exact if_neg (Int.lt_irrefl a.hi)

end Interval

namespace Value

variable {limit : Interval} {v : Value} {n : Bool}

theorem ofFlags_of_wellFormed {t f : Bool} (h : (boolean t f).WellFormedWithin limit) :
    ofFlags t f = boolean t f := by
  rcases h with rfl | rfl
  · rfl
  · cases t <;> rfl

theorem box_of_isContent (h : v.isContent = true) : box v n = boxed v n := by
  unfold box
  rw [if_neg]
  rintro rfl
  cases h

theorem mergeFlat_self (hv : v.WellFormedWithin limit) (hbox : ∀ w n, v ≠ boxed w n) :
    mergeFlat v v = v := by
  cases v with
  | boolean t f =>
    show ofFlags (t || t) (f || f) = _
    rw [Bool.or_self, Bool.or_self]
    exact ofFlags_of_wellFormed hv
  | boxed w n => exact absurd rfl (hbox w n)
  | _ => simp [mergeFlat, Interval.hull_self, isReference, withNullable, onlyNull, mayBeNull]

theorem intersectFlat_self (hv : v.WellFormedWithin limit) (hbox : ∀ w n, v ≠ boxed w n) :
    intersectFlat v v = v := by
  cases v with
  | boolean t f =>
    show ofFlags (t && t) (f && f) = _
    rw [Bool.and_self, Bool.and_self]
    exact ofFlags_of_wellFormed hv
  | boxed w n => exact absurd rfl (hbox w n)
  | _ =>
    simp [intersectFlat, Interval.meet_self, integerOf, charOf, isReference, withNullable,
      onlyNull, mayBeNull]

theorem merge_self (hv : v.WellFormedWithin limit) : v.merge v = v := by
  induction v with
  | boxed w n ih =>
    show box (w.merge w) (n || n) = _
    rw [ih hv.2, Bool.or_self, box_of_isContent hv.1]
  | _ => exact mergeFlat_self hv (by simp)

theorem intersect_self (hv : v.WellFormedWithin limit) : v.intersect v = v := by
  induction v with
  | boxed w n ih =>
    show box (w.intersect w) (n && n) = _
    rw [ih hv.2, Bool.and_self, box_of_isContent hv.1]
  | _ => exact intersectFlat_self hv (by simp)

theorem widenWithin_self {range a : Interval} (h : range.includes a = true) :
    widenWithin range a a = a := by
  rw [widenWithin, Interval.widen_self, Interval.includes_iff_meet.1 h, Option.getD_some]

theorem widen_self (hv : v.WellFormedWithin lengths) : v.widen v = v := by
  induction v with
  | integer i => exact congrArg integer Interval.widen_self
  | char i => exact congrArg char (widenWithin_self hv)
  | str l n =>
    show str (widenWithin lengths l l) (n || n) = _
    rw [widenWithin_self hv, Bool.or_self]
  | array l n =>
    show array (widenWithin lengths l l) (n || n) = _
    rw [widenWithin_self hv, Bool.or_self]
  | boxed w n ih =>
    show box (w.widen w) (n || n) = _
    rw [ih hv.2, Bool.or_self, box_of_isContent hv.1]
  | _ => exact merge_self hv

end Value

end ValueFlow
