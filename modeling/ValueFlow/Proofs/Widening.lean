import ValueFlow.Proofs.JoinMeet

namespace ValueFlow

open Bindings

namespace Interval

variable {a b c range : Interval}

theorem hull_eq_left_iff : a.hull b = a ↔ a.includes b = true := by
  rw [Interval.ext_iff, includes_iff]
  simp only [hull]
  omega

/-- Each bound of `c` is that of `a`, or has jumped to the end of the range because `b` exceeds
it. -/
structure JumpsTo (range a b c : Interval) : Prop where
  lo : c.lo = if b.lo < a.lo then range.lo else a.lo
  hi : c.hi = if a.hi < b.hi then range.hi else a.hi

theorem jumpsTo_widen : JumpsTo full a b (a.widen b) := ⟨rfl, rfl⟩

theorem includes_full : full.includes a = true :=
  includes_iff.2 ⟨a.minInt_le_lo, a.hi_le_maxInt⟩

namespace JumpsTo

variable (h : JumpsTo range a b c)

include h

theorem includes_hull (hb : range.includes b = true) : c.includes (a.hull b) = true := by
  rw [includes_iff] at hb ⊢
  rw [h.lo, h.hi]
  simp only [hull]
  split <;> split <;> omega

theorem eq_left (hab : a.hull b = a) : c = a := by
  rw [hull_eq_left_iff, includes_iff] at hab
  apply Interval.ext
  · rw [h.lo, if_neg (by omega)]
  · rw [h.hi, if_neg (by omega)]

end JumpsTo

end Interval

namespace Value

variable {limit : Interval} {a b v w : Value}

/-- Within a range, widening jumps to the end of the range. -/
theorem jumpsTo_widenWithin {range i j : Interval} (hi : range.includes i = true) :
    Interval.JumpsTo range i j (widenWithin range i j) := by
  have hij := i.lo_le_hi
  have hrange := range.minInt_le_lo
  have hrange' := range.hi_le_maxInt
  rw [Interval.includes_iff] at hi
  have hmeet : max (i.widen j).lo range.lo ≤ min (i.widen j).hi range.hi := by
    simp only [Interval.widen]
    split <;> split <;> omega
  rw [widenWithin, Interval.meet, dif_pos hmeet]
  constructor
  · simp only [Option.getD_some, Interval.widen]
    split <;> omega
  · simp only [Option.getD_some, Interval.widen]
    split <;> omega

section Contents

variable (hv : v.isContent = true) (hw : w.isContent = true) (hwf : v.WellFormedWithin limit)

include hv hw hwf

theorem isContent_merge : (v.merge w).isContent = true := by
  rw [merge_of_flat (not_boxed_of_isContent hv) (not_boxed_of_isContent hw)]
  exact isContent_mergeFlat hv hwf w

theorem isContent_widen : (v.widen w).isContent = true := by
  have hmerge := isContent_merge hv hw hwf
  fun_cases widen v w with
  | case1 | case2 => rfl
  | case3 | case4 | case5 => cases hv
  | case6 => exact hmerge

end Contents

theorem widen_merge_merge (ha : a.WellFormedWithin lengths) (hb : b.WellFormedWithin lengths) :
    (a.widen b).merge (a.merge b) = a.widen b := by
  have hjoin : ∀ {range i j c : Interval}, Interval.JumpsTo range i j c →
      range.includes j = true → c.hull (i.hull j) = c :=
    fun h hj => Interval.hull_eq_left_iff.2 (h.includes_hull hj)
  fun_induction widen a b with
  | case1 i j => exact congrArg integer (hjoin Interval.jumpsTo_widen Interval.includes_full)
  | case2 i j => exact congrArg char (hjoin (jumpsTo_widenWithin ha) hb)
  | case3 i n j m =>
    show str _ ((n || m) || (n || m)) = _
    rw [hjoin (jumpsTo_widenWithin ha) hb, Bool.or_self]
  | case4 i n j m =>
    show array _ ((n || m) || (n || m)) = _
    rw [hjoin (jumpsTo_widenWithin ha) hb, Bool.or_self]
  | case5 v n w m ih =>
    have hwiden := isContent_widen ha.1 hb.1 ha.2
    have hmerge := isContent_merge ha.1 hb.1 ha.2
    rw [merge, box_of_isContent hwiden, box_of_isContent hmerge, merge, ih ha.2 hb.2,
      box_of_isContent hwiden, Bool.or_self]
  -- any other pair is widened by joining it
  | case6 => exact merge_self (wf_merge ha hb)

theorem widen_of_merge_eq_self (ha : a.WellFormedWithin lengths) (hb : b.WellFormedWithin lengths)
    (h : a.merge b = a) : a.widen b = a := by
  fun_induction widen a b with
  | case1 i j =>
    injection h with h
    rw [Interval.jumpsTo_widen.eq_left h]
  | case2 i j =>
    injection h with h
    rw [(jumpsTo_widenWithin ha).eq_left h]
  | case3 i n j m =>
    injection h with h hn
    rw [(jumpsTo_widenWithin ha).eq_left h, hn]
  | case4 i n j m =>
    injection h with h hn
    rw [(jumpsTo_widenWithin ha).eq_left h, hn]
  | case5 v n w m ih =>
    rw [merge, box_of_isContent (isContent_merge ha.1 hb.1 ha.2)] at h
    injection h with h hn
    rw [ih ha.2 hb.2 h, hn, box_of_isContent ha.1]
  | case6 => exact h

/-- Widening and join have the same fixed points. -/
theorem widen_eq_self_iff (ha : a.WellFormedWithin lengths) (hb : b.WellFormedWithin lengths) :
    a.widen b = a ↔ a.merge b = a := by
  constructor
  · intro h
    have habove := widen_merge_merge ha hb
    rwa [h, merge_merge_self ha hb] at habove
  · exact widen_of_merge_eq_self ha hb

end Value

namespace State

variable {s other : State}

theorem combineValues_eq_left_iff {o o' : Option Value}
    (ho : ∀ v, o = some v → v.WellFormedWithin lengths)
    (ho' : ∀ v, o' = some v → v.WellFormedWithin lengths) :
    combineValues Value.widen o o' = o ↔ combineValues Value.merge o o' = o := by
  cases o with
  | none => cases o' <;> exact Iff.rfl
  | some v =>
    cases o' with
    | none => exact Iff.rfl
    | some w =>
      simp only [combineValues, Option.some.injEq]
      exact Value.widen_eq_self_iff (ho v rfl) (ho' w rfl)

/-- A state that merging in another one leaves as it is, is left by widening too, and conversely. -/
theorem widen_eq_self_iff (hs : s.unreachable = false) (hother : other.unreachable = false)
    (hwf : s.WellFormedWithin lengths) (hwf' : other.WellFormedWithin lengths) :
    s.widen other = s ↔ s.merge other = s := by
  have hlookup : ∀ {t : State}, t.unreachable = s.unreachable →
      (t = s ↔ ∀ d, t.lookup d = s.lookup d) := fun hreach =>
    ⟨fun h d => by rw [h], eq_of_lookup hreach⟩
  rw [hlookup (by rw [widen_unreachable, hs, Bool.false_and]),
    hlookup (by rw [merge_unreachable, hs, Bool.false_and])]
  refine forall_congr' fun d => ?_
  rw [lookup_widen hs hother, lookup_merge hs hother]
  exact combineValues_eq_left_iff (hwf d) (hwf' d)

end State

/-- Joined with the join, a widening of well-formed values stays what it is; and it leaves the first
value as it is exactly if the join does. So does the widening of a reachable state by another. -/
theorem widening_is_above_join_and_settles_with_it :
    (∀ a b : Value, a.WellFormedWithin lengths → b.WellFormedWithin lengths →
      (a.widen b).merge (a.merge b) = a.widen b ∧ (a.widen b = a ↔ a.merge b = a)) ∧
    ∀ s other : State, s.unreachable = false → other.unreachable = false →
      s.WellFormedWithin lengths → other.WellFormedWithin lengths →
      (s.widen other = s ↔ s.merge other = s) :=
  ⟨fun _ _ ha hb => ⟨Value.widen_merge_merge ha hb, Value.widen_eq_self_iff ha hb⟩,
    fun _ _ => State.widen_eq_self_iff⟩

def wrappedRange (lo hi : Int) : Value := .boxed (.intRange lo hi) false

/-- A wrapped digit is widened past the join with greater numbers; smaller digits that come back to
a loop head leave it as it is. -/
theorem wrappedDigit_outgrown_and_kept :
    (wrappedRange 0 9).WellFormedWithin lengths ∧ (wrappedRange 8 12).WellFormedWithin lengths ∧
    (wrappedRange 3 6).WellFormedWithin lengths ∧
    (wrappedRange 0 9).merge (wrappedRange 8 12) = wrappedRange 0 12 ∧
    (wrappedRange 0 9).widen (wrappedRange 8 12) = wrappedRange 0 maxInt ∧
    (wrappedRange 0 maxInt).merge (wrappedRange 0 12) = wrappedRange 0 maxInt ∧
    (State.initial.set ⟨0⟩ (wrappedRange 0 9)).widen (State.initial.set ⟨0⟩ (wrappedRange 3 6)) =
      State.initial.set ⟨0⟩ (wrappedRange 0 9) := by
  have hdigit : (wrappedRange 0 9).WellFormedWithin lengths := ⟨rfl, trivial⟩
  have hdozen : (wrappedRange 8 12).WellFormedWithin lengths := ⟨rfl, trivial⟩
  have hmiddle : (wrappedRange 3 6).WellFormedWithin lengths := ⟨rfl, trivial⟩
  have hinitial : State.initial.WellFormedWithin lengths := fun _ _ h => by cases h
  obtain ⟨hvalues, hstates⟩ := widening_is_above_join_and_settles_with_it
  have hjoin : (wrappedRange 0 9).merge (wrappedRange 8 12) = wrappedRange 0 12 := by decide
  have hwiden : (wrappedRange 0 9).widen (wrappedRange 8 12) = wrappedRange 0 maxInt := by decide
  have habove := (hvalues _ _ hdigit hdozen).1
  rw [hjoin, hwiden] at habove
  have hkept := (hstates _ _ rfl rfl (State.wf_set (d := ⟨0⟩) hinitial hdigit)
    (State.wf_set (d := ⟨0⟩) hinitial hmiddle)).2 (by decide)
  exact ⟨hdigit, hdozen, hmiddle, hjoin, hwiden, habove, hkept⟩

end ValueFlow
