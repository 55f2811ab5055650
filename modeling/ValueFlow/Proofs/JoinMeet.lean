import ValueFlow.Proofs.Idempotence
import ValueFlow.Proofs.Simulation.Loop
import ValueFlow.Proofs.State

namespace ValueFlow

open Bindings

namespace Interval

variable (a b : Interval)

theorem hull_comm : a.hull b = b.hull a := by
  apply Interval.ext
  · exact Int.min_comm a.lo b.lo
  · exact Int.max_comm a.hi b.hi

theorem hull_hull_self : a.hull (a.hull b) = a.hull b := by
  apply Interval.ext
  · exact (Int.min_assoc a.lo a.lo b.lo).symm.trans (congrArg (min · b.lo) (Int.min_self a.lo))
  · exact (Int.max_assoc a.hi a.hi b.hi).symm.trans (congrArg (max · b.hi) (Int.max_self a.hi))

theorem meet_comm : a.meet b = b.meet a := by
  unfold meet
  simp only [Int.max_comm a.lo b.lo, Int.min_comm a.hi b.hi]

end Interval

namespace Value

variable {limit : Interval} {a b v w : Value} {n m : Bool}

section Commutativity

theorem mergeFlat_comm (a b : Value) : mergeFlat a b = mergeFlat b a := by
  cases a <;> cases b <;>
    simp [mergeFlat, Interval.hull_comm, Bool.or_comm, isReference, mayBeNull, withNullable]

theorem intersectFlat_comm (a b : Value) : intersectFlat a b = intersectFlat b a := by
  cases a <;> cases b <;>
    simp [intersectFlat, Interval.meet_comm, Bool.and_comm, isReference, mayBeNull, withNullable]

theorem merge_of_isPrimitive_left (ha : a.isPrimitive = true) : a.merge b = mergePrimitive a b := by
  cases a <;> first | rfl | cases ha

theorem merge_of_isPrimitive_right (hb : b.isPrimitive = true) :
    a.merge b = mergePrimitive b a := by
  by_cases ha : a.isPrimitive = true
  · rw [merge_of_isPrimitive_left ha, mergePrimitive_of_content (isContent_of_isPrimitive hb),
      mergePrimitive_of_content (isContent_of_isPrimitive ha), mergeFlat_comm]
  · rw [merge, if_neg ha, if_pos hb]
    rintro v n w m - rfl
    cases hb

theorem intersect_of_isPrimitive_left (ha : a.isPrimitive = true) :
    a.intersect b = intersectPrimitive a b := by
  cases a <;> first | rfl | cases ha

theorem intersect_of_isPrimitive_right (hb : b.isPrimitive = true) :
    a.intersect b = intersectPrimitive b a := by
  by_cases ha : a.isPrimitive = true
  · rw [intersect_of_isPrimitive_left ha,
      intersectPrimitive_of_content (isContent_of_isPrimitive hb),
      intersectPrimitive_of_content (isContent_of_isPrimitive ha), intersectFlat_comm]
  · rw [intersect, if_neg ha, if_pos hb]
    rintro v n w m - rfl
    cases hb

theorem merge_comm (a b : Value) : a.merge b = b.merge a := by
  fun_induction merge a b with
  | case1 v n w m ih => rw [merge, ih, Bool.or_comm]
  | case2 a b _ ha => exact (merge_of_isPrimitive_right ha).symm
  | case3 a b _ _ hb => exact (merge_of_isPrimitive_left hb).symm
  | case4 a b hboxed ha hb =>
    rw [mergeFlat_comm, merge, if_neg hb, if_neg ha]
    exact fun v n w m hb ha => hboxed w m v n ha hb

theorem intersect_comm (a b : Value) : a.intersect b = b.intersect a := by
  fun_induction intersect a b with
  | case1 v n w m ih => rw [intersect, ih, Bool.and_comm]
  | case2 a b _ ha => exact (intersect_of_isPrimitive_right ha).symm
  | case3 a b _ _ hb => exact (intersect_of_isPrimitive_left hb).symm
  | case4 a b hboxed ha hb =>
    rw [intersectFlat_comm, intersect, if_neg hb, if_neg ha]
    exact fun v n w m hb ha => hboxed w m v n ha hb

end Commutativity

theorem merge_empty (v : Value) : v.merge empty = v := by
  cases v <;> rfl

theorem merge_any (v : Value) : v.merge any = any := by
  rw [merge_comm]
  cases v <;> rfl

section Absorption

theorem mergeFlat_boolean {t f t' f' : Bool} (h : (boolean t f).WellFormedWithin limit) :
    mergeFlat (boolean t f) (boolean t' f') = boolean (t || t') (f || f') := by
  have hjoined : (boolean (t || t') (f || f')).WellFormedWithin limit := by
    rcases h with rfl | rfl
    · exact .inl (Bool.true_or t')
    · exact .inr (Bool.true_or f')
  exact ofFlags_of_wellFormed hjoined

/-- Without wrappers a join that is made twice is made once. -/
theorem mergeFlat_mergeFlat_self (ha : a.WellFormedWithin limit) (hbox : ∀ w n, a ≠ boxed w n) :
    mergeFlat a (mergeFlat a b) = mergeFlat a b := by
  cases a with
  | boolean t f =>
    cases b with
    | boolean t' f' => simp only [mergeFlat_boolean ha, ← Bool.or_assoc, Bool.or_self]
    | empty => exact mergeFlat_self ha hbox
    | _ => rfl
  | boxed w n => exact absurd rfl (hbox w n)
  | _ =>
    cases b <;> simp [mergeFlat, Interval.hull_hull_self, Interval.hull_self, isReference,
      mayBeNull, withNullable, onlyNull]

theorem eq_boxed_or_flat (v : Value) : (∃ w n, v = boxed w n) ∨ ∀ w n, v ≠ boxed w n := by
  cases v with
  | boxed w n => exact .inl ⟨w, n, rfl⟩
  | _ => exact .inr (by simp)

/-- Values that are no wrappers are joined without looking further. -/
theorem merge_of_flat (ha : ∀ v n, a ≠ boxed v n) (hb : ∀ v n, b ≠ boxed v n) :
    a.merge b = mergeFlat a b := by
  have hprimitive : ∀ {p v : Value}, (∀ w n, v ≠ boxed w n) →
      mergePrimitive p v = mergeFlat p v := by
    intro p v hv
    cases v with
    | boxed w n => exact absurd rfl (hv w n)
    | _ => rfl
  rw [merge, hprimitive hb, hprimitive ha, mergeFlat_comm b a, ite_self, ite_self]
  exact fun v n _ _ hv _ => ha v n hv

theorem mergeFlat_ne_boxed (ha : ∀ v n, a ≠ boxed v n) (hb : ∀ v n, b ≠ boxed v n) (v : Value)
    (n : Bool) : mergeFlat a b ≠ boxed v n := by
  cases a <;> cases b <;> grind [mergeFlat, ofFlags, withNullable, onlyNull]

section Wrappers

variable (hv : v.isContent = true) (hwf : v.WellFormedWithin limit)

include hv hwf

theorem isContent_mergeFlat (w : Value) : (mergeFlat v w).isContent = true := by
  have hflags : ∀ t f t' f', v = boolean t f → w = boolean t' f' →
      (mergeFlat v w).isContent = true := by
    rintro t f t' f' rfl rfl
    rw [mergeFlat_boolean hwf]
    rfl
  cases v <;> cases w <;> first | exact hflags _ _ _ _ rfl rfl | rfl | cases hv

theorem merge_boxed_boxed (hw : w.isContent = true) :
    (boxed v n).merge (boxed w m) = boxed (mergeFlat v w) (n || m) := by
  rw [merge, merge_of_flat (not_boxed_of_isContent hv) (not_boxed_of_isContent hw),
    box_of_isContent (isContent_mergeFlat hv hwf w)]

theorem merge_boxed_primitive (hw : w.isPrimitive = true) :
    (boxed v n).merge w = boxed (mergeFlat v w) n := by
  rw [merge_of_isPrimitive_right hw, mergePrimitive, mergePrimitive_of_content hv, mergeFlat_comm,
    box_of_isContent (isContent_mergeFlat hv hwf w)]

theorem merge_merge_boxed (hb : b.WellFormedWithin limit) :
    (boxed v n).merge ((boxed v n).merge b) = (boxed v n).merge b := by
  have hflat : ∀ w, mergeFlat v (mergeFlat v w) = mergeFlat v w := fun w =>
    mergeFlat_mergeFlat_self hwf (not_boxed_of_isContent hv)
  -- the first join puts the primitive into the wrapper, so the second one is between wrappers
  have hprimitive : b.isPrimitive = true →
      (boxed v n).merge ((boxed v n).merge b) = (boxed v n).merge b := by
    intro hp
    have hc := isContent_mergeFlat hv hwf b
    rw [merge_boxed_primitive hv hwf hp, merge_boxed_boxed hv hwf hc, hflat, Bool.or_self]
  cases b with
  | boxed w m =>
    have hc := isContent_mergeFlat hv hwf w
    rw [merge_boxed_boxed hv hwf hb.1, merge_boxed_boxed hv hwf hc, hflat, ← Bool.or_assoc,
      Bool.or_self]
  | integer i | char i | boolean t f => exact hprimitive rfl
  | empty =>
    have hwf' : (boxed v n).WellFormedWithin limit := ⟨hv, hwf⟩
    exact merge_self hwf'
  | null =>
    show (boxed v n).merge (boxed v true) = boxed v true
    rw [merge_boxed_boxed hv hwf hv, mergeFlat_self hwf (not_boxed_of_isContent hv), Bool.or_true]
  | object m =>
    show object (n || (n || m)) = object (n || m)
    rw [← Bool.or_assoc, Bool.or_self]
  | any | str l m | array l m => rfl

end Wrappers

/-- A value that is no wrapper, joined twice with a wrapper. -/
theorem merge_merge_self_boxed (ha : a.WellFormedWithin limit) (hbox : ∀ v n, a ≠ boxed v n)
    (hv : v.isContent = true) (hwf : v.WellFormedWithin limit) :
    a.merge (a.merge (boxed v n)) = a.merge (boxed v n) := by
  by_cases hp : a.isPrimitive = true
  · -- the first join puts `a` into the wrapper, so that the second one finds it there
    have hc := isContent_mergeFlat hv hwf a
    have hwf' := wf_mergeFlat hwf ha
    rw [merge_comm a (boxed v n), merge_boxed_primitive hv hwf hp, merge_comm,
      merge_boxed_primitive hc hwf' hp, mergeFlat_comm v a, mergeFlat_comm _ a,
      mergeFlat_mergeFlat_self ha hbox]
  · cases a with
    | boxed w m => exact absurd rfl (hbox w m)
    | integer i | char i | boolean t f => exact absurd rfl hp
    | object m =>
      show object (m || (m || n)) = object (m || n)
      rw [← Bool.or_assoc, Bool.or_self]
    | _ => rfl

/-- A join that is made twice is made once. -/
theorem merge_merge_self (ha : a.WellFormedWithin limit) (hb : b.WellFormedWithin limit) :
    a.merge (a.merge b) = a.merge b := by
  rcases eq_boxed_or_flat a with ⟨v, n, rfl⟩ | ha'
  · exact merge_merge_boxed ha.1 ha.2 hb
  · rcases eq_boxed_or_flat b with ⟨w, m, rfl⟩ | hb'
    · exact merge_merge_self_boxed ha ha' hb.1 hb.2
    · rw [merge_of_flat ha' hb', merge_of_flat ha' (mergeFlat_ne_boxed ha' hb'),
        mergeFlat_mergeFlat_self ha ha']

end Absorption

end Value

namespace State

variable {s other : State} {limit : Interval}

theorem eq_of_lookup (hreach : s.unreachable = other.unreachable)
    (h : ∀ d, s.lookup d = other.lookup d) : s = other := by
  have hvalues : s.values = other.values := ext_find? h
  cases s
  cases other
  simp_all

theorem combineValues_merge_comm (o o' : Option Value) :
    combineValues Value.merge o o' = combineValues Value.merge o' o := by
  cases o with
  | none => cases o' <;> rfl
  | some v =>
    cases o' with
    | none => rfl
    | some w => exact congrArg some (v.merge_comm w)

theorem combineValues_merge_twice {o o' : Option Value}
    (ho : ∀ v, o = some v → v.WellFormedWithin limit)
    (ho' : ∀ v, o' = some v → v.WellFormedWithin limit) :
    combineValues Value.merge (combineValues Value.merge o o') o' =
      combineValues Value.merge o o' := by
  cases o' with
  | none => cases o <;> rfl
  | some w =>
    cases o with
    | none => exact congrArg some (Value.merge_self (ho' w rfl))
    | some v =>
      refine congrArg some ?_
      -- absorption is stated from the left, states are merged in from the right
      rw [Value.merge_comm _ w, Value.merge_comm v w]
      exact Value.merge_merge_self (ho' w rfl) (ho v rfl)

section Reachable

variable (hs : s.unreachable = false) (hother : other.unreachable = false)

include hs hother

theorem merge_comm : s.merge other = other.merge s := by
  refine eq_of_lookup ?_ fun d => ?_
  · rw [merge_unreachable, merge_unreachable, Bool.and_comm]
  · rw [lookup_merge hs hother, lookup_merge hother hs, combineValues_merge_comm]

theorem merge_merge_right (hwf : s.WellFormedWithin limit) (hwf' : other.WellFormedWithin limit) :
    (s.merge other).merge other = s.merge other := by
  have hlive : (s.merge other).unreachable = false := by
    rw [merge_unreachable, hs, Bool.false_and]
  refine eq_of_lookup ?_ fun d => ?_
  · rw [merge_unreachable, hlive, Bool.false_and]
  · rw [lookup_merge hlive hother, lookup_merge hs hother]
    exact combineValues_merge_twice (hwf d) (hwf' d)

end Reachable

end State

/-- Join and meet do not depend on the order of well-formed operands and leave a value that meets
itself as it is; `empty` adds nothing to a join, `any` absorbs it, and a second join with the same
value changes nothing. The same holds of reachable states, to which an unreachable one, whatever it
still tracks, adds nothing on either side. -/
theorem join_and_meet_laws :
    (∀ a b : Value, a.WellFormedWithin lengths → b.WellFormedWithin lengths →
      a.merge b = b.merge a ∧ a.merge a = a ∧ a.merge .empty = a ∧ a.merge .any = .any ∧
        a.merge (a.merge b) = a.merge b ∧ a.intersect b = b.intersect a ∧ a.intersect a = a) ∧
    ∀ s other : State, s.unreachable = false → other.unreachable = false →
      s.WellFormedWithin lengths → other.WellFormedWithin lengths →
      s.merge other = other.merge s ∧ (s.merge other).merge other = s.merge other ∧
        ∀ gone : State, gone.unreachable = true → s.merge gone = s ∧ gone.merge s = s := by
  constructor
  · intro a b ha hb
    exact ⟨a.merge_comm b, Value.merge_self ha, a.merge_empty, a.merge_any,
      Value.merge_merge_self ha hb, a.intersect_comm b, Value.intersect_self ha⟩
  · intro s other hs hother hwf hwf'
    refine ⟨State.merge_comm hs hother, State.merge_merge_right hs hother hwf hwf', ?_⟩
    intro gone hgone
    exact ⟨State.combine_of_dead_right hgone, State.combine_of_dead_left hgone hs⟩

def digitOrNull : Value := .boxed (.intRange 0 9) true

def letter : Value := .charRange 97 122

/-- The wrapper takes in the letter as a number, from either side, and the branch that is dead adds
nothing to either state. -/
theorem digitOrNull_joins_letter :
    digitOrNull.WellFormedWithin lengths ∧ letter.WellFormedWithin lengths ∧
    digitOrNull.merge letter = .boxed (.intRange 0 122) true ∧
    letter.merge digitOrNull = .boxed (.intRange 0 122) true ∧
    (State.initial.set ⟨0⟩ digitOrNull).merge (State.initial.set ⟨0⟩ letter) =
      (State.initial.set ⟨0⟩ letter).merge (State.initial.set ⟨0⟩ digitOrNull) ∧
    (State.initial.set ⟨0⟩ letter).kill.merge (State.initial.set ⟨0⟩ digitOrNull) =
      State.initial.set ⟨0⟩ digitOrNull := by
  have hdigit : digitOrNull.WellFormedWithin lengths := ⟨rfl, trivial⟩
  have hletter : letter.WellFormedWithin lengths := rfl
  have hinitial : State.initial.WellFormedWithin lengths := fun _ _ h => by cases h
  obtain ⟨hvalues, hstates⟩ := join_and_meet_laws
  have hjoin : digitOrNull.merge letter = .boxed (.intRange 0 122) true := by decide
  have hmerge := hstates _ _ rfl rfl (State.wf_set (d := ⟨0⟩) hinitial hdigit)
    (State.wf_set (d := ⟨0⟩) hinitial hletter)
  exact ⟨hdigit, hletter, hjoin, (hvalues _ _ hletter hdigit).1.trans hjoin, hmerge.1,
    (hmerge.2.2 _ rfl).2⟩

end ValueFlow
