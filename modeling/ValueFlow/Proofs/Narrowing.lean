import ValueFlow.Proofs.Comparison
import ValueFlow.Proofs.JoinMeet

namespace ValueFlow

namespace Value

variable {a b v w : Value} {x : Concrete} {i j k : Interval} {n : Bool}

section Meet

theorem null_mem_of_mayBeNull (h : v.mayBeNull = true) : .null ∈ v := by
  cases v with
  | any => trivial
  | null => rfl
  | str l n | array l n | boxed w n => exact .inl ⟨h, rfl⟩
  | object n => exact .inl h
  | _ => cases h

theorem mem_withNullable (hv : v.isReference = true) :
    x ∈ v.withNullable n ↔ (n = true ∧ x = .null) ∨ (x ≠ .null ∧ x ∈ v) := by
  by_cases hx : x = .null
  · subst hx
    simp only [and_true, ne_eq, not_true_eq_false, false_and, or_false]
    constructor
    · intro h
      have hnull := mayBeNull_of_mem h
      cases v with
      | null => exact (mem_onlyNull.1 h).1
      | str l m | array l m | boxed w m | object m => exact hnull
      | _ => cases hv
    · rintro rfl
      exact null_mem_withNullable hv
  · cases v with
    | null => simp [withNullable, mem_onlyNull, hx]
    | str l m => simp [withNullable, mem_str, hx]
    | array l m => simp [withNullable, mem_array, hx]
    | boxed w m => simp [withNullable, mem_boxed, hx]
    | object m => exact ⟨fun _ => .inr ⟨hx, .inr hx⟩, fun _ => .inr hx⟩
    | _ => cases hv

theorem mem_of_mem_withNullable_false (h : x ∈ v.withNullable false) : x ∈ v := by
  cases hv : v.isReference with
  | true =>
    rcases (mem_withNullable hv).1 h with ⟨hfalse, -⟩ | ⟨-, h⟩
    · cases hfalse
    · exact h
  | false => cases v <;> first | exact h | cases hv

theorem mem_left_of_meet {m : Int} (h : i.meet j = some k) (hm : m ∈ k) : m ∈ i :=
  Interval.mem_of_includes (Interval.includes_of_meet_left h) hm

theorem HasLength.mem_left_of_meet {k : Interval → Bool → Value} {m : Bool}
    (hk : HasLength k) (h : x ∈ overLength k (i.meet j) (n && m)) : x ∈ k i n := by
  obtain ⟨hn, rfl⟩ | ⟨c, hc, h⟩ := hk.mem_overLength.1 h
  · exact hk.null_mem.2 (Bool.and_eq_true_iff.1 hn).1
  · exact hk.mem_mono (fun _ _ => Value.mem_left_of_meet hc)
      (fun hn => (Bool.and_eq_true_iff.1 hn).1) h

theorem of_mem_ite_any {c : Prop} [Decidable c] (h : x ∈ if c then v else any)
    (hany : (if c then v else any) ≠ any) : c ∧ x ∈ v := by
  by_cases hc : c
  · rw [if_pos hc] at h
    exact ⟨hc, h⟩
  · exact absurd (if_neg hc) hany

/-- A meet that some rule covers lies within its first operand. -/
theorem mem_left_of_mem_intersectFlat (h : x ∈ intersectFlat a b)
    (hany : intersectFlat a b ≠ any) : x ∈ a := by
  revert h hany
  unfold intersectFlat
  split <;> intro h hany
  · exact h
  · exact h.elim
  · trivial
  · exact h
  · obtain ⟨c, hc, m, hm, rfl⟩ := mem_integerOf.1 h
    exact ⟨m, mem_left_of_meet hc hm, rfl⟩
  · obtain ⟨c, hc, m, hm, rfl⟩ := mem_charOf.1 h
    exact ⟨m, mem_left_of_meet hc hm, rfl⟩
  · obtain ⟨c, hc, m, hm, rfl⟩ := mem_charOf.1 h
    exact ⟨m, mem_left_of_meet hc hm, rfl⟩
  · obtain ⟨c, hc, m, hm, rfl⟩ := mem_charOf.1 h
    exact ⟨m, mem_left_of_meet hc hm, rfl⟩
  · rw [mem_ofFlags] at h
    simp only [mem_boolean, Bool.and_eq_true] at h ⊢
    exact h.imp (fun h => ⟨h.1.1, h.2⟩) fun h => ⟨h.1.1, h.2⟩
  · exact HasLength.mem_left_of_meet (k := str) (.inl rfl) h
  · exact HasLength.mem_left_of_meet (k := array) (.inr rfl) h
  · obtain ⟨hv, h⟩ := of_mem_ite_any h hany
    exact (mem_onlyNull.1 h).2
  · obtain ⟨hv, h⟩ := of_mem_ite_any h hany
    obtain ⟨hnull, rfl⟩ := mem_onlyNull.1 h
    exact null_mem_of_mayBeNull hnull
  · obtain ⟨hv, h⟩ := of_mem_ite_any h hany
    rcases (mem_withNullable hv).1 h with ⟨hn, rfl⟩ | ⟨hx, -⟩
    · exact .inl (Bool.and_eq_true_iff.1 hn).2
    · exact .inr hx
  · obtain ⟨hv, h⟩ := of_mem_ite_any h hany
    rcases (mem_withNullable hv).1 h with ⟨hn, rfl⟩ | ⟨-, h⟩
    · exact null_mem_of_mayBeNull (Bool.and_eq_true_iff.1 hn).1
    · exact h
  · exact absurd rfl hany

end Meet

section Ordered

variable {narrow : Interval → Interval → Option Interval}

theorem mem_of_mem_narrowRange (hnarrow : Narrows narrow) (h : x ∈ narrowRange narrow a b) :
    x ∈ a := by
  unfold narrowRange at h
  split at h
  · obtain ⟨c, hc, m, hm, rfl⟩ := mem_integerOf.1 h
    exact ⟨m, Interval.mem_of_includes (hnarrow _ _ c hc) hm, rfl⟩
  · obtain ⟨c, hc, m, hm, rfl⟩ := mem_charOf.1 h
    exact ⟨m, Interval.mem_of_includes (hnarrow _ _ c hc) hm, rfl⟩
  · exact h

theorem mem_boxed_of_mem_box_false (h : x ∈ box v false) (hv : x ∈ v → x ∈ w) : x ∈ boxed w n := by
  rcases mem_box.1 h with ⟨hfalse, -⟩ | ⟨hx, h⟩
  · cases hfalse
  · exact .inr ⟨hx, hv h⟩

theorem mem_of_mem_restrictOrdered (hnarrow : Narrows narrow)
    (h : x ∈ restrictOrdered narrow a b) : x ∈ a := by
  fun_induction restrictOrdered narrow a b with
  | case1 => exact h.elim
  | case2 v n b _ ih => exact mem_boxed_of_mem_box_false h ih
  | case3 a b _ =>
    rcases restrictOrderedRight_eq narrow a b with hr | ⟨w, hr⟩
    · rw [hr] at h
      exact h.elim
    · rw [hr] at h
      exact mem_of_mem_narrowRange hnarrow h

end Ordered

section Equal

/-- Two wrappers, the one around a truth value and the other around a number. -/
def wrapUnlike : Value → Value → Bool
  | boxed (boolean ..) _, boxed v _ => v.range?.isSome
  | boxed v _, boxed (boolean ..) _ => v.range?.isSome
  | _, _ => false

theorem mem_of_mem_restrictEqualNull {o : Value} (ho : restrictEqualNull a b = some o)
    (h : x ∈ o) : x ∈ a := by
  unfold restrictEqualNull at ho
  split at ho
  · cases ho
    exact h.elim
  · split at ho
    · cases ho
      obtain ⟨hnull, rfl⟩ := mem_onlyNull.1 h
      exact null_mem_of_mayBeNull hnull
    · split at ho
      · rename_i hnull
        cases ho
        cases a <;> first | exact (mem_onlyNull.1 h).2 | cases hnull
      · cases ho

/-- Unless a wrapper meets a wrapper or a primitive, nothing is unwrapped. -/
theorem intersect_eq_flat
    (hleft : ∀ v n, a = boxed v n → b.isPrimitive = false ∧ ∀ w m, b ≠ boxed w m)
    (hright : ∀ w m, b = boxed w m → a.isPrimitive = false) :
    a.intersect b = intersectFlat a b := by
  fun_cases intersect a b with
  | case1 v n w m => exact absurd rfl ((hleft v n rfl).2 w m)
  | case2 a b _ ha =>
    cases b with
    | boxed w m => cases ha.symm.trans (hright w m rfl)
    | _ => rfl
  | case3 a b _ _ hb =>
    cases a with
    | boxed v n => cases hb.symm.trans (hleft v n rfl).1
    | _ => exact intersectFlat_comm b _
  | case4 => rfl

theorem mem_of_mem_restrictEqualFlat (hmeet : a.intersect b ≠ any → x ∈ a.intersect b → x ∈ a)
    (h : x ∈ restrictEqualFlat a b) : x ∈ a := by
  unfold restrictEqualFlat at h
  split at h
  · obtain ⟨c, hc, m, hm, rfl⟩ := mem_integerOf.1 h
    exact ⟨m, mem_left_of_meet hc hm, rfl⟩
  · obtain ⟨c, hc, m, hm, rfl⟩ := mem_charOf.1 h
    exact ⟨m, mem_left_of_meet hc hm, rfl⟩
  · split at h
    · exact h
    · rename_i hany
      exact hmeet (fun heq => hany (by rw [heq]; rfl)) h

theorem mem_of_mem_getD_restrictEqual (hmeet : a.intersect b ≠ any → x ∈ a.intersect b → x ∈ a)
    (h : x ∈ (restrictEqualNull a b).getD (restrictEqualFlat a b)) : x ∈ a := by
  cases hnull : restrictEqualNull a b with
  | some o =>
    rw [hnull] at h
    exact mem_of_mem_restrictEqualNull hnull h
  | none =>
    rw [hnull] at h
    exact mem_of_mem_restrictEqualFlat hmeet h

theorem eq_any_of_intersectFlat_eq_any {n m : Bool} (hv : v.isContent = true)
    (hw : w.isContent = true) (hunlike : wrapUnlike (boxed v n) (boxed w m) = false)
    (h : intersectFlat v w = any) : v = any := by
  have hinteger : ∀ o, integerOf o ≠ any := fun o => by cases o <;> simp [integerOf]
  have hchar : ∀ o, charOf o ≠ any := fun o => by cases o <;> simp [charOf]
  have hflags : ∀ t f, ofFlags t f ≠ any := fun t f => by cases t <;> cases f <;> simp [ofFlags]
  cases v with
  | any => rfl
  | integer i =>
    cases w with
    | any => cases h
    | integer j => exact absurd h (hinteger _)
    | char j => exact absurd h (hchar _)
    | boolean t f => cases hunlike
    | _ => cases hw
  | char i =>
    cases w with
    | any => cases h
    | integer j | char j => exact absurd h (hchar _)
    | boolean t f => cases hunlike
    | _ => cases hw
  | boolean t f =>
    cases w with
    | any => cases h
    | integer j | char j => cases hunlike
    | boolean t' f' => exact absurd h (hflags _ _)
    | _ => cases hw
  | _ => cases hv

theorem mem_of_mem_intersect_boxed {m : Bool} (hv : v.isContent = true) (hw : w.isContent = true)
    (hunlike : wrapUnlike (boxed v n) (boxed w m) = false)
    (h : x ∈ intersect (boxed v n) (boxed w m)) : x ∈ boxed v n := by
  have hflat : v.intersect w = intersectFlat v w := by
    refine intersect_eq_flat ?_ ?_
    · rintro _ _ rfl
      cases hv
    · rintro _ _ rfl
      cases hw
  rw [intersect, hflat, mem_box] at h
  refine mem_boxed_mono (fun hx => ?_) (fun hn => (Bool.and_eq_true_iff.1 hn).1) h
  by_cases hany : intersectFlat v w = any
  · rw [eq_any_of_intersectFlat_eq_any hv hw hunlike hany]
    trivial
  · exact mem_left_of_mem_intersectFlat hx hany

theorem mem_of_mem_restrictEqualPrimitive (ha : a.isPrimitive = true)
    (h : x ∈ restrictEqualPrimitive a b) : x ∈ a := by
  have ha' : ∀ v n, a ≠ boxed v n := by
    rintro _ _ rfl
    cases ha
  induction b with
  | boxed b m ih => exact ih h
  | _ =>
    refine mem_of_mem_getD_restrictEqual (fun hany hx => ?_) h
    rw [intersect_eq_flat (fun v n heq => absurd heq (ha' v n)) (by simp)] at hany hx
    exact mem_left_of_mem_intersectFlat hx hany

/-- Equality narrows every value but a wrapper that is compared with an unlike one. -/
theorem mem_of_mem_restrictEqual {limit : Interval} (ha : a.WellFormedWithin limit)
    (hb : b.WellFormedWithin limit) (hunlike : wrapUnlike a b = false)
    (h : x ∈ restrictEqual a b) : x ∈ a := by
  fun_induction restrictEqual a b with
  | case1 v n b hp ih =>
    refine mem_boxed_of_mem_box_false h (ih ha.2 hb ?_)
    have hv := ha.1
    cases v <;> first | rfl | cases hv
  | case2 v n b hp =>
    refine mem_of_mem_getD_restrictEqual (fun hany hx => ?_) h
    cases b with
    | boxed w m => exact mem_of_mem_intersect_boxed ha.1 hb.1 hunlike hx
    | _ =>
      rw [intersect_eq_flat (by simpa using hp) (by simp)] at hany hx
      exact mem_left_of_mem_intersectFlat hx hany
  | case3 a b _ hp => exact mem_of_mem_restrictEqualPrimitive hp h
  | case4 a b hboxed hp =>
    refine mem_of_mem_getD_restrictEqual (fun hany hx => ?_) h
    rw [intersect_eq_flat (fun v n heq => absurd heq (hboxed v n))
      fun _ _ _ => by simpa using hp] at hany hx
    exact mem_left_of_mem_intersectFlat hx hany

/-- Of two unlike wrappers, `==` leaves a wrapper that may carry anything. -/
theorem restrictEqual_of_wrapUnlike (h : wrapUnlike a b = true) :
    restrictEqual a b = boxed any (a.mayBeNull && b.mayBeNull) := by
  unfold wrapUnlike at h
  split at h
  · rename_i v m
    cases v <;> first | rfl | cases h
  · rename_i v n _ _ m _
    cases v <;> first | rfl | cases h
  · cases h

theorem object_notMem_of_wrapUnlike (h : wrapUnlike a b = true) : .object 0 ∉ a := by
  unfold wrapUnlike at h
  split at h
  · simp [mem_boxed, mem_boolean]
  · rename_i v n _ _ m _
    obtain ⟨i, hi⟩ := Option.isSome_iff_exists.1 h
    have hnumber : .object 0 ∉ v := by
      rcases range?_eq_some hi with rfl | rfl
      · rintro ⟨k, -, hk⟩
        cases hk
      · rintro ⟨k, -, hk⟩
        cases hk
    simpa [mem_boxed] using hnumber
  · cases h

end Equal

section NotEqual

theorem mem_of_mem_restrictNotEqualNull {o : Value} (ho : restrictNotEqualNull a b = some o)
    (h : x ∈ o) : x ∈ a := by
  unfold restrictNotEqualNull at ho
  split at ho
  · cases ho
    exact h.elim
  · split at ho
    · cases ho
      exact mem_of_mem_withNullable_false h
    · split at ho
      · rename_i hnull
        cases ho
        cases a <;> first | exact h | cases hnull
      · cases ho

theorem mem_of_mem_restrictNotEqualFlat (h : x ∈ restrictNotEqualFlat a b) : x ∈ a := by
  unfold restrictNotEqualFlat at h
  split at h
  · split at h
    · rw [mem_ofFlags] at h
      exact h.imp (fun h => nomatch h.1) id
    · rw [mem_ofFlags] at h
      exact h.imp id fun h => nomatch h.1
    · exact h
  · exact mem_of_mem_narrowRange narrows_notEqual h

theorem mem_of_mem_getD_restrictNotEqual {o : Value} (ho : x ∈ o → x ∈ a)
    (h : x ∈ (restrictNotEqualNull a b).getD o) : x ∈ a := by
  cases hnull : restrictNotEqualNull a b with
  | some o' =>
    rw [hnull] at h
    exact mem_of_mem_restrictNotEqualNull hnull h
  | none =>
    rw [hnull] at h
    exact ho h

theorem mem_of_mem_restrictNotEqualPrimitive (h : x ∈ restrictNotEqualPrimitive a b) : x ∈ a := by
  induction b with
  | boxed b m ih =>
    cases a with
    | boolean t f => exact mem_of_mem_restrictNotEqualFlat h
    | _ => exact ih h
  | _ => exact mem_of_mem_getD_restrictNotEqual mem_of_mem_restrictNotEqualFlat h

theorem mem_of_mem_restrictNotEqual (h : x ∈ restrictNotEqual a b) : x ∈ a := by
  fun_induction restrictNotEqual a b with
  | case1 v n b hp ih => exact mem_boxed_of_mem_box_false h ih
  | case2 => exact mem_of_mem_getD_restrictNotEqual id h
  | case3 => exact mem_of_mem_restrictNotEqualPrimitive h
  | case4 => exact mem_of_mem_getD_restrictNotEqual id h

end NotEqual

end Value

/-- Narrowing by a comparison adds no value, unless `==` compares two unlike wrappers: then what is
left may carry anything, so that values are added. -/
theorem narrowing_adds_values_to_unlike_wrappers_only (rel : Relation) {a b : Value}
    (ha : a.WellFormedWithin lengths) (hb : b.WellFormedWithin lengths) :
    (¬ (rel = .eq ∧ a.wrapUnlike b = true) → ∀ x, x ∈ a.restrict rel b → x ∈ a) ∧
    (rel = .eq → a.wrapUnlike b = true →
      a.restrict rel b = .boxed .any (a.mayBeNull && b.mayBeNull) ∧
      ∃ x, x ∈ a.restrict rel b ∧ x ∉ a) := by
  constructor
  · intro hunlike x h
    cases rel with
    | lt => exact Value.mem_of_mem_restrictOrdered Value.narrows_less h
    | le => exact Value.mem_of_mem_restrictOrdered Value.narrows_lessOrEqual h
    | gt => exact Value.mem_of_mem_restrictOrdered Value.narrows_greater h
    | ge => exact Value.mem_of_mem_restrictOrdered Value.narrows_greaterOrEqual h
    | eq => exact Value.mem_of_mem_restrictEqual ha hb (by simpa using hunlike) h
    | ne => exact Value.mem_of_mem_restrictNotEqual h
  · rintro rfl hunlike
    have hrestrict : a.restrict .eq b = .boxed .any (a.mayBeNull && b.mayBeNull) :=
      Value.restrictEqual_of_wrapUnlike hunlike
    refine ⟨hrestrict, .object 0, ?_, Value.object_notMem_of_wrapUnlike hunlike⟩
    rw [hrestrict]
    exact .inr ⟨by simp, trivial⟩

def wrappedSeven : Value := .boxed (.int 7) false

def wrappedFlag : Value := .boxed .anyBool true

/-- If it differs from the flag, the wrapper is what it was; if it equals the flag, it may carry
anything. -/
theorem wrappedSeven_narrowed :
    wrappedSeven.WellFormedWithin lengths ∧ wrappedFlag.WellFormedWithin lengths ∧
    (∀ x, x ∈ wrappedSeven.restrict .ne wrappedFlag → x ∈ wrappedSeven) ∧
    wrappedSeven.restrict .eq wrappedFlag = .boxed .any false := by
  have hseven : wrappedSeven.WellFormedWithin lengths := ⟨rfl, trivial⟩
  have hflag : wrappedFlag.WellFormedWithin lengths := ⟨rfl, .inl rfl⟩
  have hne := (narrowing_adds_values_to_unlike_wrappers_only .ne hseven hflag).1 (by simp)
  have heq := (narrowing_adds_values_to_unlike_wrappers_only .eq hseven hflag).2 rfl rfl
  exact ⟨hseven, hflag, hne, heq.1⟩

/-- An object is among what is left of the wrapped seven if it equals a wrapped flag, though it is
no wrapped seven. -/
theorem wrappedSeven_gains_object :
    wrappedSeven.WellFormedWithin lengths ∧ wrappedFlag.WellFormedWithin lengths ∧
    .object 0 ∈ wrappedSeven.restrict .eq wrappedFlag ∧ .object 0 ∉ wrappedSeven := by
  refine ⟨⟨rfl, trivial⟩, ⟨rfl, .inl rfl⟩, .inr ⟨by simp, trivial⟩, ?_⟩
  rintro (⟨hfalse, -⟩ | ⟨-, m, -, hm⟩)
  · cases hfalse
  · cases hm

end ValueFlow
