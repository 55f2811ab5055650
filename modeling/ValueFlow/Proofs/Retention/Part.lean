import ValueFlow.Proofs.State

namespace ValueFlow

theorem Interval.includes_of_meet {i j k c : Interval} (hi : j.includes i = true)
    (hc : i.meet k = some c) : j.includes c = true :=
  includes_trans hi (includes_of_meet_left hc)

namespace Value

/-- A primitive of the same kind, with some of the numbers or outcomes. -/
inductive PartOf : Value → Value → Prop
  | integer {i j : Interval} : j.includes i = true → PartOf (integer i) (integer j)
  | char {i j : Interval} : j.includes i = true → PartOf (char i) (char j)
  | boolean {t f t' f' : Bool} : (t = true ∨ f = true) → (t = true → t' = true) →
      (f = true → f' = true) → PartOf (boolean t f) (boolean t' f')

def LeftOf (v w : Value) : Prop := v = empty ∨ v.PartOf w

variable {a b u w : Value} {i j : Interval} {limit : Interval}

/-- A well-formed primitive is a part of itself. -/
theorem partOf_self (hprim : w.isPrimitive = true) (hwf : w.WellFormedWithin limit) :
    w.PartOf w := by
  cases w with
  | integer i => exact .integer Interval.includes_self
  | char i => exact .char Interval.includes_self
  | boolean t f => exact .boolean hwf id id
  | _ => cases hprim

theorem PartOf.trans (h : u.PartOf a) (h' : a.PartOf w) : u.PartOf w := by
  cases h with
  | integer hi =>
    cases h' with
    | integer hj => exact .integer (Interval.includes_trans hj hi)
  | char hi =>
    cases h' with
    | char hj => exact .char (Interval.includes_trans hj hi)
  | boolean hsome ht hf =>
    cases h' with
    | boolean _ ht' hf' => exact .boolean hsome (ht' ∘ ht) (hf' ∘ hf)

theorem PartOf.self (h : u.PartOf w) : u.PartOf u := by
  cases h with
  | integer => exact .integer Interval.includes_self
  | char => exact .char Interval.includes_self
  | boolean hsome => exact .boolean hsome id id

theorem PartOf.isEmpty (h : u.PartOf w) : u.isEmpty = false := by
  cases h <;> rfl

theorem PartOf.not_null (h : u.PartOf w) :
    u.isNull = false ∧ u.mayBeNull = false ∧ u.withNullable false = u := by
  cases h <;> exact ⟨rfl, rfl, rfl⟩

/-- What is left of a primitive is no reference. -/
theorem LeftOf.isReference (h : u.LeftOf w) : u.isReference = false := by
  obtain rfl | h := h
  · rfl
  · cases h <;> rfl

theorem leftOf_integerOf {o : Option Interval} (h : ∀ i, o = some i → j.includes i = true) :
    (integerOf o).LeftOf (integer j) := by
  cases o with
  | none => exact .inl rfl
  | some i => exact .inr (.integer (h i rfl))

theorem leftOf_charOf {o : Option Interval} (h : ∀ i, o = some i → j.includes i = true) :
    (charOf o).LeftOf (char j) := by
  cases o with
  | none => exact .inl rfl
  | some i => exact .inr (.char (h i rfl))

theorem leftOf_ofFlags {t f t' f' : Bool} (ht : t = true → t' = true)
    (hf : f = true → f' = true) : (ofFlags t f).LeftOf (boolean t' f') := by
  unfold ofFlags
  split
  · rename_i h
    exact .inr (.boolean (Bool.or_eq_true_iff.1 h) ht hf)
  · exact .inl rfl

theorem PartOf.merge (ha : a.PartOf w) (hb : b.PartOf w) : (a.merge b).PartOf w := by
  cases ha with
  | integer hi =>
    cases hb with
    | integer hj => exact .integer (Interval.includes_hull hi hj)
  | char hi =>
    cases hb with
    | char hj => exact .char (Interval.includes_hull hi hj)
  | @boolean t f _ _ hsome ht hf =>
    cases hb with
    | @boolean t₂ f₂ _ _ hsome₂ ht₂ hf₂ =>
      have hflags : (t || t₂) = true ∨ (f || f₂) = true := by
        simp only [Bool.or_eq_true_iff]
        exact hsome.elim (fun h => .inl (.inl h)) fun h => .inr (.inl h)
      show (ofFlags (t || t₂) (f || f₂)).PartOf _
      rw [ofFlags, if_pos (Bool.or_eq_true_iff.2 hflags)]
      refine .boolean hflags (fun h => ?_) fun h => ?_
      · exact (Bool.or_eq_true_iff.1 h).elim ht ht₂
      · exact (Bool.or_eq_true_iff.1 h).elim hf hf₂

theorem PartOf.intersect (ha : a.PartOf w) (hb : b.PartOf w) : (a.intersect b).LeftOf w := by
  cases ha with
  | integer hi =>
    cases hb with
    | integer => exact leftOf_integerOf fun _ => Interval.includes_of_meet hi
  | char hi =>
    cases hb with
    | char => exact leftOf_charOf fun _ => Interval.includes_of_meet hi
  | boolean _ ht hf =>
    cases hb with
    | boolean =>
      exact leftOf_ofFlags (fun h => ht (Bool.and_eq_true_iff.1 h).1)
        fun h => hf (Bool.and_eq_true_iff.1 h).1

section Restrict

variable {p : Value} (hp : p.PartOf p)

include hp

theorem leftOf_narrowRange {narrow : Interval → Interval → Option Interval} (h : Narrows narrow)
    (b : Value) : (narrowRange narrow p b).LeftOf p := by
  unfold narrowRange
  split
  · exact leftOf_integerOf fun k hk => h _ _ k hk
  · exact leftOf_charOf fun k hk => h _ _ k hk
  · exact .inr hp

theorem leftOf_restrictOrdered {narrow : Interval → Interval → Option Interval}
    (h : Narrows narrow) (b : Value) : (restrictOrdered narrow p b).LeftOf p := by
  have hright : (restrictOrderedRight narrow p b).LeftOf p := by
    obtain hempty | ⟨w, hw⟩ := restrictOrderedRight_eq narrow p b
    · exact .inl hempty
    · rw [hw]
      exact leftOf_narrowRange hp h w
  cases hp <;> exact hright

/-- Without wrappers, equality with a value of another kind says nothing. -/
theorem leftOf_restrictEqualFlat (hbox : ∀ v n, b ≠ boxed v n) (hempty : b.isEmpty = false) :
    (restrictEqualFlat p b).LeftOf p := by
  cases hp with
  | integer hi =>
    cases b with
    | integer j | char j => exact leftOf_integerOf fun _ h => Interval.includes_of_meet_left h
    | boxed v n => exact absurd rfl (hbox v n)
    | empty => cases hempty
    | _ => exact .inr (.integer hi)
  | char hi =>
    cases b with
    | integer j | char j => exact leftOf_charOf fun _ h => Interval.includes_of_meet_left h
    | boxed v n => exact absurd rfl (hbox v n)
    | empty => cases hempty
    | _ => exact .inr (.char hi)
  | @boolean t f _ _ hsome ht hf =>
    cases b with
    | boolean t' f' =>
      show (if (ofFlags (t && t') (f && f')).isAny then boolean t f
        else ofFlags (t && t') (f && f')).LeftOf _
      split
      · exact .inr (.boolean hsome ht hf)
      · exact leftOf_ofFlags (fun h => (Bool.and_eq_true_iff.1 h).1)
          fun h => (Bool.and_eq_true_iff.1 h).1
    | boxed v n => exact absurd rfl (hbox v n)
    | empty => cases hempty
    | _ => exact .inr (.boolean hsome ht hf)

theorem leftOf_restrictEqual (b : Value) : (restrictEqual p b).LeftOf p := by
  have hprimitive : (restrictEqualPrimitive p b).LeftOf p := by
    fun_induction restrictEqualPrimitive p b with
    | case1 b n ih => exact ih
    | case2 b hbox =>
      obtain ⟨hisNull, hmayBeNull, -⟩ := hp.not_null
      rw [restrictEqualNull, hp.isEmpty, hisNull, hmayBeNull]
      cases hempty : b.isEmpty with
      | true => exact .inl rfl
      | false =>
        cases b.isNull with
        | true => exact .inl rfl
        | false => exact leftOf_restrictEqualFlat hp (fun v n h => hbox v n h) hempty
  cases hp <;> exact hprimitive

theorem leftOf_restrictNotEqualFlat (b : Value) : (restrictNotEqualFlat p b).LeftOf p := by
  unfold restrictNotEqualFlat
  split
  · split
    · exact leftOf_ofFlags nofun id
    · exact leftOf_ofFlags id nofun
    · exact .inr hp
  · exact leftOf_narrowRange hp narrows_notEqual b

theorem leftOf_restrictNotEqual (b : Value) : (restrictNotEqual p b).LeftOf p := by
  have hprimitive : (restrictNotEqualPrimitive p b).LeftOf p := by
    fun_induction restrictNotEqualPrimitive p b with
    | case1 b n t f heq => exact heq ▸ leftOf_restrictNotEqualFlat hp (boxed b n)
    | case2 b n _ ih => exact ih
    | case3 b hbox =>
      obtain ⟨hisNull, -, hwith⟩ := hp.not_null
      rw [restrictNotEqualNull, hp.isEmpty, hisNull, hwith]
      cases b.isEmpty with
      | true => exact .inl rfl
      | false =>
        cases b.isNull with
        | true => exact .inr hp
        | false => exact leftOf_restrictNotEqualFlat hp b
  cases hp <;> exact hprimitive

theorem leftOf_restrict (rel : Relation) (b : Value) : (p.restrict rel b).LeftOf p := by
  cases rel with
  | lt => exact leftOf_restrictOrdered hp narrows_less b
  | le => exact leftOf_restrictOrdered hp narrows_lessOrEqual b
  | gt => exact leftOf_restrictOrdered hp narrows_greater b
  | ge => exact leftOf_restrictOrdered hp narrows_greaterOrEqual b
  | eq => exact leftOf_restrictEqual hp b
  | ne => exact leftOf_restrictNotEqual hp b

end Restrict

theorem restrict_empty_left (rel : Relation) (b : Value) : empty.restrict rel b = empty := by
  cases rel <;> cases b <;> rfl

/-- A comparison leaves a part of what is left, or nothing. -/
theorem LeftOf.restrict (h : a.LeftOf w) (rel : Relation) (b : Value) :
    (a.restrict rel b).LeftOf w := by
  obtain rfl | hpart := h
  · exact .inl (restrict_empty_left rel b)
  · exact (leftOf_restrict hpart.self rel b).imp_right (·.trans hpart)

/-- Equality with a truth value leaves something, unless that outcome is ruled out. -/
theorem PartOf.restrictEqual_bool (h : u.PartOf w) {b : Bool}
    (hb : (if b then (u.flags?.getD (true, true)).1 else (u.flags?.getD (true, true)).2) = true) :
    (u.restrictEqual (bool b)).PartOf w := by
  cases h with
  | integer hi => cases b <;> exact .integer hi
  | char hi => cases b <;> exact .char hi
  | @boolean t f _ _ hsome ht hf =>
    cases b with
    | true =>
      obtain rfl : t = true := hb
      cases f <;> exact .boolean (.inl rfl) ht nofun
    | false =>
      obtain rfl : f = true := hb
      cases t <;> exact .boolean (.inr rfl) nofun hf

end Value

namespace State

variable {s other : State} {d e : DeclId} {u v w : Value}

/-- If the point is reached, `d` is tracked there with a part of `w`. -/
def Retains (d : DeclId) (w : Value) (s : State) : Prop :=
  s.unreachable = false → ∃ v, s.lookup d = some v ∧ v.PartOf w

theorem retains_of_unreachable (h : s.unreachable = true) : s.Retains d w :=
  fun hlive => absurd (h.symm.trans hlive) (by decide)

theorem retains_dead : State.dead.Retains d w := retains_of_unreachable rfl

theorem retains_kill : s.kill.Retains d w := retains_of_unreachable rfl

theorem retains_killUnless {live : Bool} (h : live = true → s.Retains d w) :
    (s.killUnless live).Retains d w := by
  unfold State.killUnless
  split
  · rename_i hlive
    exact h hlive
  · exact retains_kill

theorem Retains.set (h : s.Retains d w) (hv : e = d → v.PartOf w) : (s.set e v).Retains d w := by
  intro hlive
  rw [lookup_set]
  by_cases hed : e = d
  · rw [if_pos hed]
    exact ⟨v, rfl, hv hed⟩
  · rw [if_neg hed]
    exact h hlive

theorem Retains.merge (hs : s.Retains d w) (hother : other.Retains d w) :
    (s.merge other).Retains d w := by
  refine combinesBy_merge.of_lookup hs hother fun hlive hlive' hlookup _ => ?_
  obtain ⟨u, hu, hpart⟩ := hs hlive
  obtain ⟨v, hv, hpart'⟩ := hother hlive'
  refine ⟨u.merge v, ?_, hpart.merge hpart'⟩
  rw [hlookup, hu, hv, Bindings.combineValues]

theorem mem_entries_of_lookup (h : s.lookup d = some v) : (d, v) ∈ s.values.entries := by
  obtain ⟨entry, hentry, rfl⟩ := Option.map_eq_some_iff.1 h
  have hd : entry.1 = d := by simpa using List.find?_some hentry
  exact hd ▸ List.mem_of_find?_eq_some hentry

/-- A point is not reached where two parts of a value that have nothing in common meet. -/
theorem clash_of_parts (hu : s.lookup d = some u) (hv : other.lookup d = some v)
    (hpart : u.PartOf w) (hpart' : v.PartOf w) (hempty : u.intersect v = .empty) :
    (other.values.entries.any fun entry => s.clash entry.1 entry.2) = true := by
  refine List.any_eq_true.2 ⟨(d, v), mem_entries_of_lookup hv, ?_⟩
  unfold State.clash
  rw [hu, Option.any_some, hempty, hpart.isEmpty, hpart'.isEmpty]
  rfl

theorem Retains.intersect (hs : s.Retains d w) (hother : other.Retains d w) :
    (s.intersect other).Retains d w := by
  refine combinesBy_intersect.of_lookup hs hother fun hlive hlive' hlookup hreach => ?_
  obtain ⟨u, hu, hpart⟩ := hs hlive
  obtain ⟨v, hv, hpart'⟩ := hother hlive'
  refine ⟨u.intersect v, by rw [hlookup, hu, hv, Bindings.combineValues], ?_⟩
  obtain hempty | hleft := hpart.intersect hpart'
  · rw [State.intersect, combine_of_reachable hlive hlive'] at hreach
    exact absurd (clash_of_parts hu hv hpart hpart' hempty) (by simpa using hreach)
  · exact hleft

end State

end ValueFlow
