import ValueFlow.Proofs.WellFormed

namespace ValueFlow

theorem Interval.disjoint_iff {a b : Interval} : a.disjoint b = true ↔ a.meet b = none := by
  have ha := a.lo_le_hi
  have hb := b.lo_le_hi
  unfold disjoint meet
  split
  · simp
    omega
  · simp
    omega

namespace Value

/-- The judgement on a value of which a contract leaves `narrowed`: no breach if that is all of it,
a definite one if it is nothing. -/
def verdict (v narrowed : Value) : Option Bool :=
  if narrowed = v then none else some (decide (narrowed = empty))

theorem verdict_self (v : Value) : v.verdict v = none := if_pos rfl

theorem verdict_of_ne {v narrowed : Value} (h : narrowed ≠ v) :
    v.verdict narrowed = some (decide (narrowed = empty)) := if_neg h

theorem HoldsNumbers.box_elim {k : Interval → Value} (hk : HoldsNumbers k) (o : Option Interval)
    (n : Bool) : box (o.elim empty k) n = o.elim (onlyNull n) fun i => boxed (k i) n := by
  obtain rfl | rfl := hk <;> cases o <;> simp [box]

namespace HasLength

variable {k : Interval → Bool → Value} {l range : Interval} {n : Bool} (hk : HasLength k)

include hk

theorem withinLength (h : lengths.includes l = true) :
    (k l n).withinLength range = overLength k (l.meet range) n := by
  unfold Value.withinLength
  rw [hk.length?]
  show (k l n).withLength (l.meet range) = _
  rw [hk.withLength]
  cases hm : l.meet range with
  | none => rfl
  | some m =>
    have hfits := Interval.includes_trans h (Interval.includes_of_meet_left hm)
    rw [Option.bind_some, Interval.includes_iff_meet.1 hfits]

theorem withNullable : (k l n).withNullable false = k l false := by
  obtain rfl | rfl := hk <;> rfl

theorem ne_empty : k l n ≠ empty := by
  obtain rfl | rfl := hk <;> simp

theorem ne_null : k l n ≠ null := by
  obtain rfl | rfl := hk <;> simp

theorem injective {i j : Interval} {m : Bool} (h : k i n = k j m) : i = j ∧ n = m := by
  obtain rfl | rfl := hk <;> simpa using h

theorem mayBeNull : (k l n).mayBeNull = n := by
  obtain rfl | rfl := hk <;> rfl

theorem isNull : (k l n).isNull = false := by
  obtain rfl | rfl := hk <;> rfl

end HasLength

end Value

namespace Contract

variable {c : Contract} {v : Value} {k : Interval → Value} {n : Bool} {i allowed : Interval}

/-- The contract cuts an interval of the value to the allowed part of it, and judges the value by
that; of a value that is cut away null may be left. -/
structure Cuts (c : Contract) (v : Value) (k : Interval → Value) (n : Bool)
    (i allowed : Interval) : Prop where
  value : v = k i
  injective : ∀ i j, k i = k j → i = j
  ne_empty : ∀ i, k i ≠ .empty
  ne_null : ∀ i, k i ≠ .null
  narrow : c.narrow v = (i.meet allowed).elim (.onlyNull n) k
  breach : c.breach? v = outside? i allowed

/-- A cut away interval is outside as a whole, a cut one in part. -/
theorem outside?_eq (i allowed : Interval) : outside? i allowed =
    (i.meet allowed).elim (some true) fun j => if j = i then none else some false := by
  unfold outside?
  cases hm : i.meet allowed with
  | none => rw [if_pos (Interval.disjoint_iff.2 hm), Option.elim_none]
  | some j =>
    have hmeets : ¬ i.disjoint allowed = true := by simp [Interval.disjoint_iff, hm]
    have hincludes : allowed.includes i = true ↔ j = i := by simp [Interval.includes_iff_meet, hm]
    rw [if_neg hmeets, Option.elim_some]
    simp only [hincludes]

/-- What is cut away as a whole is a definite breach, whether or not null is left. -/
theorem Cuts.breach_of_narrow_eq_null (h : c.Cuts v k n i allowed) (hnull : c.narrow v = .null) :
    c.breach? v = some true := by
  rw [h.narrow] at hnull
  rw [h.breach, outside?_eq]
  cases hm : i.meet allowed with
  | none => rfl
  | some j =>
    rw [hm] at hnull
    exact absurd hnull (h.ne_null j)

theorem Cuts.breach_eq_verdict (h : c.Cuts v k n i allowed) (hnull : c.narrow v ≠ .null) :
    c.breach? v = v.verdict (c.narrow v) := by
  rw [h.narrow] at hnull
  rw [h.breach, h.narrow, h.value, outside?_eq]
  cases hm : i.meet allowed with
  | none =>
    have hn : n = false := by
      rw [hm] at hnull
      cases n
      · rfl
      · exact absurd rfl hnull
    rw [hn]
    exact (Value.verdict_of_ne (h.ne_empty i).symm).symm
  | some j =>
    rw [Option.elim_some, Option.elim_some]
    by_cases hj : j = i
    · rw [if_pos hj, hj, Value.verdict_self]
    · rw [if_neg hj, Value.verdict_of_ne fun hji => hj (h.injective j i hji)]
      simp [h.ne_empty j]

theorem narrow_of_range? (h : c.range? = some allowed) : c.narrow v = v.withinRange allowed := by
  unfold narrow
  rw [h]

theorem breach?_of_range? (hjudged : (v.isEmpty || v.isAny) = false)
    (h : c.range? = some allowed) : c.breach? v = (match v with
      | .boxed inner _ => inner.range?
      | v => v.range?).bind (outside? · allowed) := by
  cases c <;> cases h <;> (unfold breach?; rw [hjudged]; rfl)

theorem cuts_or_keeps_of_range? (hwf : v.WellFormedWithin lengths)
    (hjudged : (v.isEmpty || v.isAny) = false) (h : c.range? = some allowed) :
    (∃ k n i, c.Cuts v k n i allowed) ∨ (c.narrow v = v ∧ c.breach? v = none) := by
  have hnarrow := narrow_of_range? (v := v) h
  have hbreach := breach?_of_range? hjudged h
  cases v with
  | integer i =>
    exact .inl ⟨.integer, false, i, rfl, by simp, by simp, by simp, hnarrow, hbreach⟩
  | char i => exact .inl ⟨.char, false, i, rfl, by simp, by simp, by simp, hnarrow, hbreach⟩
  | boxed w n =>
    have hcontent := hwf.1
    cases w with
    | integer i =>
      exact .inl ⟨fun i => .boxed (.integer i) n, n, i, rfl, by simp, by simp, by simp,
        hnarrow.trans (Value.HoldsNumbers.box_elim (.inl rfl) _ n), hbreach⟩
    | char i =>
      exact .inl ⟨fun i => .boxed (.char i) n, n, i, rfl, by simp, by simp, by simp,
        hnarrow.trans (Value.HoldsNumbers.box_elim (.inr rfl) _ n), hbreach⟩
    | any | boolean t f => exact .inr ⟨hnarrow, hbreach⟩
    | _ => cases hcontent
  | any | empty => cases hjudged
  | _ => exact .inr ⟨hnarrow, hbreach⟩

theorem cuts_or_keeps_size (hwf : v.WellFormedWithin lengths)
    (hjudged : (v.isEmpty || v.isAny) = false) (least most : Int) :
    (∃ k n i allowed, (size least most).Cuts v k n i allowed) ∨
      ((size least most).narrow v = v ∧ (size least most).breach? v = none) := by
  have hbreach : ∀ allowed, (size least most).length? = some allowed →
      (size least most).breach? v = v.length?.bind (outside? · allowed) := by
    intro allowed h
    cases h
    unfold breach?
    rw [hjudged]
    rfl
  obtain ⟨k, l, n, hk, rfl⟩ | hnone := Value.overLength_or_length?_eq_none v
  · refine .inl ⟨(k · n), n, l, _, rfl, fun i j h => (hk.injective h).1, fun _ => hk.ne_empty,
      fun _ => hk.ne_null, hk.withinLength (hk.wf_iff.1 hwf), (hbreach _ rfl).trans ?_⟩
    show (k l n).length?.bind _ = _
    rw [hk.length?, Option.bind_some]
  · refine .inr ⟨?_, (hbreach _ rfl).trans (by rw [hnone, Option.bind_none])⟩
    show v.withinLength _ = v
    rw [Value.withinLength, hnone]

/-- A contract that null keeps cuts an interval of the value, or leaves it alone. -/
theorem cuts_or_keeps (hwf : v.WellFormedWithin lengths)
    (hjudged : (v.isEmpty || v.isAny) = false) (hc : c.forbidsNull = false) :
    (∃ k n i allowed, c.Cuts v k n i allowed) ∨ (c.narrow v = v ∧ c.breach? v = none) := by
  cases hr : c.range? with
  | some allowed =>
    rcases cuts_or_keeps_of_range? hwf hjudged hr with ⟨k, n, i, h⟩ | h
    · exact .inl ⟨k, n, i, allowed, h⟩
    · exact .inr h
  | none =>
    cases c with
    | size least most => exact cuts_or_keeps_size hwf hjudged least most
    | nullable =>
      refine .inr ⟨rfl, ?_⟩
      unfold breach?
      rw [hjudged]
      rfl
    | notNull | notEmpty => cases hc
    | _ => cases hr

theorem breach?_notNull_eq_verdict (hjudged : (v.isEmpty || v.isAny) = false) :
    notNull.breach? v = v.verdict (notNull.narrow v) := by
  show (if (v.isEmpty || v.isAny) = true then none else _) = v.verdict (v.withNullable false)
  rw [hjudged]
  cases v with
  | str l n | array l n | boxed w n | object n =>
    cases n <;> simp [Value.verdict, Value.withNullable, Value.isNull, Value.mayBeNull]
  | any | empty => cases hjudged
  | _ => simp [Value.verdict, Value.withNullable, Value.onlyNull, Value.isNull, Value.mayBeNull]

/-- The contract is `notEmpty`, and the value is a reference without a length that may be null. -/
def Overlooks (c : Contract) (v : Value) : Prop :=
  c = notEmpty ∧ ((∃ inner, v = .boxed inner true) ∨ v = .object true)

/-- The contract leaves nothing but null of a value that is more than null. -/
def LeavesOnlyNull (c : Contract) (v : Value) : Prop := c.narrow v = .null ∧ v ≠ .null

/-- A reference with a length is judged by it; that it may be null makes a breach possible where
its length makes none. -/
theorem breach?_notEmpty_of_length (hjudged : (v.isEmpty || v.isAny) = false)
    (hnull : v.isNull = false) (hlength : v.length? = some i) : notEmpty.breach? v =
      (outside? i (.atLeast 1)).or (if v.mayBeNull then some false else none) := by
  show (if (v.isEmpty || v.isAny) = true then none else emptiness? v (.atLeast 1)) = _
  rw [hjudged, emptiness?, hlength, hnull]
  simp only [Option.bind_some]
  cases outside? i (.atLeast 1) <;> rfl

theorem or_eq_verdict {k : Interval → Bool → Value}
    (hk : ∀ i j n, k j false = k i n → j = i ∧ n = false) (hne : ∀ i n, k i n ≠ .empty) :
    (outside? i allowed).or (if n then some false else none) =
      (k i n).verdict ((i.meet allowed).elim .empty (k · false)) := by
  rw [outside?_eq]
  cases hm : i.meet allowed with
  | none =>
    rw [Option.elim_none, Option.elim_none, Value.verdict_of_ne (hne i n).symm]
    rfl
  | some j =>
    rw [Option.elim_some, Option.elim_some]
    by_cases h : j = i ∧ n = false
    · obtain ⟨rfl, rfl⟩ := h
      rw [Value.verdict_self]
      simp
    · rw [Value.verdict_of_ne fun hkeep => h (hk i j n hkeep)]
      -- something is cut off: part of the length, or only the null
      by_cases hj : j = i
      · have hn : n = true := by simpa [hj] using h
        simp [hj, hn, hne]
      · simp [hj, hne]

theorem narrow_notEmpty {k : Interval → Bool → Value} {l : Interval} (hk : Value.HasLength k)
    (h : lengths.includes l = true) :
    notEmpty.narrow (k l n) = (l.meet (.atLeast 1)).elim .empty (k · false) := by
  show ((k l n).withNullable false).withinLength _ = _
  rw [hk.withNullable, hk.withinLength h]
  rfl

theorem breach?_notEmpty_eq_verdict (hwf : v.WellFormedWithin lengths)
    (hjudged : (v.isEmpty || v.isAny) = false) (h : ¬ notEmpty.Overlooks v) :
    notEmpty.breach? v = v.verdict (notEmpty.narrow v) := by
  obtain ⟨k, l, n, hk, rfl⟩ | hnone := Value.overLength_or_length?_eq_none v
  · show notEmpty.breach? (k l n) = (k l n).verdict (notEmpty.narrow (k l n))
    rw [breach?_notEmpty_of_length (v := k l n) hjudged hk.isNull hk.length?,
      narrow_notEmpty hk (hk.wf_iff.1 hwf), hk.mayBeNull]
    refine or_eq_verdict (fun i j m hkeep => ?_) fun _ _ => hk.ne_empty
    obtain ⟨hji, hm⟩ := hk.injective hkeep
    exact ⟨hji, hm.symm⟩
  cases v with
  | str l n | array l n => cases hnone
  | boxed inner n =>
    cases n with
    | true => exact absurd ⟨rfl, .inl ⟨inner, rfl⟩⟩ h
    | false => exact (Value.verdict_self _).symm
  | object n =>
    cases n with
    | true => exact absurd ⟨rfl, .inr rfl⟩ h
    | false => exact (Value.verdict_self _).symm
  | null => rfl
  | any | empty => cases hjudged
  | _ => exact (Value.verdict_self _).symm

theorem narrow_ne_null (hwf : v.WellFormedWithin lengths) (hc : c.forbidsNull = true) :
    c.narrow v ≠ .null := by
  cases c with
  | notNull => cases v <;> exact fun h => by cases h
  | notEmpty =>
    obtain ⟨k, l, n, hk, rfl⟩ | hnone := Value.overLength_or_length?_eq_none v
    · show notEmpty.narrow (k l n) ≠ .null
      rw [narrow_notEmpty hk (hk.wf_iff.1 hwf)]
      cases l.meet (.atLeast 1) with
      | none => simp
      | some m => exact hk.ne_null
    · cases v with
      | str l n | array l n => cases hnone
      | _ => exact fun h => by cases h
  | _ => cases hc

theorem breach?_eq_verdict (hwf : v.WellFormedWithin lengths)
    (hjudged : (v.isEmpty || v.isAny) = false) (hnull : ¬ c.LeavesOnlyNull v)
    (hover : ¬ c.Overlooks v) : c.breach? v = v.verdict (c.narrow v) := by
  cases hc : c.forbidsNull with
  | true =>
    cases c with
    | notNull => exact breach?_notNull_eq_verdict hjudged
    | notEmpty => exact breach?_notEmpty_eq_verdict hwf hjudged hover
    | _ => cases hc
  | false =>
    rcases cuts_or_keeps hwf hjudged hc with ⟨k, n, i, allowed, hcuts⟩ | ⟨hkeeps, hnone⟩
    · refine hcuts.breach_eq_verdict fun h => hnull ⟨h, ?_⟩
      rw [hcuts.value]
      exact hcuts.ne_null i
    · rw [hkeeps, hnone, Value.verdict_self]

theorem breach?_of_leavesOnlyNull (hwf : v.WellFormedWithin lengths)
    (hjudged : (v.isEmpty || v.isAny) = false) (h : c.LeavesOnlyNull v) :
    c.breach? v = some true := by
  cases hc : c.forbidsNull with
  | true => exact absurd h.1 (narrow_ne_null hwf hc)
  | false =>
    rcases cuts_or_keeps hwf hjudged hc with ⟨k, n, i, allowed, hcuts⟩ | ⟨hkeeps, -⟩
    · exact hcuts.breach_of_narrow_eq_null h.1
    · exact absurd (hkeeps.symm.trans h.1) h.2

theorem narrow_of_overlooks (h : c.Overlooks v) :
    c.breach? v = none ∧ c.narrow v = v.withNullable false ∧ c.narrow v ≠ v ∧
      c.narrow v ≠ .empty := by
  obtain ⟨rfl, ⟨inner, rfl⟩ | rfl⟩ := h
  · exact ⟨rfl, rfl, fun h => (by cases h), fun h => by cases h⟩
  · exact ⟨rfl, rfl, fun h => (by cases h), fun h => by cases h⟩

end Contract

structure Value.JudgedByNarrowing (v : Value) (c : Contract) : Prop where
  kept : v.violations [c] = [] ↔ c.narrow v = v
  broken : v.violations [c] = [⟨c, true⟩] ↔ c.narrow v = .empty
  between : v.violations [c] = [⟨c, false⟩] ↔ c.narrow v ≠ v ∧ c.narrow v ≠ .empty

theorem Value.violations_singleton (v : Value) (c : Contract) :
    v.violations [c] = ((c.breach? v).map fun definite => ⟨c, definite⟩).toList := by
  unfold violations
  cases h : c.breach? v <;> simp [h]

theorem Value.judgedByNarrowing_of_verdict {v : Value} {c : Contract} (hempty : v ≠ .empty)
    (h : c.breach? v = v.verdict (c.narrow v)) : v.JudgedByNarrowing c := by
  by_cases hkept : c.narrow v = v
  · have hnone : v.violations [c] = [] := by
      rw [violations_singleton, h, hkept, verdict_self]
      rfl
    constructor <;> simp [hnone, hkept, hempty]
  · have hsome : v.violations [c] = [⟨c, decide (c.narrow v = .empty)⟩] := by
      rw [violations_singleton, h, verdict_of_ne hkept]
      rfl
    constructor <;> simp [hsome, hkept]

/-- Of a well-formed value that stands for something known, a contract check finds nothing if the
contract leaves all of it, a definite violation if it leaves nothing, and a possible one otherwise,
except in two cases. Where the contract leaves only null, the violation is called definite, although
null keeps the contract. And `notEmpty` finds nothing in a wrapper or an object that may be null,
although it removes the null. -/
theorem check_judges_by_narrowing_except_at_null (c : Contract) {v : Value}
    (hwf : v.WellFormedWithin lengths) (hany : v ≠ .any) (hempty : v ≠ .empty) :
    (v.JudgedByNarrowing c ↔ ¬ c.LeavesOnlyNull v ∧ ¬ c.Overlooks v) ∧
      (c.LeavesOnlyNull v → v.violations [c] = [⟨c, true⟩]) ∧
      (c.Overlooks v → v.violations [c] = [] ∧ c.narrow v = v.withNullable false ∧
        c.narrow v ≠ v ∧ c.narrow v ≠ .empty) := by
  have hjudged : (v.isEmpty || v.isAny) = false := by
    cases v <;> first | rfl | contradiction
  have hnull : c.LeavesOnlyNull v → v.violations [c] = [⟨c, true⟩] := fun h => by
    rw [Value.violations_singleton, Contract.breach?_of_leavesOnlyNull hwf hjudged h]
    rfl
  have hover : c.Overlooks v → v.violations [c] = [] := fun h => by
    rw [Value.violations_singleton, (Contract.narrow_of_overlooks h).1]
    rfl
  refine ⟨⟨fun h => ⟨fun hn => ?_, fun ho => ?_⟩, fun ⟨hn, ho⟩ => ?_⟩, hnull,
    fun h => ⟨hover h, (Contract.narrow_of_overlooks h).2⟩⟩
  · -- in either exception the check says what the narrowing contradicts
    have hnarrow := h.broken.1 (hnull hn)
    rw [hn.1] at hnarrow
    cases hnarrow
  · exact (Contract.narrow_of_overlooks ho).2.2.1 (h.kept.1 (hover ho))
  · exact Value.judgedByNarrowing_of_verdict hempty (Contract.breach?_eq_verdict hwf hjudged hn ho)

def shortTextOrNull : Value := .str (.saturated 0 2 (by decide)) true

theorem shortTextOrNull_judged : shortTextOrNull.WellFormedWithin lengths ∧
    shortTextOrNull.JudgedByNarrowing .notEmpty ∧
    shortTextOrNull.violations [.notEmpty] = [⟨.notEmpty, false⟩] := by
  have hwf : shortTextOrNull.WellFormedWithin lengths := rfl
  have hjudged := (check_judges_by_narrowing_except_at_null .notEmpty hwf (by decide)
    (by decide)).1.2 ⟨fun h => absurd h.1 (by decide), fun h => by
      rcases h.2 with ⟨inner, h⟩ | h <;> cases h⟩
  exact ⟨hwf, hjudged, hjudged.between.2 (by decide)⟩

/-- No text of `shortTextOrNull` has five characters, but its null keeps the size, so the violation
is not definite; and an object that may be null may break `notEmpty`. -/
theorem null_misjudged :
    (shortTextOrNull.WellFormedWithin lengths ∧
      (Contract.size 5 10).narrow shortTextOrNull = .null ∧
      ¬ shortTextOrNull.JudgedByNarrowing (.size 5 10)) ∧
    (Value.object true).WellFormedWithin lengths ∧
      Contract.notEmpty.narrow (.object true) = .object false ∧
      ¬ (Value.object true).JudgedByNarrowing .notEmpty := by
  refine ⟨⟨rfl, by decide, fun h => ?_⟩, trivial, rfl, fun h => ?_⟩
  · exact absurd (h.broken.1 (by decide)) (by decide)
  · exact absurd (h.kept.1 (by decide)) (by decide)

end ValueFlow
