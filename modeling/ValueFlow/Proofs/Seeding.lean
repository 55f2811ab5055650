import Mathlib.Data.List.Fold
import Mathlib.Data.List.Perm.Basic
import ValueFlow.Proofs.Contract

namespace ValueFlow

section Fold

variable {α β : Type} {f : β → α → β} [RightCommutative f] (hself : ∀ v a, f (f v a) a = f v a)
  {l l' : List α}

include hself

theorem foldl_absorbs {a : α} (ha : a ∈ l) (v : β) : f (l.foldl f v) a = l.foldl f v := by
  obtain ⟨before, after, rfl⟩ := List.append_of_mem ha
  rw [List.foldl_append, List.foldl_cons_eq_apply_foldl, hself]

theorem foldl_absorbs_all (h : ∀ a ∈ l', a ∈ l) (v : β) :
    l'.foldl f (l.foldl f v) = l.foldl f v := by
  induction l' with
  | nil => rfl
  | cons a l' ih =>
    rw [List.foldl_cons, foldl_absorbs hself (h a List.mem_cons_self),
      ih fun b hb => h b (List.mem_cons_of_mem a hb)]

/-- The result of steps that commute, and that may be repeated, depends only on which steps they
are. -/
theorem foldl_eq_of_mem_iff (h : ∀ a, a ∈ l ↔ a ∈ l') (v : β) : l.foldl f v = l'.foldl f v :=
  calc l.foldl f v
    _ = l'.foldl f (l.foldl f v) := (foldl_absorbs_all hself (fun a => (h a).2) v).symm
    _ = (l ++ l').foldl f v := List.foldl_append.symm
    _ = (l' ++ l).foldl f v := List.perm_append_comm.foldl_eq v
    _ = l.foldl f (l'.foldl f v) := List.foldl_append
    _ = l'.foldl f v := foldl_absorbs_all hself (fun a => (h a).1) v

end Fold

namespace Interval

variable {a b c i : Interval}

theorem meet_eq_some_iff :
    a.meet b = some c ↔ c.lo = max a.lo b.lo ∧ c.hi = min a.hi b.hi := by
  have hc := c.lo_le_hi
  unfold meet
  split
  · rw [Option.some.injEq, Interval.ext_iff]
    simp only
    omega
  · simp
    omega

/-- The part within `range`, of an interval or of nothing. -/
def clip (range : Interval) (o : Option Interval) : Option Interval := o.bind (·.meet range)

theorem clip_clip_eq_some_iff : clip a (clip b (some i)) = some c ↔
    c.lo = max i.lo (max a.lo b.lo) ∧ c.hi = min i.hi (min a.hi b.hi) := by
  have hc := c.lo_le_hi
  simp only [clip, Option.bind_some, Option.bind_eq_some_iff]
  constructor
  · rintro ⟨m, hm, hcut⟩
    rw [meet_eq_some_iff] at hm hcut
    omega
  · intro h
    obtain ⟨m, hm⟩ : ∃ m, i.meet b = some m := ⟨⟨max i.lo b.lo, min i.hi b.hi, by omega,
      by have := i.minInt_le_lo; omega, by have := i.hi_le_maxInt; omega⟩,
      meet_eq_some_iff.2 ⟨rfl, rfl⟩⟩
    refine ⟨m, hm, ?_⟩
    rw [meet_eq_some_iff] at hm ⊢
    omega

theorem clip_comm (a b : Interval) (o : Option Interval) :
    clip a (clip b o) = clip b (clip a o) := by
  cases o with
  | none => rfl
  | some i =>
    refine Option.ext fun c => ?_
    rw [clip_clip_eq_some_iff, clip_clip_eq_some_iff]
    omega

theorem clip_self (a : Interval) (o : Option Interval) : clip a (clip a o) = clip a o := by
  cases o with
  | none => rfl
  | some i =>
    cases h : i.meet a with
    | none => simp [clip, h]
    | some m => simp [clip, h, includes_iff_meet.1 (includes_of_meet_right h)]

end Interval

namespace Value

variable {range : Interval} {n : Bool}

theorem withinRange_onlyNull : (onlyNull n).withinRange range = onlyNull n := by
  cases n <;> rfl

theorem HoldsNumbers.withinRange_elim {k : Interval → Value} (hk : HoldsNumbers k)
    (o : Option Interval) :
    (o.elim empty k).withinRange range = (Interval.clip range o).elim empty k := by
  obtain rfl | rfl := hk <;> cases o <;> rfl

/-- A wrapper is cut by way of its content, also where that has vanished. -/
theorem withinRange_box (v : Value) :
    (box v n).withinRange range = box (v.withinRange range) n := by
  unfold box
  split
  · rename_i h
    rw [h, withinRange_onlyNull]
    rfl
  · rfl

variable {k : Interval → Bool → Value}

theorem withinLength_onlyNull : (onlyNull n).withinLength range = onlyNull n := by
  cases n <;> rfl

theorem withinLength_overLength (hk : HasLength k) (o : Option Interval) :
    (overLength k o n).withinLength range =
      overLength k (Interval.clip lengths (Interval.clip range o)) n := by
  cases o with
  | none => exact withinLength_onlyNull
  | some l =>
    show (k l n).withinLength range = _
    unfold withinLength
    rw [hk.length?]
    exact hk.withLength _

theorem withNullable_overLength (hk : HasLength k) (o : Option Interval) :
    (overLength k o n).withNullable false = overLength k o false := by
  obtain rfl | rfl := hk <;> cases o <;> cases n <;> rfl

theorem withNullable_box (v : Value) : (box v n).withNullable false = box v false := by
  unfold box
  split
  · cases n <;> rfl
  · rfl

/-- A reference with a length holds no number to cut. -/
theorem withinRange_overLength (hk : HasLength k) (o : Option Interval) :
    (overLength k o n).withinRange range = overLength k o n := by
  cases o with
  | none => exact withinRange_onlyNull
  | some l => obtain rfl | rfl := hk <;> rfl

theorem withinLength_of_length? {v : Value} (h : v.length? = none) : v.withinLength range = v := by
  unfold withinLength
  rw [h]

theorem length?_withNullable (v : Value) : (v.withNullable n).length? = v.length? := by
  cases v with
  | null => cases n <;> rfl
  | _ => rfl

theorem length?_withinRange {v : Value} (h : v.length? = none) :
    (v.withinRange range).length? = none := by
  cases v with
  | integer i => cases hm : i.meet range <;> simp [withinRange, integerOf, length?, hm]
  | char i => cases hm : i.meet range <;> simp [withinRange, charOf, length?, hm]
  | boxed v n =>
    rw [withinRange, box]
    split
    · cases n <;> rfl
    · rfl
  | str l n | array l n => cases h
  | _ => rfl

variable {a b : Interval}

theorem HoldsNumbers.withinRange_comm {k : Interval → Value} (hk : HoldsNumbers k) (i : Interval) :
    ((k i).withinRange b).withinRange a = ((k i).withinRange a).withinRange b := by
  have h : ∀ range, (k i).withinRange range = (Interval.clip range (some i)).elim empty k :=
    fun _ => hk.withinRange_elim (some i)
  rw [h, h, hk.withinRange_elim, hk.withinRange_elim, Interval.clip_comm]

theorem HoldsNumbers.withinRange_self {k : Interval → Value} (hk : HoldsNumbers k) (i : Interval) :
    ((k i).withinRange a).withinRange a = (k i).withinRange a := by
  have h : (k i).withinRange a = (Interval.clip a (some i)).elim empty k :=
    hk.withinRange_elim (some i)
  rw [h, hk.withinRange_elim, Interval.clip_self]

theorem withinRange_comm (v : Value) :
    (v.withinRange b).withinRange a = (v.withinRange a).withinRange b := by
  induction v with
  | integer i => exact HoldsNumbers.withinRange_comm (.inl rfl) i
  | char i => exact HoldsNumbers.withinRange_comm (.inr rfl) i
  | boxed v n ih => rw [withinRange, withinRange, withinRange_box, withinRange_box, ih]
  | _ => rfl

theorem withinRange_self (v : Value) : (v.withinRange a).withinRange a = v.withinRange a := by
  induction v with
  | integer i => exact HoldsNumbers.withinRange_self (.inl rfl) i
  | char i => exact HoldsNumbers.withinRange_self (.inr rfl) i
  | boxed v n ih => rw [withinRange, withinRange_box, ih]
  | _ => rfl

theorem withinLength_comm (v : Value) :
    (v.withinLength b).withinLength a = (v.withinLength a).withinLength b := by
  obtain ⟨k, l, n, hk, rfl⟩ | hnone := overLength_or_length?_eq_none v
  · simp only [withinLength_overLength hk]
    rw [Interval.clip_comm a lengths, Interval.clip_comm a b, Interval.clip_comm b lengths]
  · simp only [withinLength_of_length? hnone]

theorem withinLength_self (v : Value) : (v.withinLength a).withinLength a = v.withinLength a := by
  obtain ⟨k, l, n, hk, rfl⟩ | hnone := overLength_or_length?_eq_none v
  · simp only [withinLength_overLength hk]
    rw [Interval.clip_comm a lengths, Interval.clip_self, Interval.clip_self]
  · simp only [withinLength_of_length? hnone]

theorem withNullable_self (v : Value) :
    (v.withNullable false).withNullable false = v.withNullable false := by
  cases v <;> rfl

theorem withinRange_withNullable (v : Value) :
    (v.withNullable false).withinRange a = (v.withinRange a).withNullable false := by
  cases v with
  | integer i => cases h : i.meet a <;> simp [withNullable, withinRange, integerOf, h]
  | char i => cases h : i.meet a <;> simp [withNullable, withinRange, charOf, h]
  | boxed v n => rw [withNullable, withinRange, withinRange, withNullable_box]
  | _ => rfl

theorem withinLength_withNullable (v : Value) :
    (v.withNullable false).withinLength a = (v.withinLength a).withNullable false := by
  obtain ⟨k, l, n, hk, rfl⟩ | hnone := overLength_or_length?_eq_none v
  · rw [withNullable_overLength hk, withinLength_overLength hk, withinLength_overLength hk,
      withNullable_overLength hk]
  · rw [withinLength_of_length? hnone, withinLength_of_length? (length?_withNullable v ▸ hnone)]

theorem withinLength_withinRange (v : Value) :
    (v.withinRange b).withinLength a = (v.withinLength a).withinRange b := by
  obtain ⟨k, l, n, hk, rfl⟩ | hnone := overLength_or_length?_eq_none v
  · rw [withinRange_overLength hk, withinLength_overLength hk, withinRange_overLength hk]
  · rw [withinLength_of_length? hnone, withinLength_of_length? (length?_withinRange hnone)]

end Value

/-- A part that a contract takes from a value. -/
inductive Cut where
  | null
  | outsideRange (range : Interval)
  | outsideLength (range : Interval)

namespace Cut

def apply : Cut → Value → Value
  | null, v => v.withNullable false
  | outsideRange range, v => v.withinRange range
  | outsideLength range, v => v.withinLength range

theorem apply_comm (v : Value) (a b : Cut) : b.apply (a.apply v) = a.apply (b.apply v) := by
  cases a with
  | null =>
    cases b with
    | null => rfl
    | outsideRange range => exact Value.withinRange_withNullable v
    | outsideLength range => exact Value.withinLength_withNullable v
  | outsideRange range =>
    cases b with
    | null => exact (Value.withinRange_withNullable v).symm
    | outsideRange range' => exact Value.withinRange_comm v
    | outsideLength range' => exact Value.withinLength_withinRange v
  | outsideLength range =>
    cases b with
    | null => exact (Value.withinLength_withNullable v).symm
    | outsideRange range' => exact (Value.withinLength_withinRange v).symm
    | outsideLength range' => exact Value.withinLength_comm v

instance : RightCommutative fun (v : Value) (cut : Cut) => cut.apply v := ⟨apply_comm⟩

theorem apply_self (v : Value) (a : Cut) : a.apply (a.apply v) = a.apply v := by
  cases a with
  | null => exact Value.withNullable_self v
  | outsideRange range => exact Value.withinRange_self v
  | outsideLength range => exact Value.withinLength_self v

end Cut

namespace Contract

/-- The parts of a value that break the contract. -/
def cuts (c : Contract) : List Cut :=
  (if c.forbidsNull then [.null] else []) ++ (c.range?.map .outsideRange).toList ++
    (c.length?.map .outsideLength).toList

/-- Narrowing takes those parts away one after the other. -/
theorem narrow_eq_foldl_cuts (c : Contract) (v : Value) :
    c.narrow v = c.cuts.foldl (fun v cut => cut.apply v) v := by
  cases c <;> rfl

theorem narrow_comm (v : Value) (a b : Contract) :
    b.narrow (a.narrow v) = a.narrow (b.narrow v) := by
  simp only [narrow_eq_foldl_cuts]
  rw [← List.foldl_append, ← List.foldl_append]
  exact foldl_eq_of_mem_iff Cut.apply_self
    (fun cut => by rw [List.mem_append, List.mem_append, or_comm]) v

instance : RightCommutative fun (v : Value) (c : Contract) => c.narrow v := ⟨narrow_comm⟩

theorem narrow_self (v : Value) (a : Contract) : a.narrow (a.narrow v) = a.narrow v := by
  simp only [narrow_eq_foldl_cuts]
  exact foldl_absorbs_all Cut.apply_self (fun _ h => h) v

/-- The check finds nothing in a value that the contract takes nothing from. -/
theorem breach?_of_narrow_eq {c : Contract} {v : Value} (hwf : v.WellFormedWithin lengths)
    (h : c.narrow v = v) : c.breach? v = none := by
  cases hjudged : v.isEmpty || v.isAny with
  | true =>
    unfold breach?
    rw [if_pos hjudged]
  | false =>
    have hnull : ¬ c.LeavesOnlyNull v := fun hn => hn.2 (h.symm.trans hn.1)
    have hover : ¬ c.Overlooks v := fun ho => (narrow_of_overlooks ho).2.2.1 h
    rw [breach?_eq_verdict hwf hjudged hnull hover, h, Value.verdict_self]

end Contract

namespace Ty

/-- The contracts of a declaration take nothing from its value. -/
theorem narrow_initialValue (ty : Ty) {contracts : List Contract} {c : Contract}
    (hc : c ∈ contracts) : c.narrow (ty.initialValue contracts) = ty.initialValue contracts :=
  foldl_absorbs (f := fun v c => Contract.narrow c v) Contract.narrow_self hc ty.anyValue

/-- The value of a declaration, of any type and under any contracts, breaks none of them. -/
theorem initialValue_breaks_no_contract (ty : Ty) (contracts : List Contract) :
    (ty.initialValue contracts).violations contracts = [] := by
  have hwf : (ty.initialValue contracts).WellFormedWithin lengths :=
    Value.wf_initialValue (by decide) ty contracts
  refine List.filterMap_eq_nil_iff.2 fun c hc => ?_
  rw [Contract.breach?_of_narrow_eq hwf (narrow_initialValue ty hc), Option.map_none]

/-- Narrowing a value to two contracts gives the same in either order, and narrowing it to one twice
is narrowing it once. So the value of a declaration depends only on which contracts it has, not on
their order or on how often each is written. -/
theorem initialValue_depends_on_members_only :
    (∀ (v : Value) (a b : Contract), b.narrow (a.narrow v) = a.narrow (b.narrow v) ∧
      a.narrow (a.narrow v) = a.narrow v) ∧
    ∀ (ty : Ty) (contracts contracts' : List Contract),
      (∀ c, c ∈ contracts ↔ c ∈ contracts') →
        ty.initialValue contracts = ty.initialValue contracts' :=
  ⟨fun v a b => ⟨Contract.narrow_comm v a b, Contract.narrow_self v a⟩,
    fun ty _ _ h => foldl_eq_of_mem_iff Contract.narrow_self h ty.anyValue⟩

theorem initialValue_oneToNine :
    (∀ c, c ∈ [.positive, .max 9, .notNull] ↔
      c ∈ [Contract.notNull, .max 9, .positive, .max 9]) ∧
    (Ty.boxed .int).initialValue [.positive, .max 9, .notNull] =
      (Ty.boxed .int).initialValue [.notNull, .max 9, .positive, .max 9] ∧
    (Ty.boxed .int).initialValue [.positive, .max 9, .notNull] =
      .boxed (.integer (.saturated 1 9 (by decide))) false := by
  have hmem : ∀ c, c ∈ [.positive, .max 9, .notNull] ↔
      c ∈ [Contract.notNull, .max 9, .positive, .max 9] := fun c => by
    simp only [List.mem_cons, List.not_mem_nil, or_false]
    tauto
  exact ⟨hmem, initialValue_depends_on_members_only.2 _ _ _ hmem, by decide⟩

end Ty

end ValueFlow
