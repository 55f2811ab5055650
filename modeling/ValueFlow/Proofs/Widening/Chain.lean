import Mathlib.Data.Nat.Count
import ValueFlow.Proofs.Termination
import ValueFlow.Proofs.Widening

namespace ValueFlow

namespace Interval

variable {a b c range : Interval}

/-- The bounds that are not yet at the end of their range. -/
def openBounds (range a : Interval) : Nat :=
  (if a.lo = range.lo then 0 else 1) + if a.hi = range.hi then 0 else 1

theorem openBounds_le : openBounds range a ≤ 2 := by
  unfold openBounds
  split <;> split <;> omega

theorem openBounds_hull_le (hb : range.includes b = true) :
    openBounds range (a.hull b) ≤ openBounds range a := by
  rw [includes_iff] at hb
  simp only [openBounds, hull]
  grind

/-- A bound that moves is open before and not after. -/
theorem JumpsTo.eq_or_openBounds_lt (h : JumpsTo range a b c) (hb : range.includes b = true) :
    c = a ∨ openBounds range c < openBounds range a := by
  rw [includes_iff] at hb
  rw [Interval.ext_iff, openBounds, openBounds, h.lo, h.hi]
  grind

end Interval

namespace Value

/-- What a number is, its bounds apart. -/
structure NumberKind where
  wrapped : Bool
  isChar : Bool
deriving DecidableEq

def numberKind? : Value → Option NumberKind
  | integer _ => some ⟨false, false⟩
  | char _ => some ⟨false, true⟩
  | boxed v _ => v.numberKind?.map fun k => { k with wrapped := true }
  | _ => none

/-- Both are numbers, but not of one kind. -/
def mixes (a b : Value) : Bool :=
  a.numberKind?.isSome && b.numberKind?.isSome && a.numberKind? != b.numberKind?

/-- A number takes in numbers of another kind and stays of its own. -/
def creeps (a b : Value) : Bool := a.mixes b && (a.widen b).numberKind? == a.numberKind?

def extent? : Value → Option (Interval × Interval)
  | integer i => some (i, .full)
  | char i => some (i, charCodes)
  | str l _ | array l _ => some (l, lengths)
  | boxed v _ => v.extent?
  | _ => none

def contentHeight : Value → Nat
  | boolean t f => if t && f then 1 else 2
  | integer i => 1 + Interval.full.openBounds i
  -- a character that takes in a number becomes one, with both of its bounds open
  | char i => 4 + charCodes.openBounds i
  | _ => 0

/-- How often widening can still change a value, unless it creeps. -/
def height : Value → Nat
  | any => 0
  | object n => 1 + (!n).toNat
  | str l n | array l n => lengths.openBounds l + 2 + (!n).toNat
  | boxed v n => v.contentHeight + 2 + (!n).toNat
  -- null becomes any reference that may be null, and nothing becomes anything
  | null => 9
  | empty => 11
  -- a primitive may yet go into a wrapper, and stands above it
  | p => p.contentHeight + 4

variable {limit : Interval} {a b v w : Value} {n m : Bool}

theorem contentHeight_le : v.contentHeight ≤ 6 := by
  cases v with
  | integer i =>
    have := Interval.full.openBounds_le (a := i)
    simp only [contentHeight]
    omega
  | char i =>
    have := charCodes.openBounds_le (a := i)
    simp only [contentHeight]
    omega
  | boolean t f =>
    simp only [contentHeight]
    split <;> omega
  | _ => exact Nat.zero_le 6

theorem contentHeight_pos (hv : v.isPrimitive = true) : 0 < v.contentHeight := by
  cases v with
  | integer i | char i =>
    simp only [contentHeight]
    omega
  | boolean t f =>
    simp only [contentHeight]
    split <;> omega
  | _ => cases hv

theorem height_of_isPrimitive (hv : v.isPrimitive = true) : v.height = v.contentHeight + 4 := by
  cases v <;> first | rfl | cases hv

theorem height_le_of_isContent (hv : v.isContent = true) : v.height ≤ v.contentHeight + 4 := by
  cases v with
  | any => exact Nat.zero_le _
  | integer i | char i | boolean t f => exact Nat.le_refl _
  | _ => cases hv

/-- Only where there is nothing yet can a value change eleven times. -/
theorem eq_empty_or_height_lt (v : Value) : v = empty ∨ v.height < 11 := by
  have hcontent := contentHeight_le (v := v)
  cases v with
  | empty => exact .inl rfl
  | str l n | array l n =>
    have := lengths.openBounds_le (a := l)
    have := (!n).toNat_le
    right
    simp only [height]
    omega
  | boxed w n =>
    have := contentHeight_le (v := w)
    have := (!n).toNat_le
    right
    simp only [height]
    omega
  | object n =>
    have := (!n).toNat_le
    right
    simp only [height]
    omega
  | _ =>
    right
    simp only [height]
    omega

theorem mixes_boxed_boxed (hv : v.isContent = true) (hw : w.isContent = true) :
    (boxed v n).mixes (boxed w m) = v.mixes w := by
  cases v with
  | any | integer i | char i | boolean t f =>
    cases w with
    | any | integer j | char j | boolean t' f' => rfl
    | _ => cases hw
  | _ => cases hv

theorem mixes_primitive_boxed (ha : a.isPrimitive = true) (hv : v.isContent = true) :
    a.mixes (boxed v n) = (a.numberKind?.isSome && v.numberKind?.isSome) := by
  cases a with
  | integer i | char i | boolean t f =>
    cases v with
    | any | integer j | char j | boolean t' f' => rfl
    | _ => cases hv
  | _ => cases ha

theorem mixes_comm (a b : Value) : a.mixes b = b.mixes a := by
  rw [mixes, mixes, Bool.and_comm (a.numberKind?.isSome), bne_comm]

theorem creeps_iff :
    a.creeps b = true ↔ a.mixes b = true ∧ (a.widen b).numberKind? = a.numberKind? := by
  rw [creeps, Bool.and_eq_true, beq_iff_eq]

section Contents

variable (hv : v.isContent = true) (hw : w.isContent = true) (hvwf : v.WellFormedWithin limit)
  (hwwf : w.WellFormedWithin limit)

include hv hw hvwf hwwf

theorem mergeFlat_descends : mergeFlat v w = v ∨ (mergeFlat v w).contentHeight < v.contentHeight ∨
    (v.numberKind?.isSome = true ∧ w.numberKind?.isSome = true ∧
      (mergeFlat v w).numberKind? = v.numberKind? ∧
      (mergeFlat v w).contentHeight ≤ v.contentHeight) := by
  have hany : v.isPrimitive = true → any.contentHeight < v.contentHeight := contentHeight_pos
  cases v with
  | any =>
    left
    cases w <;> rfl
  | integer i =>
    cases w with
    | integer j | char j =>
      refine .inr (.inr ⟨rfl, rfl, rfl, ?_⟩)
      exact Nat.add_le_add_left (Interval.openBounds_hull_le Interval.includes_full) 1
    | any | boolean t f => exact .inr (.inl (hany rfl))
    | _ => cases hw
  | char i =>
    cases w with
    | char j =>
      refine .inr (.inr ⟨rfl, rfl, rfl, ?_⟩)
      exact Nat.add_le_add_left (Interval.openBounds_hull_le hwwf) 4
    -- the character gives up its kind, for which its height has four to spare
    | integer j =>
      have := Interval.full.openBounds_le (a := i.hull j)
      right; left
      simp only [mergeFlat, contentHeight]
      omega
    | any | boolean t f => exact .inr (.inl (hany rfl))
    | _ => cases hw
  | boolean t f =>
    cases w with
    | boolean t' f' =>
      rw [mergeFlat_boolean hvwf]
      rcases hvwf with rfl | rfl
      · cases f <;> cases f' <;> simp [contentHeight]
      · cases t <;> cases t' <;> simp [contentHeight]
    | any | integer j | char j => exact .inr (.inl (hany rfl))
    | _ => cases hw
  | _ => cases hv

theorem widen_content_descends : v.widen w = v ∨ (v.widen w).contentHeight < v.contentHeight ∨
    (v.creeps w = true ∧ (v.widen w).contentHeight ≤ v.contentHeight) := by
  have hdescends := mergeFlat_descends hv hw hvwf hwwf
  have hmerge : v.merge w = mergeFlat v w :=
    merge_of_flat (not_boxed_of_isContent hv) (not_boxed_of_isContent hw)
  fun_cases widen v w with
  | case1 i j =>
    rcases Interval.jumpsTo_widen.eq_or_openBounds_lt (Interval.includes_full (a := j)) with h | h
    · exact .inl (congrArg integer h)
    · exact .inr (.inl (Nat.add_lt_add_left h 1))
  | case2 i j =>
    rcases (jumpsTo_widenWithin hvwf).eq_or_openBounds_lt hwwf with h | h
    · exact .inl (congrArg char h)
    · exact .inr (.inl (Nat.add_lt_add_left h 4))
  | case3 | case4 | case5 => cases hv
  | case6 v w hinteger hchar =>
    rw [hmerge]
    rcases hdescends with h | h | ⟨hk, hl, hsame, hle⟩
    · exact .inl h
    · exact .inr (.inl h)
    · refine .inr (.inr ⟨?_, hle⟩)
      rw [creeps_iff, widen, hmerge]
      · refine ⟨?_, hsame⟩
        -- equal kinds are widened, not joined
        cases v <;> cases w <;> simp_all [numberKind?, mixes, isContent]
      all_goals assumption

end Contents

theorem widen_boxed_primitive (hv : v.isContent = true) (hvwf : v.WellFormedWithin limit)
    (hb : b.isPrimitive = true) : (boxed v n).widen b = boxed (mergeFlat v b) n := by
  rw [← merge_boxed_primitive hv hvwf hb]
  cases b <;> first | rfl | cases hb

theorem widen_primitive_boxed (hv : v.isContent = true) (hvwf : v.WellFormedWithin limit)
    (ha : a.isPrimitive = true) : a.widen (boxed v n) = boxed (mergeFlat a v) n := by
  rw [mergeFlat_comm, ← merge_boxed_primitive hv hvwf ha, merge_comm]
  cases a <;> first | rfl | cases ha

/-- A step of widening leaves a value as it is, takes it down, or creeps. -/
def Descends (a b : Value) : Prop :=
  a.widen b = a ∨ (a.widen b).height < a.height ∨
    (a.creeps b = true ∧ (a.widen b).height ≤ a.height)

theorem widen_empty (v : Value) : v.widen empty = v := by
  cases v <;> rfl

theorem descends_of_widen_eq_any (h : a.widen b = any) : a.Descends b := by
  by_cases ha : a = any
  · exact .inl (h.trans ha.symm)
  · right; left
    rw [h]
    cases a with
    | any => exact absurd rfl ha
    | _ =>
      simp only [height]
      omega

theorem descends_primitive (ha : a.isPrimitive = true) (hwf : a.WellFormedWithin limit)
    (hb : b.WellFormedWithin limit) : a.Descends b := by
  have hcontent := isContent_of_isPrimitive ha
  have hheight := height_of_isPrimitive ha
  have hcontents : b.isContent = true → a.Descends b := by
    intro hb'
    have hle := height_le_of_isContent (isContent_widen hcontent hb' hwf)
    rcases widen_content_descends hcontent hb' hwf hb with h | h | ⟨hcreeps, h⟩
    · exact .inl h
    · exact .inr (.inl (by omega))
    · exact .inr (.inr ⟨hcreeps, by omega⟩)
  cases b with
  | any | integer j | char j | boolean t f => exact hcontents rfl
  | empty => exact .inl a.widen_empty
  | boxed w m =>
    -- the primitive goes into the wrapper
    right; left
    have hle : (mergeFlat a w).contentHeight ≤ a.contentHeight := by
      rcases mergeFlat_descends hcontent hb.1 hwf hb.2 with h | h | ⟨-, -, -, h⟩
      · rw [h]
      · omega
      · exact h
    have := (!m).toNat_le
    rw [widen_primitive_boxed hb.1 hb.2 ha, hheight]
    simp only [height]
    omega
  | str l m | array l m | null | object m =>
    apply descends_of_widen_eq_any
    cases a <;> first | rfl | cases ha

theorem or_eq_or_lt (n m : Bool) : (n || m) = n ∨ (!(n || m)).toNat < (!n).toNat := by
  cases n <;> cases m <;> simp

theorem or_toNat_le (n m : Bool) : (!(n || m)).toNat ≤ (!n).toNat := by
  cases n <;> cases m <;> simp

/-- What a wrapper carries descends, and so does the wrapper. -/
theorem descends_of_widen_eq_boxed (hwiden : (boxed v n).widen b = boxed w (n || m))
    (hw : w = v ∨ w.contentHeight < v.contentHeight ∨
      ((boxed v n).creeps b = true ∧ w.contentHeight ≤ v.contentHeight)) :
    (boxed v n).Descends b := by
  have hle := or_toNat_le n m
  unfold Descends
  rw [hwiden]
  simp only [height]
  rcases hw with rfl | h | ⟨hcreeps, h⟩
  · rcases or_eq_or_lt n m with hn | hn
    · exact .inl (by rw [hn])
    · exact .inr (.inl (by omega))
  · exact .inr (.inl (by omega))
  · exact .inr (.inr ⟨hcreeps, by omega⟩)

theorem creeps_boxed (hv : v.isContent = true) (hw : w.isContent = true)
    (hvwf : v.WellFormedWithin limit) (h : v.creeps w = true) :
    (boxed v n).creeps (boxed w m) = true := by
  rw [creeps_iff] at h ⊢
  rw [mixes_boxed_boxed hv hw, widen, box_of_isContent (isContent_widen hv hw hvwf), numberKind?,
    numberKind?, h.2]
  exact ⟨h.1, rfl⟩

theorem descends_of_widen_eq_object (hwiden : a.widen b = object (n || m))
    (hheight : 2 + (!n).toNat ≤ a.height) : a.Descends b := by
  have hle := or_toNat_le n m
  have hobject : (object (n || m)).height = 1 + (!(n || m)).toNat := rfl
  right; left
  rw [hwiden]
  omega

theorem descends_of_length {mk : Interval → Bool → Value} {i j : Interval}
    (hheight : ∀ l n, (mk l n).height = lengths.openBounds l + 2 + (!n).toNat)
    (hwiden : (mk i n).widen b = mk j (n || m))
    (hlength : j = i ∨ lengths.openBounds j < lengths.openBounds i) : (mk i n).Descends b := by
  have hle := or_toNat_le n m
  unfold Descends
  rw [hwiden, hheight, hheight]
  rcases hlength with rfl | h
  · rcases or_eq_or_lt n m with hn | hn
    · exact .inl (by rw [hn])
    · exact .inr (.inl (by omega))
  · exact .inr (.inl (by omega))

theorem descends_boxed (ha : (boxed v n).WellFormedWithin lengths)
    (hb : b.WellFormedWithin lengths) : (boxed v n).Descends b := by
  have hprimitive : b.isPrimitive = true → (boxed v n).Descends b := by
    intro hp
    have hwiden := widen_boxed_primitive (n := n) ha.1 ha.2 hp
    apply descends_of_widen_eq_boxed (m := false) (by rw [hwiden, Bool.or_false])
    rcases mergeFlat_descends ha.1 (isContent_of_isPrimitive hp) ha.2 hb with
      h | h | ⟨hk, hl, hsame, h⟩
    · exact .inl h
    · exact .inr (.inl h)
    · refine .inr (.inr ⟨creeps_iff.2 ⟨?_, ?_⟩, h⟩)
      · rw [mixes_comm, mixes_primitive_boxed hp ha.1, hk, hl, Bool.and_self]
      · rw [hwiden, numberKind?, hsame, numberKind?]
  cases b with
  | any | str l m | array l m => exact descends_of_widen_eq_any rfl
  | empty => exact .inl (widen_empty _)
  | integer j | char j | boolean t f => exact hprimitive rfl
  | null =>
    apply descends_of_widen_eq_boxed (m := true) _ (.inl rfl)
    rw [Bool.or_true]
    rfl
  | boxed w m =>
    apply descends_of_widen_eq_boxed
      (by rw [widen, box_of_isContent (isContent_widen ha.1 hb.1 ha.2)])
    rcases widen_content_descends ha.1 hb.1 ha.2 hb.2 with h | h | ⟨hcreeps, h⟩
    · exact .inl h
    · exact .inr (.inl h)
    · exact .inr (.inr ⟨creeps_boxed ha.1 hb.1 ha.2 hcreeps, h⟩)
  | object m =>
    refine descends_of_widen_eq_object (n := n) (m := m) rfl ?_
    simp only [height]
    omega

theorem descends_null (b : Value) : null.Descends b := by
  have hreference : b.isReference = true → null.widen b = b.withNullable true := by
    intro hb
    cases b <;> first | rfl | cases hb
  cases b with
  | empty | null => exact .inl rfl
  | any | integer j | char j | boolean t f => exact descends_of_widen_eq_any rfl
  | str l m | array l m =>
    have := lengths.openBounds_le (a := l)
    right; left
    rw [hreference rfl]
    simp only [withNullable, height, Bool.not_true, Bool.toNat_false]
    omega
  | boxed w m =>
    have := contentHeight_le (v := w)
    right; left
    rw [hreference rfl]
    simp only [withNullable, height, Bool.not_true, Bool.toNat_false]
    omega
  | object m =>
    right; left
    rw [hreference rfl]
    decide +revert

/-- Every step descends. -/
theorem descends (ha : a.WellFormedWithin lengths) (hb : b.WellFormedWithin lengths) :
    a.Descends b := by
  cases a with
  | any => exact .inl b.any_widen
  | empty =>
    have hwiden : empty.widen b = b := by cases b <;> rfl
    rcases eq_empty_or_height_lt b with rfl | h
    · exact .inl rfl
    · exact .inr (.inl (by rw [hwiden]; exact h))
  | integer i | char i | boolean t f => exact descends_primitive rfl ha hb
  | str l n | array l n =>
    cases b with
    | empty => exact .inl rfl
    | str k m | array k m =>
      have hlength := (jumpsTo_widenWithin (j := k) ha).eq_or_openBounds_lt hb
      first
        | exact descends_of_length (fun _ _ => rfl) rfl hlength
        | exact descends_of_widen_eq_any rfl
    | null =>
      refine descends_of_length (m := true) (fun _ _ => rfl) ?_ (.inl rfl)
      rw [Bool.or_true]
      rfl
    | object m =>
      refine descends_of_widen_eq_object (n := n) (m := m) rfl ?_
      simp only [height]
      omega
    | any | integer j | char j | boolean t f | boxed w m => exact descends_of_widen_eq_any rfl
  | null => exact descends_null b
  | boxed v n => exact descends_boxed ha hb
  | object n =>
    -- an object has nothing to lose but that it is not null
    have hobject : ∀ m, object (n || m) = object n ∨ (object (n || m)).height < (object n).height :=
      fun m => (or_eq_or_lt n m).imp (congrArg object) (Nat.add_lt_add_left · 1)
    cases b with
    | empty => exact .inl rfl
    | any | integer j | char j | boolean t f => exact descends_of_widen_eq_any rfl
    | null => exact (Bool.or_true n ▸ hobject true).imp id .inl
    | str l m | array l m | boxed w m | object m => exact (hobject m).imp id .inl

/-- Where both values have an interval, it is over one range, and each bound has stayed or is at the
end of the range. -/
def BoundsJump (a c : Value) : Prop :=
  ∀ i range j range', a.extent? = some (i, range) → c.extent? = some (j, range') →
    range' = range ∧ (j.lo = i.lo ∨ j.lo = range.lo) ∧ (j.hi = i.hi ∨ j.hi = range.hi)

theorem boundsJump_of_none_left (ha : a.extent? = none) : a.BoundsJump b := by
  intro i range j range' hi
  rw [ha] at hi
  cases hi

theorem boundsJump_of_none_right (hb : b.extent? = none) : a.BoundsJump b := by
  intro i range j range' _ hj
  rw [hb] at hj
  cases hj

theorem boundsJump_of_extent?_eq (h : b.extent? = a.extent?) : a.BoundsJump b := by
  intro i range j range' hi hj
  rw [h, hi] at hj
  cases hj
  exact ⟨rfl, .inl rfl, .inl rfl⟩

theorem boundsJump_of_jumpsTo {i j k range : Interval} (ha : a.extent? = some (i, range))
    (hb : b.extent? = some (k, range)) (h : Interval.JumpsTo range i j k) : a.BoundsJump b := by
  intro i' range' k' range'' hi hk
  rw [ha] at hi
  rw [hb] at hk
  cases hi
  cases hk
  rw [h.lo, h.hi]
  grind

theorem boundsJump_widen_content (hv : v.isContent = true) (hvwf : v.WellFormedWithin limit)
    (hw : w.isContent = true) (hmix : v.mixes w = false) : v.BoundsJump (v.widen w) := by
  cases v with
  | any | boolean t f => exact boundsJump_of_none_left rfl
  | integer i =>
    cases w with
    | integer j => exact boundsJump_of_jumpsTo rfl rfl Interval.jumpsTo_widen
    | any | boolean t f => exact boundsJump_of_none_right rfl
    | char j => cases hmix
    | _ => cases hw
  | char i =>
    cases w with
    | char j => exact boundsJump_of_jumpsTo rfl rfl (jumpsTo_widenWithin hvwf)
    | any | boolean t f => exact boundsJump_of_none_right rfl
    | integer j => cases hmix
    | _ => cases hw
  | _ => cases hv

theorem extent?_mergeFlat (hv : v.isContent = true) (hw : w.isContent = true)
    (h : (v.numberKind?.isSome && w.numberKind?.isSome) = false) :
    (mergeFlat v w).extent? = none := by
  have hflags : ∀ t f, (ofFlags t f).extent? = none := by decide
  cases v with
  | any | integer i | char i | boolean t f =>
    cases w with
    | any | integer j | char j | boolean t' f' => first | exact hflags _ _ | rfl | cases h
    | _ => cases hw
  | _ => cases hv

/-- Every bound of a widening stays or jumps, except where number kinds mix. -/
theorem boundsJump_widen (ha : a.WellFormedWithin lengths) (hb : b.WellFormedWithin lengths)
    (hmix : a.mixes b = false) : a.BoundsJump (a.widen b) := by
  cases a with
  | any | empty | boolean t f | null | object n => exact boundsJump_of_none_left rfl
  | integer i | char i =>
    cases b with
    | any | integer j | char j | boolean t f => exact boundsJump_widen_content rfl ha rfl hmix
    | empty => exact boundsJump_of_extent?_eq rfl
    | str l m | array l m | null | object m => exact boundsJump_of_none_right rfl
    | boxed w m =>
      -- the contents are joined; since they are not both numbers, no interval is left
      rw [widen_primitive_boxed hb.1 hb.2 rfl]
      rw [mixes_primitive_boxed rfl hb.1] at hmix
      exact boundsJump_of_none_right (extent?_mergeFlat rfl hb.1 hmix)
  | str l n | array l n =>
    cases b with
    | str k m | array k m =>
      first
        | exact boundsJump_of_jumpsTo rfl rfl (jumpsTo_widenWithin ha)
        | exact boundsJump_of_none_right rfl
    | empty | null => exact boundsJump_of_extent?_eq rfl
    | any | integer j | char j | boolean t f | boxed w m | object m =>
      exact boundsJump_of_none_right rfl
  | boxed v n =>
    cases b with
    | integer j | char j | boolean t f =>
      rw [mixes_comm, mixes_primitive_boxed rfl ha.1, Bool.and_comm] at hmix
      rw [widen_boxed_primitive ha.1 ha.2 rfl]
      exact boundsJump_of_none_right (extent?_mergeFlat ha.1 rfl hmix)
    | boxed w m =>
      rw [mixes_boxed_boxed ha.1 hb.1] at hmix
      rw [widen, box_of_isContent (isContent_widen ha.1 hb.1 ha.2)]
      exact boundsJump_widen_content (v := v) ha.1 ha.2 hb.1 hmix
    | empty | null => exact boundsJump_of_extent?_eq rfl
    | any | str l m | array l m | object m => exact boundsJump_of_none_right rfl

theorem widen_of_mixes (ha : a.WellFormedWithin limit) (hb : b.WellFormedWithin limit)
    (hmix : a.mixes b = true) : a.widen b = a.merge b := by
  fun_induction widen a b with
  | case1 | case2 | case3 | case4 => cases hmix
  | case5 v n w m ih =>
    rw [mixes_boxed_boxed ha.1 hb.1] at hmix
    rw [ih ha.2 hb.2 hmix, merge]
  | case6 => rfl

/-- The chain that starts at `a` and takes in one value after the other. -/
def widenings (a : Value) (next : Nat → Value) : Nat → Value
  | 0 => a
  | i + 1 => (widenings a next i).widen (next i)

def changesAt (a : Value) (next : Nat → Value) (i : Nat) : Bool :=
  widenings a next (i + 1) != widenings a next i

/-- Step `i` of the chain leads to another value, and not by creeping there. -/
def dropsAt (a : Value) (next : Nat → Value) (i : Nat) : Bool :=
  a.changesAt next i && !(widenings a next i).creeps (next i)

section Chains

variable {next : Nat → Value} (ha : a.WellFormedWithin lengths)
  (hnext : ∀ i, (next i).WellFormedWithin lengths)

include ha hnext

theorem wf_widenings (i : Nat) : (widenings a next i).WellFormedWithin lengths := by
  induction i with
  | zero => exact ha
  | succ i ih => exact wf_widen Interval.includes_self ih (hnext i)

/-- Each step that drops is paid for by the height. -/
theorem count_dropsAt_add_height_le (n : Nat) :
    Nat.count (a.dropsAt next ·) n + (widenings a next n).height ≤ a.height := by
  induction n with
  | zero => rw [Nat.count_zero, widenings, Nat.zero_add]
  | succ n ih =>
    rw [Nat.count_succ]
    -- a step that is counted is one that lowers the height; no other raises it
    rcases descends (wf_widenings ha hnext n) (hnext n) with h | h | ⟨hcreeps, h⟩
    · rw [if_neg (by simp [dropsAt, changesAt, widenings, h]), widenings, h]
      exact ih
    · rw [widenings]
      split <;> omega
    · rw [if_neg (by simp [dropsAt, hcreeps]), widenings]
      omega

end Chains

end Value

/-- Along a chain of widenings a value changes at most eleven times, the steps apart in which a
number takes in numbers of another kind and stays of its own. A bound that grows in a step jumps to
the end of its range, unless number kinds mix: those are joined. -/
theorem widening_is_short_unless_number_kinds_mix {a : Value} {next : Nat → Value}
    (ha : a.WellFormedWithin lengths) (hnext : ∀ i, (next i).WellFormedWithin lengths) :
    (∀ n, Nat.count (a.dropsAt next ·) n ≤ 11) ∧
    ∀ i, ((a.widenings next i).mixes (next i) = false →
        (a.widenings next i).BoundsJump (a.widenings next (i + 1))) ∧
      ((a.widenings next i).mixes (next i) = true →
        a.widenings next (i + 1) = (a.widenings next i).merge (next i)) := by
  constructor
  · intro n
    have hcount := Value.count_dropsAt_add_height_le ha hnext n
    have hheight : a.height ≤ 11 := by
      rcases a.eq_empty_or_height_lt with rfl | h
      · exact Nat.le_refl 11
      · omega
    omega
  · intro i
    have hwf := Value.wf_widenings ha hnext i
    exact ⟨Value.boundsJump_widen hwf (hnext i), Value.widen_of_mixes hwf (hnext i)⟩

/-- The values of a chain that takes as long as it can: a character that becomes a number, then a
wrapped number, then some object. -/
def longestChain (i : Nat) : Value :=
  [.ofCode 5, .ofCode 3, .ofCode 9, .int (-1), .int (-2), .int 65536, wrappedRange 0 0, .null,
    .boxed (.boolean true false) false, .object false].getD i .any

/-- The longest chain changes in each of its first eleven steps, without creeping, and not so in
any later one. The character jumps to zero when it takes in a smaller one, and is joined with a
number. -/
theorem longestChain_drops_eleven_times :
    (∀ i < 11, Value.empty.dropsAt longestChain i = true) ∧
    (∀ n, Nat.count (Value.empty.dropsAt longestChain ·) n ≤ 11) ∧
    Value.BoundsJump (.ofCode 5) (.charRange 0 5) ∧
    Value.empty.widenings longestChain 4 = .intRange (-1) 65535 := by
  have hnext : ∀ i, (longestChain i).WellFormedWithin lengths := by
    intro i
    match i with
    | 0 | 1 | 2 => rfl
    | 3 | 4 | 5 | 7 | 9 | _ + 10 => trivial
    | 6 => exact ⟨rfl, trivial⟩
    | 8 => exact ⟨rfl, .inl rfl⟩
  have hempty : Value.empty.WellFormedWithin lengths := trivial
  obtain ⟨hcount, hstep⟩ := widening_is_short_unless_number_kinds_mix hempty hnext
  refine ⟨by decide, hcount, (hstep 1).1 (by decide), ?_⟩
  exact ((hstep 3).2 (by decide)).trans (by decide)

/-- A wrapped number is not widened by a plain one. -/
theorem wrappedRange_widen (n : Nat) :
    (wrappedRange 0 n).widen (.int (n + 1)) = wrappedRange 0 (n + 1) := by
  have hwrapped : ∀ k : Nat, wrappedRange 0 k =
      .boxed (.integer (.saturated 0 k (Int.natCast_nonneg k))) false := by
    intro k
    rw [wrappedRange, Value.intRange, Interval.ofBounds?, dif_pos (Int.natCast_nonneg k)]
    rfl
  rw [← Int.natCast_succ, hwrapped, hwrapped]
  show Value.boxed (.integer (Interval.hull (.point _) (.saturated _ _ _))) _ = _
  congr 2
  apply Interval.ext
  · simp only [Interval.hull, Interval.point, Interval.saturated, saturate, minInt, maxInt]
    omega
  · simp only [Interval.hull, Interval.point, Interval.saturated, saturate, minInt, maxInt]
    omega

theorem widenings_wrappedRange (n : Nat) :
    (wrappedRange 0 0).widenings (fun i => .int (i + 1)) n = wrappedRange 0 n := by
  induction n with
  | zero => rfl
  | succ n ih => rw [Value.widenings, ih, wrappedRange_widen, Int.natCast_succ]

theorem wrappedRange_changes_seventeen_times :
    ¬ ∀ (a : Value) (next : Nat → Value), a.WellFormedWithin lengths →
      (∀ i, (next i).WellFormedWithin lengths) → ∀ n, Nat.count (a.changesAt next ·) n ≤ 16 := by
  intro hshort
  have hcount := hshort (wrappedRange 0 0) (fun i => .int (i + 1)) ⟨rfl, trivial⟩
    (fun _ => trivial) 17
  have hall : Nat.count ((wrappedRange 0 0).changesAt (fun i => .int (i + 1)) ·) 17 = 17 := by
    rw [Nat.count_iff_forall]
    intro i hi
    rw [Value.changesAt, widenings_wrappedRange, widenings_wrappedRange]
    revert i
    decide
  omega

end ValueFlow
