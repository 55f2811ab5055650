import ValueFlow.Proofs.Denotation
import ValueFlow.Proofs.WellFormed

namespace ValueFlow.Value

variable {a b v : Value} {x : Concrete} {i j : Interval} {n m : Bool}

theorem mem_onlyNull : x ∈ onlyNull n ↔ n = true ∧ x = .null := by
  cases n <;> simp [onlyNull]

theorem mem_ofFlags {t f : Bool} : x ∈ ofFlags t f ↔ x ∈ boolean t f := by
  cases t <;> cases f <;> simp [ofFlags, mem_boolean]

theorem mem_box : x ∈ box v n ↔ x ∈ boxed v n := by
  unfold box
  split
  · rename_i h
    simp [h, mem_onlyNull, mem_boxed]
  · exact Iff.rfl

theorem HoldsNumbers.mem_mono {k : Interval → Value} (hk : HoldsNumbers k)
    (hij : ∀ m, m ∈ i → m ∈ j) (h : ∃ m ∈ i, x = .number m) : x ∈ k j := by
  obtain ⟨m, hm, hx⟩ := h
  obtain rfl | rfl := hk <;> exact ⟨m, hij m hm, hx⟩

theorem mem_lengths (k : Fin 2147483648) : (k.val : Int) ∈ lengths := by
  rw [Interval.mem_def]
  have := k.isLt
  simp only [lengths, Interval.saturated, saturate, minInt, maxInt]
  omega

namespace HasLength

variable {k : Interval → Bool → Value} (hk : HasLength k)

include hk

theorem null_mem : .null ∈ k i n ↔ n = true := by
  obtain rfl | rfl := hk
  · simp [mem_str]
  · simp [mem_array]

/-- A reference with a length is in a value of its kind if the length is. -/
theorem mem_iff (h : x ∈ k i n) (hx : x ≠ .null) :
    ∃ l ∈ lengths, x.length? = some l ∧ ∀ j m, x ∈ k j m ↔ l ∈ j := by
  obtain rfl | rfl := hk
  · obtain ⟨-, hnull⟩ | ⟨id, l, -, rfl⟩ := h
    · exact absurd hnull hx
    · exact ⟨l.val, mem_lengths l, rfl, fun j m => by simp [mem_str]⟩
  · obtain ⟨-, hnull⟩ | ⟨id, l, -, rfl⟩ := h
    · exact absurd hnull hx
    · exact ⟨l.val, mem_lengths l, rfl, fun j m => by simp [mem_array]⟩

theorem mem_mono (hij : ∀ l ∈ lengths, l ∈ i → l ∈ j) (hnm : n = true → m = true)
    (h : x ∈ k i n) : x ∈ k j m := by
  by_cases hx : x = .null
  · subst hx
    exact hk.null_mem.2 (hnm (hk.null_mem.1 h))
  · obtain ⟨l, hl, -, hmem⟩ := hk.mem_iff h hx
    exact (hmem j m).2 (hij l hl ((hmem i n).1 h))

theorem mem_overLength {o : Option Interval} : x ∈ overLength k o n ↔
    (n = true ∧ x = .null) ∨ ∃ i, o = some i ∧ x ∈ k i n := by
  cases o with
  | none => simp [overLength, mem_onlyNull]
  | some i =>
    constructor
    · exact fun h => .inr ⟨i, rfl, h⟩
    · rintro (⟨hn, rfl⟩ | ⟨_, hi, h⟩)
      · exact hk.null_mem.2 hn
      · cases hi
        exact h

theorem mem_meet (hi : x ∈ k i n) (hj : x ∈ k j m) : x ∈ overLength k (i.meet j) (n && m) := by
  rw [hk.mem_overLength]
  by_cases hx : x = .null
  · subst hx
    exact .inl ⟨by simp [hk.null_mem.1 hi, hk.null_mem.1 hj], rfl⟩
  · obtain ⟨l, -, -, hmem⟩ := hk.mem_iff hi hx
    obtain ⟨c, hc, hlc⟩ := Interval.meet_isSome_of_mem ((hmem i n).1 hi) ((hmem j m).1 hj)
    exact .inr ⟨c, hc, (hmem c _).2 hlc⟩

end HasLength

theorem mem_boxed_mono (hv : x ∈ a → x ∈ b) (hnm : n = true → m = true) (h : x ∈ boxed a n) :
    x ∈ boxed b m := by
  rcases h with ⟨hn, hx⟩ | ⟨hx, ha⟩
  · exact .inl ⟨hnm hn, hx⟩
  · exact .inr ⟨hx, hv ha⟩

theorem mayBeNull_of_mem (h : .null ∈ v) : v.mayBeNull = true := by
  cases v with
  | any | null => rfl
  | empty => exact h.elim
  | integer i | char i => obtain ⟨k, -, hk⟩ := h; cases hk
  | boolean t f => rcases h with ⟨-, h⟩ | ⟨-, h⟩ <;> cases h
  | str l n | array l n =>
    rcases h with ⟨hn, -⟩ | ⟨id, k, -, hk⟩
    · exact hn
    · cases hk
  | boxed v n =>
    rcases h with ⟨hn, -⟩ | ⟨hne, -⟩
    · exact hn
    · exact absurd rfl hne
  | object n =>
    rcases h with hn | hne
    · exact hn
    · exact absurd rfl hne

theorem ne_null_of_isPrimitive (ha : a.isPrimitive = true) (hx : x ∈ a) : x ≠ .null := by
  rintro rfl
  have := mayBeNull_of_mem hx
  cases a <;> simp [isPrimitive, mayBeNull] at ha this

theorem mem_withNullable_of_mem (h : x ∈ v) (hn : x = .null → n = true) :
    x ∈ v.withNullable n := by
  cases v with
  | any | integer i | char i | boolean t f => exact h
  | empty => exact h
  | null => exact mem_onlyNull.2 ⟨hn h, h⟩
  | str l m =>
    rcases h with ⟨-, hx⟩ | h
    · exact .inl ⟨hn hx, hx⟩
    · exact .inr h
  | array l m =>
    rcases h with ⟨-, hx⟩ | h
    · exact .inl ⟨hn hx, hx⟩
    · exact .inr h
  | boxed v m =>
    rcases h with ⟨-, hx⟩ | h
    · exact .inl ⟨hn hx, hx⟩
    · exact .inr h
  | object m =>
    by_cases hx : x = .null
    · exact .inl (hn hx)
    · exact .inr hx

theorem null_mem_withNullable (hv : v.isReference = true) : .null ∈ v.withNullable true := by
  cases v with
  | any | empty | integer i | char i | boolean t f => cases hv
  | null => exact mem_onlyNull.2 ⟨rfl, rfl⟩
  | str l m | array l m | boxed v m => exact .inl ⟨rfl, rfl⟩
  | object m => exact .inl rfl

theorem mem_object_of_mem (h : x ∈ v) (hn : v.mayBeNull = true → n = true) : x ∈ object n := by
  by_cases hx : x = .null
  · subst hx
    exact .inl (hn (mayBeNull_of_mem h))
  · exact .inr hx

section Merge

theorem mem_withNullable_or_any (h : x = .null ∨ x ∈ v) :
    x ∈ if v.isReference then v.withNullable true else any := by
  split
  · rename_i hv
    rcases h with rfl | h
    · exact null_mem_withNullable hv
    · exact mem_withNullable_of_mem h fun _ => rfl
  · trivial

theorem HoldsNumbers.mem_hull {k : Interval → Value} (hk : HoldsNumbers k)
    (h : (∃ m ∈ i, x = .number m) ∨ ∃ m ∈ j, x = .number m) : x ∈ k (i.hull j) :=
  h.elim (hk.mem_mono fun _ => Interval.mem_hull_left)
    (hk.mem_mono fun _ => Interval.mem_hull_right)

theorem HasLength.mem_hull {k : Interval → Bool → Value} (hk : HasLength k)
    (h : x ∈ k i n ∨ x ∈ k j m) : x ∈ k (i.hull j) (n || m) :=
  h.elim (hk.mem_mono (fun _ _ => Interval.mem_hull_left) (by simp +contextual))
    (hk.mem_mono (fun _ _ => Interval.mem_hull_right) (by simp +contextual))

theorem mem_mergeFlat (h : x ∈ a ∨ x ∈ b) : x ∈ mergeFlat a b := by
  unfold mergeFlat
  split
  · exact h.resolve_left id
  · exact h.resolve_right id
  · trivial
  · trivial
  · exact HoldsNumbers.mem_hull (k := integer) (.inl rfl) h
  · exact HoldsNumbers.mem_hull (k := integer) (.inl rfl) h
  · exact HoldsNumbers.mem_hull (k := integer) (.inl rfl) h
  · exact HoldsNumbers.mem_hull (k := char) (.inr rfl) h
  · rw [mem_ofFlags]
    simp only [mem_boolean, Bool.or_eq_true] at h ⊢
    grind
  · exact HasLength.mem_hull (k := str) (.inl rfl) h
  · exact HasLength.mem_hull (k := array) (.inr rfl) h
  · exact mem_withNullable_or_any h
  · exact mem_withNullable_or_any h.symm
  · split
    · exact h.elim (fun h => mem_object_of_mem h fun hn => by simp_all [mayBeNull])
        fun h => mem_object_of_mem h fun hn => by simp [hn]
    · trivial
  · split
    · exact h.elim (fun h => mem_object_of_mem h fun hn => by simp [hn])
        fun h => mem_object_of_mem h fun hn => by simp_all [mayBeNull]
    · trivial
  · trivial

theorem mem_mergePrimitive (h : x ∈ a ∨ x ∈ b) (ha : a.isPrimitive = true) :
    x ∈ mergePrimitive a b := by
  induction b with
  | boxed v n ih =>
    rw [mergePrimitive, mem_box]
    rcases h with h | h
    · exact .inr ⟨ne_null_of_isPrimitive ha h, ih (.inl h)⟩
    · exact mem_boxed_mono (fun h => ih (.inr h)) id h
  | _ => exact mem_mergeFlat h

theorem mem_merge (h : x ∈ a ∨ x ∈ b) : x ∈ a.merge b := by
  fun_induction merge a b with
  | case1 v n w m ih =>
    rw [mem_box]
    rcases h with h | h
    · exact mem_boxed_mono (fun h => ih (.inl h)) (by simp +contextual) h
    · exact mem_boxed_mono (fun h => ih (.inr h)) (by simp +contextual) h
  | case2 a b _ ha => exact mem_mergePrimitive h ha
  | case3 a b _ _ hb => exact mem_mergePrimitive h.symm hb
  | case4 a b => exact mem_mergeFlat h

end Merge

section Intersect

theorem mem_integerOf {o : Option Interval} :
    x ∈ integerOf o ↔ ∃ i, o = some i ∧ x ∈ integer i := by
  cases o <;> simp [integerOf]

theorem mem_charOf {o : Option Interval} : x ∈ charOf o ↔ ∃ i, o = some i ∧ x ∈ char i := by
  cases o <;> simp [charOf]

theorem HoldsNumbers.mem_meet {k : Interval → Value} (hk : HoldsNumbers k)
    (hi : ∃ m ∈ i, x = .number m) (hj : ∃ m ∈ j, x = .number m) :
    x ∈ (i.meet j).elim empty k := by
  obtain ⟨m, hm, rfl⟩ := hi
  obtain ⟨l, hl, hml⟩ := hj
  cases hml
  obtain ⟨c, hc, hmc⟩ := Interval.meet_isSome_of_mem hm hl
  rw [hc]
  exact hk.mem_mono (fun _ h => h) ⟨m, hmc, rfl⟩

theorem mem_onlyNull_or_any (hx : x = .null) (h : x ∈ v) :
    x ∈ if v.isReference then onlyNull v.mayBeNull else any := by
  subst hx
  split
  · exact mem_onlyNull.2 ⟨mayBeNull_of_mem h, rfl⟩
  · trivial

theorem mem_withNullable_and_any (hv : x ∈ v) (hn : x ∈ object n) :
    x ∈ if v.isReference then v.withNullable (v.mayBeNull && n) else any := by
  split
  · refine mem_withNullable_of_mem hv fun hx => ?_
    subst hx
    have h : n = true := mayBeNull_of_mem hn
    simp [h, mayBeNull_of_mem hv]
  · trivial

theorem mem_intersectFlat (ha : x ∈ a) (hb : x ∈ b) : x ∈ intersectFlat a b := by
  unfold intersectFlat
  split
  · exact ha
  · exact hb
  · exact hb
  · exact ha
  · exact HoldsNumbers.mem_meet (k := integer) (.inl rfl) ha hb
  · exact HoldsNumbers.mem_meet (k := char) (.inr rfl) ha hb
  · exact HoldsNumbers.mem_meet (k := char) (.inr rfl) ha hb
  · exact HoldsNumbers.mem_meet (k := char) (.inr rfl) ha hb
  · rw [mem_ofFlags]
    simp only [mem_boolean, Bool.and_eq_true] at ha hb ⊢
    grind
  · exact HasLength.mem_meet (k := str) (.inl rfl) ha hb
  · exact HasLength.mem_meet (k := array) (.inr rfl) ha hb
  · exact mem_onlyNull_or_any ha hb
  · exact mem_onlyNull_or_any hb ha
  · exact mem_withNullable_and_any hb ha
  · exact mem_withNullable_and_any ha hb
  · trivial

theorem mem_intersectPrimitive (ha : x ∈ a) (hb : x ∈ b) (hp : a.isPrimitive = true) :
    x ∈ intersectPrimitive a b := by
  induction b with
  | boxed v n ih =>
    rw [intersectPrimitive, mem_box]
    rcases hb with ⟨-, hx⟩ | ⟨hx, hv⟩
    · exact absurd hx (ne_null_of_isPrimitive hp ha)
    · exact .inr ⟨hx, ih hv⟩
  | _ => exact mem_intersectFlat ha hb

theorem mem_intersect (ha : x ∈ a) (hb : x ∈ b) : x ∈ a.intersect b := by
  fun_induction intersect a b with
  | case1 v n w m ih =>
    rw [mem_box]
    rcases ha with ⟨hn, hx⟩ | ⟨hx, hv⟩
    · rcases hb with ⟨hm, -⟩ | ⟨hx', -⟩
      · exact .inl ⟨by simp [hn, hm], hx⟩
      · exact absurd hx hx'
    · rcases hb with ⟨-, hx'⟩ | ⟨-, hw⟩
      · exact absurd hx' hx
      · exact .inr ⟨hx, ih hv hw⟩
  | case2 a b _ hp => exact mem_intersectPrimitive ha hb hp
  | case3 a b _ _ hp => exact mem_intersectPrimitive hb ha hp
  | case4 a b => exact mem_intersectFlat ha hb

end Intersect

section Widen

theorem mem_widenWithin {range : Interval} {k : Int} (h : k ∈ i ∨ k ∈ j) (hk : k ∈ range) :
    k ∈ widenWithin range i j := by
  have hw : k ∈ i.widen j := h.elim Interval.mem_widen_left Interval.mem_widen_right
  obtain ⟨c, hc, hkc⟩ := Interval.meet_isSome_of_mem hw hk
  rw [widenWithin, hc]
  exact hkc

theorem HasLength.mem_widen {k : Interval → Bool → Value} (hk : HasLength k)
    (h : x ∈ k i n ∨ x ∈ k j m) : x ∈ k (widenWithin lengths i j) (n || m) :=
  h.elim (hk.mem_mono (fun _ hl h => mem_widenWithin (.inl h) hl) (by simp +contextual))
    (hk.mem_mono (fun _ hl h => mem_widenWithin (.inr h) hl) (by simp +contextual))

theorem mem_widen {limit : Interval} (ha : a.WellFormedWithin limit)
    (hb : b.WellFormedWithin limit) (h : x ∈ a ∨ x ∈ b) : x ∈ a.widen b := by
  fun_induction widen a b with
  | case1 i j =>
    exact h.elim (HoldsNumbers.mem_mono (.inl rfl) fun _ => Interval.mem_widen_left)
      (HoldsNumbers.mem_mono (.inl rfl) fun _ => Interval.mem_widen_right)
  | case2 i j =>
    rcases h with ⟨k, hk, hx⟩ | ⟨k, hk, hx⟩
    · exact ⟨k, mem_widenWithin (.inl hk) (Interval.mem_of_includes ha hk), hx⟩
    · exact ⟨k, mem_widenWithin (.inr hk) (Interval.mem_of_includes hb hk), hx⟩
  | case3 i n j m => exact HasLength.mem_widen (k := str) (.inl rfl) h
  | case4 i n j m => exact HasLength.mem_widen (k := array) (.inr rfl) h
  | case5 v n w m ih =>
    rw [mem_box]
    rcases h with h | h
    · exact mem_boxed_mono (fun h => ih ha.2 hb.2 (.inl h)) (by simp +contextual) h
    · exact mem_boxed_mono (fun h => ih ha.2 hb.2 (.inr h)) (by simp +contextual) h
  | case6 => exact mem_merge h

end Widen

end ValueFlow.Value

namespace ValueFlow

/-- Join and widening stand for whatever one of the two values stands for, and the meet for whatever
both of them do. -/
theorem join_widening_and_meet_lose_no_value {a b : Value} (ha : a.WellFormedWithin lengths)
    (hb : b.WellFormedWithin lengths) (x : Concrete) :
    (x ∈ a ∨ x ∈ b → x ∈ a.merge b ∧ x ∈ a.widen b) ∧
    (x ∈ a → x ∈ b → x ∈ a.intersect b) :=
  ⟨fun h => ⟨Value.mem_merge h, Value.mem_widen ha hb h⟩, Value.mem_intersect⟩

def shortText : Value := .string (.saturated 0 3 (by decide)) true

def longText : Value := .string (.saturated 5 9 (by decide)) true

/-- No text is short and long, but null is both. -/
theorem shortText_and_longText_share_null :
    shortText.WellFormedWithin lengths ∧ longText.WellFormedWithin lengths ∧
    .null ∈ shortText.intersect longText ∧
    .str 0 7 ∈ shortText.merge longText ∧ .str 0 7 ∈ shortText.widen longText := by
  have hshort : shortText.WellFormedWithin lengths := Value.wf_string (by decide) _ true
  have hlong : longText.WellFormedWithin lengths := Value.wf_string (by decide) _ true
  have hseven : .str 0 7 ∈ longText := .inr ⟨0, 7, by decide, rfl⟩
  have hnull := (join_widening_and_meet_lose_no_value hshort hlong .null).2
    (.inl ⟨rfl, rfl⟩) (.inl ⟨rfl, rfl⟩)
  obtain ⟨hmerge, hwiden⟩ :=
    (join_widening_and_meet_lose_no_value hshort hlong (.str 0 7)).1 (.inr hseven)
  exact ⟨hshort, hlong, hnull, hmerge, hwiden⟩

end ValueFlow
