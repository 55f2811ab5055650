import ValueFlow.Contract
import ValueFlow.Conversion
import ValueFlow.Value.Narrowing
import ValueFlow.Proofs.Interval

namespace ValueFlow

namespace Interval

variable {a b c limit : Interval}

theorem includes_iff : a.includes b = true ↔ a.lo ≤ b.lo ∧ b.hi ≤ a.hi := by
  simp [includes]

theorem includes_trans (hab : a.includes b = true) (hbc : b.includes c = true) :
    a.includes c = true := by
  rw [includes_iff] at hab hbc ⊢
  omega

theorem includes_hull (ha : limit.includes a = true) (hb : limit.includes b = true) :
    limit.includes (a.hull b) = true := by
  rw [includes_iff] at ha hb ⊢
  simp only [hull]
  omega

theorem includes_of_meet_left (h : a.meet b = some c) : a.includes c = true := by
  unfold meet at h
  split at h
  · cases h
    rw [includes_iff]
    simp only
    omega
  · cases h

theorem includes_of_meet_right (h : a.meet b = some c) : b.includes c = true := by
  unfold meet at h
  split at h
  · cases h
    rw [includes_iff]
    simp only
    omega
  · cases h

theorem includes_self : a.includes a = true := by
  rw [includes_iff]
  omega

theorem includes_iff_meet : b.includes a = true ↔ a.meet b = some a := by
  have ha := a.lo_le_hi
  rw [includes_iff]
  unfold meet
  split
  · rw [Option.some.injEq, Interval.ext_iff]
    simp only
    omega
  · simp
    omega

theorem includes_getD_meet : limit.includes ((a.meet limit).getD limit) = true := by
  cases h : a.meet limit with
  | none => exact includes_self
  | some c => exact includes_of_meet_right h

end Interval

namespace Value

/-- What a wrapper can carry. -/
def isContent : Value → Bool
  | any | integer _ | char _ | boolean .. => true
  | _ => false

/-- The representation invariant, for strings and arrays with lengths within `limit`. -/
def WellFormedWithin (limit : Interval) : Value → Prop
  | char i => charCodes.includes i = true
  | boolean t f => t = true ∨ f = true
  | str l _ | array l _ => limit.includes l = true
  | boxed v _ => v.isContent = true ∧ v.WellFormedWithin limit
  | _ => True

/-- What is left inside a wrapper, if anything is. -/
def Content (v : Value) : Prop := v.isContent = true ∨ v = empty

variable {limit : Interval} {a b v : Value} {n m : Bool}

/-- No bound on the lengths is the weakest. -/
theorem wf_full (hv : v.WellFormedWithin limit) : v.WellFormedWithin .full := by
  induction v with
  | str l n | array l n => exact Interval.includes_iff.2 ⟨l.minInt_le_lo, l.hi_le_maxInt⟩
  | boxed v n ih => exact ⟨hv.1, ih hv.2⟩
  | _ => exact hv

theorem wf_onlyNull : (onlyNull n).WellFormedWithin limit := by
  cases n <;> trivial

theorem wf_ofFlags (t f : Bool) : (ofFlags t f).WellFormedWithin limit := by
  cases t <;> cases f <;> simp [ofFlags, WellFormedWithin]

theorem content_ofFlags (t f : Bool) : (ofFlags t f).Content := by
  cases t <;> cases f <;> simp [ofFlags, Content, isContent]

theorem wf_box (hc : v.Content) (hv : v.WellFormedWithin limit) :
    (box v n).WellFormedWithin limit := by
  unfold box
  split
  · exact wf_onlyNull
  · rename_i h
    exact ⟨hc.resolve_right h, hv⟩

theorem wf_integerOf (o : Option Interval) : (integerOf o).WellFormedWithin limit := by
  cases o <;> trivial

theorem content_integerOf (o : Option Interval) : (integerOf o).Content := by
  cases o with
  | none => exact .inr rfl
  | some i => exact .inl rfl

theorem wf_charOf {o : Option Interval} (h : ∀ i, o = some i → charCodes.includes i = true) :
    (charOf o).WellFormedWithin limit := by
  cases o with
  | none => trivial
  | some i => exact h i rfl

theorem content_charOf (o : Option Interval) : (charOf o).Content := by
  cases o with
  | none => exact .inr rfl
  | some i => exact .inl rfl

/-- The primitives that hold numbers. -/
def HoldsNumbers (k : Interval → Value) : Prop := k = integer ∨ k = char

/-- The references that have a length. -/
def HasLength (k : Interval → Bool → Value) : Prop := k = str ∨ k = array

/-- What is left of a reference of kind `k` over the length, if any. -/
def overLength (k : Interval → Bool → Value) (length : Option Interval) (nullable : Bool) : Value :=
  length.elim (onlyNull nullable) (k · nullable)

theorem overLength_or_length?_eq_none (v : Value) :
    (∃ k l n, HasLength k ∧ v = overLength k (some l) n) ∨ v.length? = none := by
  cases v with
  | str l n => exact .inl ⟨str, l, n, .inl rfl, rfl⟩
  | array l n => exact .inl ⟨array, l, n, .inr rfl, rfl⟩
  | _ => exact .inr rfl

namespace HasLength

variable {k : Interval → Bool → Value} {l : Interval}

theorem length? (hk : HasLength k) : (k l n).length? = some l := by
  obtain rfl | rfl := hk <;> rfl

theorem withLength (hk : HasLength k) (o : Option Interval) :
    (k l n).withLength o = overLength k (o.bind (·.meet lengths)) n := by
  obtain rfl | rfl := hk <;> cases o <;> rfl

theorem wf_iff (hk : HasLength k) :
    (k l n).WellFormedWithin limit ↔ limit.includes l = true := by
  obtain rfl | rfl := hk <;> rfl

theorem wf_overLength (hk : HasLength k) {o : Option Interval}
    (h : ∀ l, o = some l → limit.includes l = true) :
    (overLength k o n).WellFormedWithin limit := by
  cases o with
  | none => exact wf_onlyNull
  | some l => exact hk.wf_iff.2 (h l rfl)

end HasLength

theorem wf_withNullable (n : Bool) (hv : v.WellFormedWithin limit) :
    (v.withNullable n).WellFormedWithin limit := by
  cases v with
  | null => exact wf_onlyNull
  | _ => exact hv

section Lengths

variable (hlimit : limit.includes lengths = true)

include hlimit

theorem wf_string (l : Interval) (n : Bool) : (string l n).WellFormedWithin limit :=
  HasLength.wf_overLength (k := str) (.inl rfl) fun _ h =>
    Interval.includes_trans hlimit (Interval.includes_of_meet_right h)

theorem wf_arrayOf (l : Interval) (n : Bool) : (arrayOf l n).WellFormedWithin limit :=
  HasLength.wf_overLength (k := array) (.inr rfl) fun _ h =>
    Interval.includes_trans hlimit (Interval.includes_of_meet_right h)

theorem wf_withLength (l : Option Interval) (hv : v.WellFormedWithin limit) :
    (v.withLength l).WellFormedWithin limit := by
  obtain ⟨k, i, n, hk, rfl⟩ | hnone := overLength_or_length?_eq_none v
  · show ((k i n).withLength l).WellFormedWithin limit
    rw [hk.withLength]
    refine hk.wf_overLength fun c hc => ?_
    obtain ⟨m, -, hm⟩ := Option.bind_eq_some_iff.1 hc
    exact Interval.includes_trans hlimit (Interval.includes_of_meet_right hm)
  · cases v <;> first | exact hv | cases hnone

theorem wf_concat (a b : Value) : (concat a b).WellFormedWithin limit :=
  Interval.includes_trans hlimit Interval.includes_getD_meet

end Lengths

section Lattice

theorem wf_mergeFlat (ha : a.WellFormedWithin limit) (hb : b.WellFormedWithin limit) :
    (mergeFlat a b).WellFormedWithin limit := by
  unfold mergeFlat
  split
  · exact hb
  · exact ha
  · trivial
  · trivial
  · trivial
  · trivial
  · trivial
  · exact Interval.includes_hull ha hb
  · exact wf_ofFlags _ _
  · exact Interval.includes_hull ha hb
  · exact Interval.includes_hull ha hb
  · split
    · exact wf_withNullable _ hb
    · trivial
  · split
    · exact wf_withNullable _ ha
    · trivial
  · split <;> trivial
  · split <;> trivial
  · trivial

theorem content_mergeFlat (ha : a.isContent = true) (hb : b.isContent = true) :
    (mergeFlat a b).Content := by
  cases a <;> cases b <;> simp [isContent] at ha hb <;>
    first | exact content_ofFlags _ _ | exact .inl rfl

theorem isContent_of_isPrimitive (h : v.isPrimitive = true) : v.isContent = true := by
  cases v <;> first | rfl | cases h

theorem mergePrimitive_of_content (hb : b.isContent = true) :
    mergePrimitive a b = mergeFlat a b := by
  cases b <;> first | rfl | cases hb

theorem wf_mergePrimitive (hp : a.isPrimitive = true) (ha : a.WellFormedWithin limit)
    (hb : b.WellFormedWithin limit) : (mergePrimitive a b).WellFormedWithin limit := by
  cases b with
  | boxed v n =>
    obtain ⟨hc, hv⟩ := hb
    rw [mergePrimitive, mergePrimitive_of_content hc]
    exact wf_box (content_mergeFlat (isContent_of_isPrimitive hp) hc) (wf_mergeFlat ha hv)
  | _ => exact wf_mergeFlat ha hb

theorem content_merge (ha : a.isContent = true) (hb : b.isContent = true) :
    (merge a b).Content := by
  unfold merge
  split
  · cases ha
  · split
    · rw [mergePrimitive_of_content hb]
      exact content_mergeFlat ha hb
    · split
      · rw [mergePrimitive_of_content ha]
        exact content_mergeFlat hb ha
      · exact content_mergeFlat ha hb

theorem wf_merge (ha : a.WellFormedWithin limit) (hb : b.WellFormedWithin limit) :
    (merge a b).WellFormedWithin limit := by
  fun_induction merge a b with
  | case1 v n w m ih => exact wf_box (content_merge ha.1 hb.1) (ih ha.2 hb.2)
  | case2 a b _ hp => exact wf_mergePrimitive hp ha hb
  | case3 a b _ _ hp => exact wf_mergePrimitive hp hb ha
  | case4 a b => exact wf_mergeFlat ha hb

theorem wf_meet_chars {i j : Interval} (h : charCodes.includes i = true) :
    (charOf (i.meet j)).WellFormedWithin limit :=
  wf_charOf fun _ hc => Interval.includes_trans h (Interval.includes_of_meet_left hc)

theorem wf_meet_chars_right {i j : Interval} (h : charCodes.includes j = true) :
    (charOf (i.meet j)).WellFormedWithin limit :=
  wf_charOf fun _ hc => Interval.includes_trans h (Interval.includes_of_meet_right hc)

theorem wf_intersectFlat (ha : a.WellFormedWithin limit) (hb : b.WellFormedWithin limit) :
    (intersectFlat a b).WellFormedWithin limit := by
  unfold intersectFlat
  split
  · trivial
  · trivial
  · exact hb
  · exact ha
  · exact wf_integerOf _
  · exact wf_meet_chars_right hb
  · exact wf_meet_chars ha
  · exact wf_meet_chars ha
  · exact wf_ofFlags _ _
  · exact HasLength.wf_overLength (k := str) (.inl rfl) fun _ h =>
      Interval.includes_trans ha (Interval.includes_of_meet_left h)
  · exact HasLength.wf_overLength (k := array) (.inr rfl) fun _ h =>
      Interval.includes_trans ha (Interval.includes_of_meet_left h)
  · split
    · exact wf_onlyNull
    · trivial
  · split
    · exact wf_onlyNull
    · trivial
  · split
    · exact wf_withNullable _ hb
    · trivial
  · split
    · exact wf_withNullable _ ha
    · trivial
  · trivial

theorem content_intersectFlat (ha : a.isContent = true) (hb : b.isContent = true) :
    (intersectFlat a b).Content := by
  cases a <;> cases b <;> simp [isContent] at ha hb <;>
    first
    | exact content_ofFlags _ _
    | exact content_integerOf _
    | exact content_charOf _
    | exact .inl rfl

theorem intersectPrimitive_of_content (hb : b.isContent = true) :
    intersectPrimitive a b = intersectFlat a b := by
  cases b <;> first | rfl | cases hb

theorem wf_intersectPrimitive (hp : a.isPrimitive = true) (ha : a.WellFormedWithin limit)
    (hb : b.WellFormedWithin limit) : (intersectPrimitive a b).WellFormedWithin limit := by
  cases b with
  | boxed v n =>
    obtain ⟨hc, hv⟩ := hb
    rw [intersectPrimitive, intersectPrimitive_of_content hc]
    exact wf_box (content_intersectFlat (isContent_of_isPrimitive hp) hc) (wf_intersectFlat ha hv)
  | _ => exact wf_intersectFlat ha hb

theorem content_intersect (ha : a.isContent = true) (hb : b.isContent = true) :
    (intersect a b).Content := by
  unfold intersect
  split
  · cases ha
  · split
    · rw [intersectPrimitive_of_content hb]
      exact content_intersectFlat ha hb
    · split
      · rw [intersectPrimitive_of_content ha]
        exact content_intersectFlat hb ha
      · exact content_intersectFlat ha hb

theorem wf_intersect (ha : a.WellFormedWithin limit) (hb : b.WellFormedWithin limit) :
    (intersect a b).WellFormedWithin limit := by
  fun_induction intersect a b with
  | case1 v n w m ih => exact wf_box (content_intersect ha.1 hb.1) (ih ha.2 hb.2)
  | case2 a b _ hp => exact wf_intersectPrimitive hp ha hb
  | case3 a b _ _ hp => exact wf_intersectPrimitive hp hb ha
  | case4 a b => exact wf_intersectFlat ha hb

theorem content_widen (ha : a.isContent = true) (hb : b.isContent = true) :
    (widen a b).Content := by
  unfold widen
  split
  · exact .inl rfl
  · exact .inl rfl
  · cases ha
  · cases ha
  · cases ha
  · exact content_merge ha hb

theorem wf_widen (hlimit : limit.includes lengths = true) (ha : a.WellFormedWithin limit)
    (hb : b.WellFormedWithin limit) : (widen a b).WellFormedWithin limit := by
  fun_induction widen a b with
  | case1 => trivial
  | case2 => exact Interval.includes_getD_meet
  | case3 => exact Interval.includes_trans hlimit Interval.includes_getD_meet
  | case4 => exact Interval.includes_trans hlimit Interval.includes_getD_meet
  | case5 v n w m ih => exact wf_box (content_widen ha.1 hb.1) (ih ha.2 hb.2)
  | case6 => exact wf_merge ha hb

end Lattice

section Arithmetic

theorem content_quotient (j : Interval) (o : Option Interval) : (quotient j o).value.Content := by
  cases o with
  | none => exact .inr rfl
  | some i => exact .inl rfl

theorem content_arithUnboxed (op : Arith) (a b : Value) : (arithUnboxed op a b).value.Content := by
  unfold arithUnboxed
  split
  · cases op with
    | div | rem => exact content_quotient _ _
    | _ => exact .inl rfl
  · exact .inl rfl

theorem wf_quotient (j : Interval) (o : Option Interval) :
    (quotient j o).value.WellFormedWithin limit := by
  cases o <;> trivial

theorem wf_arithUnboxed (op : Arith) (a b : Value) :
    (arithUnboxed op a b).value.WellFormedWithin limit := by
  unfold arithUnboxed
  split
  · cases op with
    | div | rem => exact wf_quotient _ _
    | _ => trivial
  · trivial

theorem wf_arithBoxed (hlimit : limit.includes lengths = true) {op : Arith} {o : Outcome}
    (h : arithBoxed op a b = some o) : o.value.WellFormedWithin limit := by
  unfold arithBoxed at h
  split at h
  · cases h
    trivial
  · split at h
    · cases h
      exact wf_concat hlimit a b
    · split at h
      · cases h
        trivial
      · cases h

theorem arithBoxed_eq_none {op : Arith} : arithBoxed op a b = none ↔
    (a.isEmpty || b.isEmpty) = false ∧ (op = .add && (a.isStr || b.isStr)) = false ∧
      (a.isNull || b.isNull) = false := by
  unfold arithBoxed
  grind

theorem plain_of_isContent (hv : v.isContent = true) :
    v.isEmpty = false ∧ v.isStr = false ∧ v.isNull = false := by
  cases v <;> simp_all [isContent, isEmpty, isStr, isNull]

/-- A wrapper that is an operand can be replaced by its content. -/
theorem arithBoxed_content_right {op : Arith} (hv : v.isContent = true)
    (h : arithBoxed op a (boxed v n) = none) : arithBoxed op a v = none := by
  obtain ⟨he, hs, hn⟩ := plain_of_isContent hv
  rw [arithBoxed_eq_none] at h ⊢
  rw [he, hs, hn]
  exact h

theorem arithBoxed_content_left {op : Arith} (hv : v.isContent = true)
    (h : arithBoxed op (boxed v n) b = none) : arithBoxed op v b = none := by
  obtain ⟨he, hs, hn⟩ := plain_of_isContent hv
  rw [arithBoxed_eq_none] at h ⊢
  rw [he, hs, hn]
  exact h

theorem arithBoxed_of_content (op : Arith) (ha : a.isContent = true) (hb : b.isContent = true) :
    arithBoxed op a b = none := by
  obtain ⟨hae, has, han⟩ := plain_of_isContent ha
  obtain ⟨hbe, hbs, hbn⟩ := plain_of_isContent hb
  rw [arithBoxed_eq_none]
  simp [hae, has, han, hbe, hbs, hbn]

theorem arithRight_of_none {op : Arith} (hb : b.isContent = true)
    (h : arithBoxed op a b = none) : arithRight op a b = arithUnboxed op a b := by
  cases b <;> first | simp [arithRight, h]; done | cases hb

theorem wf_arithRight (hlimit : limit.includes lengths = true) (op : Arith)
    (hb : b.WellFormedWithin limit) : (arithRight op a b).value.WellFormedWithin limit := by
  cases b with
  | boxed v n =>
    rw [arithRight]
    cases h : arithBoxed op a (boxed v n) with
    | some o => exact wf_arithBoxed hlimit h
    | none =>
      rw [arithRight_of_none hb.1 (arithBoxed_content_right hb.1 h)]
      exact wf_box (content_arithUnboxed op a v) (wf_arithUnboxed op a v)
  | _ =>
    rw [arithRight]
    · cases h : arithBoxed op a _ with
      | some o => exact wf_arithBoxed hlimit h
      | none => exact wf_arithUnboxed op _ _
    · simp

theorem arith_of_content {op : Arith} (ha : a.isContent = true) (hb : b.isContent = true) :
    arith op a b = arithUnboxed op a b := by
  have h := arithRight_of_none hb (arithBoxed_of_content op ha hb)
  cases a <;> first | exact h | cases ha

theorem wf_arith (hlimit : limit.includes lengths = true) (op : Arith)
    (ha : a.WellFormedWithin limit) (hb : b.WellFormedWithin limit) :
    (arith op a b).value.WellFormedWithin limit := by
  unfold arith
  split
  · rename_i v n w m
    rw [arith_of_content ha.1 hb.1]
    exact wf_box (content_arithUnboxed op v w) (wf_arithUnboxed op v w)
  · rename_i v n hbox
    cases h : arithBoxed op (boxed v n) b with
    | some o => exact wf_arithBoxed hlimit h
    | none =>
      have hright : arith op v b = (arithBoxed op v b).getD (arithUnboxed op v b) := by
        have hb : arithRight op v b = (arithBoxed op v b).getD (arithUnboxed op v b) := by
          rw [arithRight]
          exact hbox
        have hv := ha.1
        cases v <;> first | exact hb | cases hv
      show (box (arith op v b).value n).WellFormedWithin limit
      rw [hright, arithBoxed_content_left ha.1 h]
      exact wf_box (content_arithUnboxed op v b) (wf_arithUnboxed op v b)
  · exact wf_arithRight hlimit op hb

theorem content_negate (hv : v.isContent = true) : v.negate.value.Content := by
  cases v <;> first | exact .inl rfl | cases hv

theorem wf_negate (hv : v.WellFormedWithin limit) : v.negate.value.WellFormedWithin limit := by
  induction v with
  | boxed v n ih => exact wf_box (content_negate hv.1) (ih hv.2)
  | _ => trivial

theorem wf_promote (hv : v.WellFormedWithin limit) : v.promote.value.WellFormedWithin limit := by
  induction v with
  | boxed v n ih => exact ih hv.2
  | null | char i => trivial
  | _ => exact hv

theorem content_complement (hv : v.isContent = true) : v.complement.value.Content := by
  cases v <;> first | exact content_ofFlags _ _ | exact .inl rfl | cases hv

theorem wf_complement (hv : v.WellFormedWithin limit) :
    v.complement.value.WellFormedWithin limit := by
  induction v with
  | boxed v n ih => exact wf_box (content_complement hv.1) (ih hv.2)
  | boolean t f => exact wf_ofFlags _ _
  | _ => trivial

end Arithmetic

section Narrowing

/-- A narrowing keeps a part of its first interval. -/
def Narrows (narrow : Interval → Interval → Option Interval) : Prop :=
  ∀ i j k, narrow i j = some k → i.includes k = true

theorem narrows_greater : Narrows Interval.greater := by
  intro i j k h
  unfold Interval.greater at h
  split at h
  · exact Interval.includes_of_meet_left h
  · cases h

theorem narrows_less : Narrows Interval.less := by
  intro i j k h
  unfold Interval.less at h
  split at h
  · exact Interval.includes_of_meet_left h
  · cases h

theorem narrows_greaterOrEqual : Narrows Interval.greaterOrEqual :=
  fun _ _ _ h => Interval.includes_of_meet_left h

theorem narrows_lessOrEqual : Narrows Interval.lessOrEqual :=
  fun _ _ _ h => Interval.includes_of_meet_left h

theorem narrows_notEqual : Narrows Interval.notEqual := by
  intro i j k h
  unfold Interval.notEqual at h
  rw [Interval.includes_iff]
  split at h
  · split at h
    · split at h
      · cases h
        simp only
        omega
      · cases h
    · split at h
      · cases h
        simp only
        omega
      · cases h
        omega
  · cases h
    omega

variable {narrow : Interval → Interval → Option Interval}

theorem wf_narrowRange (h : Narrows narrow) (ha : a.WellFormedWithin limit) :
    (narrowRange narrow a b).WellFormedWithin limit := by
  unfold narrowRange
  split
  · exact wf_integerOf _
  · exact wf_charOf fun k hk => Interval.includes_trans ha (h _ _ k hk)
  · exact ha

theorem content_narrowRange (ha : a.isContent = true) : (narrowRange narrow a b).Content := by
  unfold narrowRange
  split
  · exact content_integerOf _
  · exact content_charOf _
  · exact .inl ha

theorem restrictOrderedRight_eq (narrow : Interval → Interval → Option Interval) (a b : Value) :
    restrictOrderedRight narrow a b = empty ∨
      ∃ w, restrictOrderedRight narrow a b = narrowRange narrow a w := by
  induction b with
  | boxed v n ih =>
    rw [restrictOrderedRight]
    split
    · exact .inl rfl
    · exact ih
  | _ =>
    rw [restrictOrderedRight]
    · split
      · exact .inl rfl
      · exact .inr ⟨_, rfl⟩
    · simp

theorem content_restrictOrdered (ha : a.isContent = true) :
    (restrictOrdered narrow a b).Content := by
  have h : (restrictOrderedRight narrow a b).Content := by
    rcases restrictOrderedRight_eq narrow a b with h | ⟨w, h⟩
    · exact .inr h
    · rw [h]
      exact content_narrowRange ha
  cases a <;> first | exact h | cases ha

theorem wf_restrictOrdered (h : Narrows narrow) (ha : a.WellFormedWithin limit) :
    (restrictOrdered narrow a b).WellFormedWithin limit := by
  fun_induction restrictOrdered narrow a b with
  | case1 => trivial
  | case2 v n b _ ih => exact wf_box (content_restrictOrdered ha.1) (ih ha.2)
  | case3 a b _ =>
    rcases restrictOrderedRight_eq narrow a b with hr | ⟨w, hr⟩
    · rw [hr]
      trivial
    · rw [hr]
      exact wf_narrowRange h ha

theorem wf_restrictEqualNull {o : Value} (h : restrictEqualNull a b = some o) :
    o.WellFormedWithin limit := by
  unfold restrictEqualNull at h
  split at h
  · cases h
    trivial
  · split at h
    · cases h
      exact wf_onlyNull
    · split at h
      · cases h
        exact wf_onlyNull
      · cases h

theorem wf_restrictEqualFlat (ha : a.WellFormedWithin limit) (hb : b.WellFormedWithin limit) :
    (restrictEqualFlat a b).WellFormedWithin limit := by
  unfold restrictEqualFlat
  split
  · exact wf_integerOf _
  · exact wf_meet_chars ha
  · split
    · exact ha
    · exact wf_intersect ha hb

theorem content_restrictEqualFlat (ha : a.isContent = true) (hb : b.isContent = true) :
    (restrictEqualFlat a b).Content := by
  unfold restrictEqualFlat
  split
  · exact content_integerOf _
  · exact content_charOf _
  · split
    · exact .inl ha
    · exact content_intersect ha hb

theorem wf_getD_restrictEqual (ha : a.WellFormedWithin limit) (hb : b.WellFormedWithin limit) :
    ((restrictEqualNull a b).getD (restrictEqualFlat a b)).WellFormedWithin limit := by
  cases h : restrictEqualNull a b with
  | some o => exact wf_restrictEqualNull h
  | none => exact wf_restrictEqualFlat ha hb

theorem content_getD_restrictEqual (ha : a.isContent = true) (hb : b.isContent = true) :
    ((restrictEqualNull a b).getD (restrictEqualFlat a b)).Content := by
  obtain ⟨hae, -, han⟩ := plain_of_isContent ha
  obtain ⟨hbe, -, hbn⟩ := plain_of_isContent hb
  simp only [restrictEqualNull, hae, han, hbe, hbn]
  exact content_restrictEqualFlat ha hb

theorem wf_restrictEqualPrimitive (ha : a.WellFormedWithin limit) (hb : b.WellFormedWithin limit) :
    (restrictEqualPrimitive a b).WellFormedWithin limit := by
  induction b with
  | boxed v n ih => exact ih hb.2
  | _ => exact wf_getD_restrictEqual ha hb

theorem content_restrictEqual (ha : a.isContent = true) (hb : b.isPrimitive = true) :
    (restrictEqual a b).Content := by
  have h := content_getD_restrictEqual ha (isContent_of_isPrimitive hb)
  have hp : (restrictEqualPrimitive a b).Content := by
    cases b <;> first | exact h | cases hb
  cases a <;> first | exact hp | exact h | cases ha

theorem wf_restrictEqual (ha : a.WellFormedWithin limit) (hb : b.WellFormedWithin limit) :
    (restrictEqual a b).WellFormedWithin limit := by
  fun_induction restrictEqual a b with
  | case1 v n b hp ih => exact wf_box (content_restrictEqual ha.1 hp) (ih ha.2 hb)
  | case2 => exact wf_getD_restrictEqual ha hb
  | case3 => exact wf_restrictEqualPrimitive ha hb
  | case4 => exact wf_getD_restrictEqual ha hb

theorem wf_restrictNotEqualNull (ha : a.WellFormedWithin limit) {o : Value}
    (h : restrictNotEqualNull a b = some o) : o.WellFormedWithin limit := by
  unfold restrictNotEqualNull at h
  split at h
  · cases h
    trivial
  · split at h
    · cases h
      exact wf_withNullable false ha
    · split at h
      · cases h
        trivial
      · cases h

theorem wf_restrictNotEqualFlat (ha : a.WellFormedWithin limit) :
    (restrictNotEqualFlat a b).WellFormedWithin limit := by
  unfold restrictNotEqualFlat
  split
  · split
    · exact wf_ofFlags _ _
    · exact wf_ofFlags _ _
    · exact ha
  · exact wf_narrowRange narrows_notEqual ha

theorem content_restrictNotEqualFlat (ha : a.isContent = true) :
    (restrictNotEqualFlat a b).Content := by
  unfold restrictNotEqualFlat
  split
  · split
    · exact content_ofFlags _ _
    · exact content_ofFlags _ _
    · exact .inl ha
  · exact content_narrowRange ha

theorem wf_getD_restrictNotEqual (ha : a.WellFormedWithin limit) :
    ((restrictNotEqualNull a b).getD (restrictNotEqualFlat a b)).WellFormedWithin limit := by
  cases h : restrictNotEqualNull a b with
  | some o => exact wf_restrictNotEqualNull ha h
  | none => exact wf_restrictNotEqualFlat ha

theorem wf_restrictNotEqualPrimitive (ha : a.WellFormedWithin limit) :
    (restrictNotEqualPrimitive a b).WellFormedWithin limit := by
  induction b with
  | boxed v n ih =>
    cases a with
    | boolean t f => exact wf_restrictNotEqualFlat ha
    | _ => exact ih
  | _ => exact wf_getD_restrictNotEqual ha

theorem content_restrictNotEqual (ha : a.isContent = true) (hb : b.isPrimitive = true) :
    (restrictNotEqual a b).Content := by
  obtain ⟨hae, -, han⟩ := plain_of_isContent ha
  obtain ⟨hbe, -, hbn⟩ := plain_of_isContent (isContent_of_isPrimitive hb)
  have hnull : restrictNotEqualNull a b = none := by
    simp [restrictNotEqualNull, hae, han, hbe, hbn]
  have hp : (restrictNotEqualPrimitive a b).Content := by
    have h : ((restrictNotEqualNull a b).getD (restrictNotEqualFlat a b)).Content := by
      rw [hnull]
      exact content_restrictNotEqualFlat ha
    cases b <;> first | exact h | cases hb
  have h : ((restrictNotEqualNull a b).getD a).Content := by
    rw [hnull]
    exact .inl ha
  cases a <;> first | exact hp | exact h | cases ha

theorem wf_restrictNotEqual (ha : a.WellFormedWithin limit) :
    (restrictNotEqual a b).WellFormedWithin limit := by
  have hgetD : ∀ {a b : Value}, a.WellFormedWithin limit →
      ((restrictNotEqualNull a b).getD a).WellFormedWithin limit := by
    intro a b ha
    cases h : restrictNotEqualNull a b with
    | some o => exact wf_restrictNotEqualNull ha h
    | none => exact ha
  fun_induction restrictNotEqual a b with
  | case1 v n b hp ih => exact wf_box (content_restrictNotEqual ha.1 hp) (ih ha.2)
  | case2 => exact hgetD ha
  | case3 => exact wf_restrictNotEqualPrimitive ha
  | case4 => exact hgetD ha

theorem wf_restrict (rel : Relation) (ha : a.WellFormedWithin limit)
    (hb : b.WellFormedWithin limit) : (restrict rel a b).WellFormedWithin limit := by
  cases rel with
  | lt => exact wf_restrictOrdered narrows_less ha
  | le => exact wf_restrictOrdered narrows_lessOrEqual ha
  | gt => exact wf_restrictOrdered narrows_greater ha
  | ge => exact wf_restrictOrdered narrows_greaterOrEqual ha
  | eq => exact wf_restrictEqual ha hb
  | ne => exact wf_restrictNotEqual ha

end Narrowing

section Conversion

theorem includes_fit (policy : Overflow) (i range : Interval) :
    range.includes (policy.fit i range) = true := by
  unfold Overflow.fit
  split
  · assumption
  · have hi := i.lo_le_hi
    have hrange := range.lo_le_hi
    cases policy with
    | saturate =>
      rw [Interval.includes_iff]
      simp only [Interval.clampInto]
      omega
    | wrap => exact Interval.includes_self

theorem wf_primitive_convert (k : Primitive) (policy : Overflow) (hv : v.WellFormedWithin limit) :
    (k.convert policy v).WellFormedWithin limit := by
  unfold Primitive.convert
  split
  · exact hv
  · trivial
  · trivial
  · split
    · exact includes_fit policy _ _
    · exact hv
  · split
    · trivial
    · exact hv

theorem content_primitive_convert (k : Primitive) (policy : Overflow) (hv : v.isContent = true) :
    (k.convert policy v).Content := by
  unfold Primitive.convert
  split
  · exact .inl hv
  · exact .inl rfl
  · exact .inl rfl
  · split
    · exact .inl rfl
    · exact .inl hv
  · split
    · exact .inl rfl
    · exact .inl hv

theorem wf_convert (ty : Ty) (policy : Overflow) (hv : v.WellFormedWithin limit) :
    (ty.convert policy v).value.WellFormedWithin limit := by
  unfold Ty.convert
  split
  · trivial
  · trivial
  · exact wf_primitive_convert _ policy hv.2
  · exact wf_primitive_convert _ policy hv
  · exact wf_box (content_primitive_convert _ policy hv.1) (wf_primitive_convert _ policy hv.2)
  · show (if v.isPrimitive then _ else v).WellFormedWithin limit
    split
    · rename_i hp
      exact wf_box (content_primitive_convert _ policy (isContent_of_isPrimitive hp))
        (wf_primitive_convert _ policy hv)
    · exact hv
  · exact hv

theorem wf_withinRange (range : Interval) (hv : v.WellFormedWithin limit) :
    (v.withinRange range).WellFormedWithin limit := by
  cases v with
  | integer i => exact wf_integerOf _
  | char i => exact wf_meet_chars hv
  | boxed v n =>
    obtain ⟨hc, hv⟩ := hv
    show (box (v.withinRange range) n).WellFormedWithin limit
    cases v with
    | integer i => exact wf_box (content_integerOf _) (wf_integerOf _)
    | char i => exact wf_box (content_charOf _) (wf_meet_chars hv)
    | boxed w m => cases hc
    | _ => exact wf_box (.inl hc) hv
  | _ => exact hv

theorem content_primitive_anyValue (k : Primitive) : k.anyValue.Content := by
  cases k <;> exact .inl rfl

theorem wf_primitive_anyValue (k : Primitive) : k.anyValue.WellFormedWithin limit := by
  cases k with
  | boolean => exact wf_ofFlags true true
  | char => exact Interval.includes_self
  | _ => trivial

variable (hlimit : limit.includes lengths = true)

include hlimit

theorem wf_narrow (c : Contract) (hv : v.WellFormedWithin limit) :
    (c.narrow v).WellFormedWithin limit := by
  have hnull : (if c.forbidsNull then v.withNullable false else v).WellFormedWithin limit := by
    split
    · exact wf_withNullable false hv
    · exact hv
  unfold Contract.narrow
  split
  · exact wf_withinRange _ hv
  · unfold withinLength
    split
    · exact wf_withLength hlimit _ hnull
    · exact hnull
  · exact hnull

theorem wf_anyValue (ty : Ty) : ty.anyValue.WellFormedWithin limit := by
  cases ty with
  | primitive k => exact wf_primitive_anyValue k
  | string => exact wf_string hlimit _ _
  | array elem => exact wf_arrayOf hlimit _ _
  | boxed k => exact wf_box (content_primitive_anyValue k) (wf_primitive_anyValue k)
  | object name | void => trivial

theorem wf_initialValue (ty : Ty) (contracts : List Contract) :
    (ty.initialValue contracts).WellFormedWithin limit := by
  have h : ∀ v : Value, v.WellFormedWithin limit →
      (contracts.foldl (fun v c => c.narrow v) v).WellFormedWithin limit := by
    induction contracts with
    | nil => exact fun v hv => hv
    | cons c rest ih => exact fun v hv => ih _ (wf_narrow hlimit c hv)
  exact h _ (wf_anyValue hlimit ty)

end Conversion

end Value

end ValueFlow
