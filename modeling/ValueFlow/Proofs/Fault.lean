import ValueFlow.Proofs.Arithmetic
import ValueFlow.Proofs.Finding

namespace ValueFlow

theorem Interval.asPoint_beq_zero (j : Interval) :
    (j.asPoint == some 0) = decide (j = .point 0) := by
  have hpoint : j = .point 0 ↔ j.lo = 0 ∧ j.hi = 0 := by
    rw [Interval.ext_iff]
    simp only [Interval.point, Interval.saturated, saturate, minInt, maxInt]
    omega
  rw [Bool.eq_iff_iff, decide_eq_true_eq, hpoint]
  unfold asPoint isPoint
  split
  · simp_all
  · simp_all
    omega

namespace Value

/-- What is inside a wrapper; any other value stands for itself. -/
def unboxed : Value → Value
  | boxed v _ => v
  | v => v

def isNullableBox : Value → Bool
  | boxed _ n => n
  | _ => false

def CarriesContent (v : Value) : Prop := ∀ w n, v = boxed w n → w.isContent = true

variable {a b v : Value} {op : Arith} {o : Outcome} {f : Fault} {i j : Interval}

theorem carriesContent_of_wellFormed {limit : Interval} (hv : v.WellFormedWithin limit) :
    v.CarriesContent := by
  rintro w n rfl
  exact hv.1

theorem carriesContent_of_range? (h : v.unboxed.range? = some i) : v.CarriesContent := by
  rintro w n rfl
  rcases range?_eq_some h with hw | hw
  · rw [show w = integer i from hw]
    rfl
  · rw [show w = char i from hw]
    rfl

/-- Of a division, the outcome is settled by whether zero is among the divisors. -/
theorem arithRanges_of_zero_mem (hop : op = .div ∨ op = .rem) (hj : 0 ∈ j) :
    arithRanges op i j = ⟨empty, some ⟨.divisionByZero, decide (j = .point 0)⟩⟩ := by
  rw [← Interval.asPoint_beq_zero]
  rcases hop with rfl | rfl
  · simp only [arithRanges, Interval.div?, if_pos hj, quotient]
  · simp only [arithRanges, Interval.rem?, if_pos hj, quotient]

theorem fault_arithRanges (h : (op = .div ∨ op = .rem) → 0 ∉ j) :
    (arithRanges op i j).fault = none := by
  cases op with
  | div => simp only [arithRanges, Interval.div?, if_neg (h (.inl rfl)), quotient, Outcome.ok]
  | rem =>
    simp only [arithRanges, Interval.rem?, if_neg (h (.inr rfl))]
    split <;> rfl
  | _ => rfl

theorem arithUnboxed_of_range? (hi : a.range? = some i) (hj : b.range? = some j) :
    arithUnboxed op a b = arithRanges op i j := by
  unfold arithUnboxed
  rw [hi, hj]

theorem fault_arithUnboxed (h : (arithUnboxed op a b).fault = some f) :
    ∃ i j, a.range? = some i ∧ b.range? = some j ∧ (op = .div ∨ op = .rem) ∧ 0 ∈ j := by
  unfold arithUnboxed at h
  split at h
  · rename_i i j hi hj
    by_cases hzero : (op = .div ∨ op = .rem) ∧ 0 ∈ j
    · exact ⟨i, j, hi, hj, hzero⟩
    · rw [fault_arithRanges fun hop hj => hzero ⟨hop, hj⟩] at h
      cases h
  · cases h

theorem arith_of_some (h : arithBoxed op a b = some o) : arith op a b = o := by
  fun_cases arith op a b with
  | case1 v n w m =>
    simp [arithBoxed, isEmpty, isStr, isNull] at h
  | case2 =>
    rw [h]
    rfl
  | case3 =>
    fun_cases arithRight op a b with
    | case1 | case2 =>
      rw [h]
      rfl

theorem arith_content_left (hv : v.isContent = true) (hb : ∀ w m, b ≠ boxed w m)
    (h : arithBoxed op v b = none) : arith op v b = arithUnboxed op v b := by
  have hright : arithRight op v b = arithUnboxed op v b := by
    rw [arithRight, h]
    · rfl
    · exact hb
  cases v <;> first | exact hright | cases hv

theorem unboxed_of_not_boxed (h : ∀ w n, v ≠ boxed w n) :
    v.unboxed = v ∧ v.isNullableBox = false := by
  cases v with
  | boxed w n => exact absurd rfl (h w n)
  | _ => exact ⟨rfl, rfl⟩

/-- Once the operands are unboxed, the fault is theirs; where it leaves nothing, at most the null of
a wrapper is left. -/
theorem arith_of_none (ha : a.CarriesContent) (hb : b.CarriesContent)
    (h : arithBoxed op a b = none) :
    (arith op a b).fault = (arithUnboxed op a.unboxed b.unboxed).fault ∧
      ((arithUnboxed op a.unboxed b.unboxed).value = empty →
        (arith op a b).value = onlyNull (a.isNullableBox || b.isNullableBox)) := by
  have hbox : ∀ {o : Outcome} {n : Bool}, o.value = empty → (o.map (box · n)).value = onlyNull n :=
    fun {o n} ho => by rw [Outcome.map, ho]; rfl
  -- by which operands are wrappers: their contents decide, and their nulls are kept beside
  fun_cases arith op a b with
  | case1 v n w m =>
    rw [arith_of_content (ha v n rfl) (hb w m rfl)]
    exact ⟨rfl, hbox⟩
  | case2 v n b hflat =>
    have hv := ha v n rfl
    obtain ⟨hub, hnb⟩ := unboxed_of_not_boxed hflat
    rw [h, arith_content_left hv hflat (arithBoxed_content_left hv h), hub, hnb, Bool.or_false]
    exact ⟨rfl, hbox⟩
  | case3 a b _ hflat =>
    obtain ⟨hua, hna⟩ := unboxed_of_not_boxed hflat
    rw [hua, hna, Bool.false_or]
    fun_cases arithRight op a b with
    | case1 w m =>
      have hw := hb w m rfl
      rw [h, arithRight_of_none hw (arithBoxed_content_right hw h)]
      exact ⟨rfl, hbox⟩
    | case2 b hflat' =>
      obtain ⟨hub, hnb⟩ := unboxed_of_not_boxed hflat'
      rw [h, hub, hnb]
      exact ⟨rfl, id⟩

theorem arithBoxed_of_range? (hi : a.unboxed.range? = some i) (hj : b.unboxed.range? = some j) :
    arithBoxed op a b = none := by
  have hplain : ∀ {v : Value} {k : Interval}, v.unboxed.range? = some k →
      v.isEmpty = false ∧ v.isStr = false ∧ v.isNull = false := by
    intro v k hk
    cases v <;> first | exact ⟨rfl, rfl, rfl⟩ | cases hk
  obtain ⟨hae, has, han⟩ := hplain hi
  obtain ⟨hbe, hbs, hbn⟩ := hplain hj
  rw [arithBoxed_eq_none]
  simp [hae, has, han, hbe, hbs, hbn]

theorem arith_of_zero_mem (hop : op = .div ∨ op = .rem) (hi : a.unboxed.range? = some i)
    (hj : b.unboxed.range? = some j) (hzero : 0 ∈ j) :
    arith op a b = ⟨onlyNull (a.isNullableBox || b.isNullableBox),
      some ⟨.divisionByZero, decide (j = .point 0)⟩⟩ := by
  have hnone : arithBoxed op a b = none := arithBoxed_of_range? hi hj
  obtain ⟨hfault, hvalue⟩ := arith_of_none (carriesContent_of_range? hi)
    (carriesContent_of_range? hj) hnone
  rw [arithUnboxed_of_range? hi hj, arithRanges_of_zero_mem hop hzero] at hfault hvalue
  exact congr (congrArg Outcome.mk (hvalue rfl)) hfault

theorem fault_arith_of_zero_notMem (hi : a.unboxed.range? = some i) (hj : b.unboxed.range? = some j)
    (hzero : 0 ∉ j) : (arith op a b).fault = none := by
  rw [(arith_of_none (carriesContent_of_range? hi) (carriesContent_of_range? hj)
    (arithBoxed_of_range? hi hj)).1, arithUnboxed_of_range? hi hj]
  exact fault_arithRanges fun _ => hzero

theorem eq_null_of_isNull (h : v.isNull = true) : v = null := by
  cases v <;> first | rfl | cases h

theorem fault_arithBoxed (hbox : arithBoxed op a b = some o) (h : o.fault = some f) :
    o = .nullOperand ∧ (a = null ∨ b = null) ∧
      (op = .add → a.isStr = false ∧ b.isStr = false) := by
  unfold arithBoxed at hbox
  split at hbox
  · cases hbox
    cases h
  · split at hbox
    · cases hbox
      cases h
    · rename_i hstr
      split at hbox
      · rename_i hnulls
        cases hbox
        rw [Bool.or_eq_true] at hnulls
        refine ⟨rfl, hnulls.imp eq_null_of_isNull eq_null_of_isNull, ?_⟩
        rintro rfl
        simpa using hstr
      · cases hbox

/-- The faults of arithmetic: a null operand that no text takes up, or a divisor around zero. -/
theorem fault_arith_cases (ha : a.CarriesContent) (hb : b.CarriesContent)
    (h : (arith op a b).fault = some f) :
    (arith op a b = .nullOperand ∧ (a = null ∨ b = null) ∧
      (op = .add → a.isStr = false ∧ b.isStr = false)) ∨
    ∃ i j, a.unboxed.range? = some i ∧ b.unboxed.range? = some j ∧ (op = .div ∨ op = .rem) ∧
      0 ∈ j := by
  cases hbox : arithBoxed op a b with
  | none =>
    rw [(arith_of_none ha hb hbox).1] at h
    exact .inr (fault_arithUnboxed h)
  | some o =>
    rw [arith_of_some hbox] at h ⊢
    exact .inl (fault_arithBoxed hbox h)

end Value

/-- A division whose divisor may be zero is a fault, definite if the divisor is zero and nothing
else; every other division is none. Beside a fault of any operation nothing is left, save where a
division by zero has a nullable wrapper among its operands: then null is left. -/
theorem faults_leave_nothing_but_null_of_wrappers (op : Arith) (a b : Value) :
    (∀ i j, op = .div ∨ op = .rem → a.unboxed.range? = some i → b.unboxed.range? = some j →
      (0 ∈ j → ∃ definite, (a.arith op b).fault = some ⟨.divisionByZero, definite⟩ ∧
        (definite = true ↔ j = .point 0) ∧
        (a.arith op b).value = .onlyNull (a.isNullableBox || b.isNullableBox)) ∧
      (0 ∉ j → (a.arith op b).fault = none)) ∧
    (a.WellFormedWithin lengths → b.WellFormedWithin lengths →
      ∀ f, (a.arith op b).fault = some f →
        ((a.arith op b).value = .empty ↔
          ¬ (f.kind = .divisionByZero ∧ (a.isNullableBox || b.isNullableBox) = true)) ∧
        ((a.arith op b).value ≠ .empty → (a.arith op b).value = .null)) := by
  constructor
  · intro i j hop hi hj
    refine ⟨fun hzero => ?_, Value.fault_arith_of_zero_notMem hi hj⟩
    rw [Value.arith_of_zero_mem hop hi hj hzero]
    exact ⟨_, rfl, decide_eq_true_iff, rfl⟩
  · intro ha hb f hf
    rcases Value.fault_arith_cases (Value.carriesContent_of_wellFormed ha)
      (Value.carriesContent_of_wellFormed hb) hf with ⟨hnull, -⟩ | ⟨i, j, hi, hj, hop, hzero⟩
    · rw [hnull] at hf ⊢
      cases hf
      refine ⟨⟨fun _ h => ?_, fun _ => rfl⟩, fun h => absurd rfl h⟩
      cases h.1
    · rw [Value.arith_of_zero_mem hop hi hj hzero] at hf ⊢
      cases hf
      cases a.isNullableBox || b.isNullableBox with
      | false => simp [Value.onlyNull]
      | true => simp [Value.onlyNull]

def boxedTen (nullable : Bool) : Value := .boxed (.int 10) nullable

def digits : Interval := .saturated 0 9 (by decide)

/-- Zero is one digit among others, so the fault is not definite; without null nothing is left. -/
theorem boxedTen_over_digits : 0 ∈ digits ∧
    (∃ definite, ((boxedTen false).arith .rem (.boxed (.char digits) false)).fault =
        some ⟨.divisionByZero, definite⟩ ∧ (definite = true ↔ digits = .point 0)) ∧
      ((boxedTen false).arith .rem (.boxed (.char digits) false)).value = .empty := by
  have hzero : 0 ∈ digits := by decide
  obtain ⟨hdivision, hbeside⟩ := faults_leave_nothing_but_null_of_wrappers .rem (boxedTen false)
    (.boxed (.char digits) false)
  obtain ⟨definite, hfault, hdefinite, -⟩ :=
    (hdivision (.point 10) digits (.inr rfl) rfl rfl).1 hzero
  have hchar : (Value.char digits).WellFormedWithin lengths := by
    show charCodes.includes digits = true
    decide
  have hempty := (hbeside ⟨rfl, trivial⟩ ⟨rfl, hchar⟩ _ hfault).1.2 fun h => by cases h.2
  exact ⟨hzero, ⟨definite, hfault, hdefinite⟩, hempty⟩

/-- Dividing the nullable wrapper by zero leaves null, not nothing. -/
theorem boxedTen_over_zero_leaves_null :
    (boxedTen true).WellFormedWithin lengths ∧ (Value.int 0).WellFormedWithin lengths ∧
      (boxedTen true).arith .div (.int 0) = ⟨.null, some ⟨.divisionByZero, true⟩⟩ ∧
      ((boxedTen true).arith .div (.int 0)).value ≠ .empty := by
  refine ⟨⟨rfl, trivial⟩, trivial, by decide, by decide⟩

def Concrete.isText : Concrete → Bool
  | .str .. => true
  | _ => false

/-- Whether an operation fails at run time. A text takes up whatever is added to it; otherwise null
is no operand, and zero no divisor. -/
def Arith.Fails (op : Arith) (x y : Concrete) : Prop :=
  ¬ (op = .add ∧ (x.isText = true ∨ y.isText = true)) ∧
    (x = .null ∨ y = .null ∨ ((op = .div ∨ op = .rem) ∧ y = .number 0))

def Relation.Fails (rel : Relation) (x y : Concrete) : Prop :=
  rel.isOrdering = true ∧ (x = .null ∨ y = .null)

/-- The outcome reports a fault as definite. -/
def Outcome.IsDefinite (o : Outcome) : Prop := ∃ kind, o.fault = some ⟨kind, true⟩

/-- Whether the value stands for texts without being a string. -/
def Value.hidesText : Value → Bool
  | any | object _ | boxed any _ => true
  | _ => false

/-- Null is added to a value that may turn out to be a text. -/
def Arith.NullMeetsHiddenText (op : Arith) (a b : Value) : Prop :=
  op = .add ∧ ((a = .null ∧ b.hidesText = true) ∨ (b = .null ∧ a.hidesText = true))

namespace Value

variable {a b v : Value} {op : Arith} {x y : Concrete}

theorem hidesText_of_mem (hv : v.CarriesContent) (hstr : v.isStr = false) (hx : x ∈ v)
    (htext : x.isText = true) : v.hidesText = true := by
  have hflat : ∀ w : Value, w.isContent = true → x ∈ w → w = any := by
    intro w hw hx
    cases w with
    | any => rfl
    | integer i | char i =>
      obtain ⟨k, -, rfl⟩ := hx
      cases htext
    | boolean t f => rcases hx with ⟨-, rfl⟩ | ⟨-, rfl⟩ <;> cases htext
    | _ => cases hw
  cases v with
  | any | object n => rfl
  | empty => exact hx.elim
  | integer i | char i | boolean t f => cases hflat _ rfl hx
  | str l n => cases hstr
  | array l n => rcases hx with ⟨-, rfl⟩ | ⟨_, _, -, rfl⟩ <;> cases htext
  | null =>
    cases hx
    cases htext
  | boxed w n =>
    rcases hx with ⟨-, rfl⟩ | ⟨-, hx⟩
    · cases htext
    · rw [hflat w (hv w n rfl) hx]
      rfl

theorem exists_text_of_hidesText (h : v.hidesText = true) : ∃ x ∈ v, x.isText = true := by
  refine ⟨.str 0 0, ?_, rfl⟩
  unfold hidesText at h
  split at h
  · trivial
  · exact .inr (by simp)
  · exact .inr ⟨by simp, trivial⟩
  · cases h

theorem fails_of_zero (hop : op = .div ∨ op = .rem) (hj : b.unboxed.range? = some (.point 0))
    (hy : y ∈ b) : op.Fails x y := by
  have hadd : ¬ (op = .add ∧ (x.isText = true ∨ y.isText = true)) := by
    rintro ⟨rfl, -⟩
    rcases hop with h | h <;> cases h
  have hnumber : ∀ v : Value, v.range? = some (.point 0) → y ∈ v → y = .number 0 := by
    intro v hv hy
    have hpoint : ∃ k ∈ Interval.point 0, y = .number k := by
      rcases range?_eq_some hv with rfl | rfl <;> exact hy
    obtain ⟨k, hk, rfl⟩ := hpoint
    have hk : k = 0 := Int.le_antisymm hk.2 hk.1
    rw [hk]
  refine ⟨hadd, .inr ?_⟩
  cases b with
  | boxed w n =>
    rcases hy with ⟨-, hnull⟩ | ⟨-, hy⟩
    · exact .inl hnull
    · exact .inr ⟨hop, hnumber w hj hy⟩
  | _ => exact .inr ⟨hop, hnumber _ hj hy⟩

/-- A definite fault is raised by all operands, unless the null that it blames may be taken up by a
text. -/
theorem fails_of_isDefinite (ha : a.CarriesContent) (hb : b.CarriesContent)
    (h : (arith op a b).IsDefinite) (hhidden : ¬ op.NullMeetsHiddenText a b) (hx : x ∈ a)
    (hy : y ∈ b) : op.Fails x y := by
  obtain ⟨kind, hfault⟩ := h
  rcases fault_arith_cases ha hb hfault with ⟨-, rfl | rfl, hstr⟩ | ⟨i, j, hi, hj, hop, hzero⟩
  · -- null fails, unless the other operand hides a text that takes it up
    obtain rfl : x = .null := hx
    refine ⟨?_, .inl rfl⟩
    rintro ⟨rfl, htext | htext⟩
    · cases htext
    · exact hhidden ⟨rfl, .inl ⟨rfl, hidesText_of_mem hb (hstr rfl).2 hy htext⟩⟩
  · obtain rfl : y = .null := hy
    refine ⟨?_, .inr (.inl rfl)⟩
    rintro ⟨rfl, htext | htext⟩
    · exact hhidden ⟨rfl, .inr ⟨rfl, hidesText_of_mem ha (hstr rfl).1 hx htext⟩⟩
    · cases htext
  · -- a definite division by zero has a divisor that is nothing but zero
    rw [arith_of_zero_mem hop hi hj hzero] at hfault
    have hpoint : decide (j = .point 0) = true := congrArg Fault.definite (Option.some.inj hfault)
    rw [of_decide_eq_true hpoint] at hj
    exact fails_of_zero hop hj hy

theorem arith_null_left (h : b.hidesText = true) : arith .add null b = .nullOperand := by
  unfold hidesText at h
  split at h <;> first | rfl | cases h

theorem arith_null_right (h : a.hidesText = true) : arith .add a null = .nullOperand := by
  unfold hidesText at h
  split at h <;> first | rfl | cases h

theorem isDefinite_of_hiddenText (h : op.NullMeetsHiddenText a b) :
    (arith op a b).IsDefinite ∧ ∃ x ∈ a, ∃ y ∈ b, ¬ op.Fails x y := by
  obtain ⟨rfl, ⟨rfl, hb⟩ | ⟨rfl, ha⟩⟩ := h
  · obtain ⟨y, hy, htext⟩ := exists_text_of_hidesText hb
    rw [arith_null_left hb]
    exact ⟨⟨_, rfl⟩, .null, rfl, y, hy, fun hfails => hfails.1 ⟨rfl, .inr htext⟩⟩
  · obtain ⟨x, hx, htext⟩ := exists_text_of_hidesText ha
    rw [arith_null_right ha]
    exact ⟨⟨_, rfl⟩, x, hx, .null, rfl, fun hfails => hfails.1 ⟨rfl, .inl htext⟩⟩

theorem fails_of_test_isDefinite {rel : Relation} (h : (test rel a b).IsDefinite) (hx : x ∈ a)
    (hy : y ∈ b) : rel.Fails x y := by
  obtain ⟨kind, hfault⟩ := h
  unfold test at hfault
  split at hfault
  · cases hfault
  · split at hfault
    · rename_i hnull
      rw [Bool.and_eq_true, Bool.or_eq_true] at hnull
      obtain ⟨hordering, ha | hb⟩ := hnull
      · rw [eq_null_of_isNull ha] at hx
        exact ⟨hordering, .inl hx⟩
      · rw [eq_null_of_isNull hb] at hy
        exact ⟨hordering, .inr hy⟩
    · cases hfault

/-- A unary operation finds fault with null only: a wrapper is judged by its content. -/
theorem eq_null_of_unary (hv : v.CarriesContent)
    (h : v.negate.IsDefinite ∨ v.complement.IsDefinite) : v = null := by
  cases v with
  | null => rfl
  | boxed w n =>
    have hw := hv w n rfl
    cases w with
    | any | integer i | char i | boolean t f =>
      rcases h with ⟨kind, hfault⟩ | ⟨kind, hfault⟩ <;> cases hfault
    | _ => cases hw
  | _ => rcases h with ⟨kind, hfault⟩ | ⟨kind, hfault⟩ <;> cases hfault

end Value

/-- A fault that is called definite is raised by every choice of values that the operands stand for,
whether in arithmetic, in a comparison, or in a unary operation, with one exception: null added to a
value that may turn out to be a text is called a definite fault, although the text would take up the
null. -/
theorem definite_faults_overlook_hidden_text {a b : Value} (ha : a.WellFormedWithin lengths)
    (hb : b.WellFormedWithin lengths) :
    (∀ op : Arith, (a.arith op b).IsDefinite → ¬ op.NullMeetsHiddenText a b →
      ∀ x ∈ a, ∀ y ∈ b, op.Fails x y) ∧
    (∀ op : Arith, op.NullMeetsHiddenText a b →
      (a.arith op b).IsDefinite ∧ ∃ x ∈ a, ∃ y ∈ b, ¬ op.Fails x y) ∧
    (∀ rel : Relation, (a.test rel b).IsDefinite → ∀ x ∈ a, ∀ y ∈ b, rel.Fails x y) ∧
    (a.negate.IsDefinite ∨ a.complement.IsDefinite → ∀ x ∈ a, x = .null) := by
  have ha' := Value.carriesContent_of_wellFormed ha
  have hb' := Value.carriesContent_of_wellFormed hb
  refine ⟨?_, fun _ => Value.isDefinite_of_hiddenText, ?_, ?_⟩
  · intro op h hhidden x hx y hy
    exact Value.fails_of_isDefinite ha' hb' h hhidden hx hy
  · intro rel h x hx y hy
    exact Value.fails_of_test_isDefinite h hx hy
  · intro h x hx
    rwa [Value.eq_null_of_unary ha' h] at hx

theorem boxedTen_over_boxedZero_fails :
    (boxedTen true).WellFormedWithin lengths ∧
      ((boxedTen true).arith .div (.boxed (.int 0) true)).IsDefinite ∧
      ∀ x ∈ boxedTen true, ∀ y ∈ Value.boxed (.int 0) true, Arith.div.Fails x y := by
  have hwf : (boxedTen true).WellFormedWithin lengths := ⟨rfl, trivial⟩
  have hdefinite : ((boxedTen true).arith .div (.boxed (.int 0) true)).IsDefinite :=
    ⟨.divisionByZero, by decide⟩
  refine ⟨hwf, hdefinite, ?_⟩
  exact (definite_faults_overlook_hidden_text hwf (b := .boxed (.int 0) true) ⟨rfl, trivial⟩).1 .div
    hdefinite fun h => by cases h.1

/-- Null added to anything is called a definite fault, but a text can be among anything. -/
theorem null_plus_any_may_succeed :
    Value.null.WellFormedWithin lengths ∧ Value.any.WellFormedWithin lengths ∧
      (Value.null.arith .add .any).IsDefinite ∧
      Concrete.null ∈ Value.null ∧ Concrete.str 0 3 ∈ Value.any ∧
      ¬ Arith.add.Fails .null (.str 0 3) :=
  ⟨trivial, trivial, ⟨_, rfl⟩, rfl, trivial, fun h => h.1 ⟨rfl, .inr rfl⟩⟩

namespace Arith

variable {op : Arith} {m n : Int}

theorem eval?_isSome (h : op = .div ∨ op = .rem → n ≠ 0) : ∃ r, op.eval? m n = some r := by
  cases op with
  | div => exact ⟨_, if_neg (h (.inl rfl))⟩
  | rem => exact ⟨_, if_neg (h (.inr rfl))⟩
  | _ => exact ⟨_, rfl⟩

end Arith

namespace Value

variable {a b v : Value} {op : Arith} {m n : Int} {f : Fault}

theorem ne_null_of_number_mem (h : .number m ∈ v) : v ≠ null := by
  rintro rfl
  cases h

theorem fault_arith_of_numbers (ha : a.CarriesContent) (hb : b.CarriesContent)
    (hm : .number m ∈ a) (hn : .number n ∈ b) (h : (arith op a b).fault = some f) :
    f.kind = .divisionByZero ∧ (op = .div ∨ op = .rem) ∧
      ∃ j, b.unboxed.range? = some j ∧ 0 ∈ j := by
  rcases fault_arith_cases ha hb h with ⟨-, hnull, -⟩ | ⟨i, j, hi, hj, hop, hzero⟩
  · exact (hnull.elim (ne_null_of_number_mem hm) (ne_null_of_number_mem hn)).elim
  · rw [arith_of_zero_mem hop hi hj hzero] at h
    cases h
    exact ⟨rfl, hop, j, hj, hzero⟩

theorem fault_negate_of_number (h : .number m ∈ v) : v.negate.fault = none := by
  induction v with
  | boxed v w ih => exact ih (number_mem_boxed.1 h)
  | null => cases h
  | _ => rfl

end Value

/-- An operation on two numbers that has a result either reports a division by zero, which takes a
divisor around zero, or raises no fault and stands for the result, brought back into the 64-bit
range. The negative of a number is never missed. -/
theorem arithmetic_stands_for_results_on_numbers (op : Arith) {a b : Value}
    (ha : a.WellFormedWithin lengths) (hb : b.WellFormedWithin lengths) {m n : Int}
    (hm : .number m ∈ a) (hn : .number n ∈ b) (hdivisor : op = .div ∨ op = .rem → n ≠ 0) :
    (∃ r, op.eval? m n = some r ∧
      (((a.arith op b).DividesByZero ∧ (op = .div ∨ op = .rem) ∧
          ∃ j, b.unboxed.range? = some j ∧ 0 ∈ j) ∨
        ((a.arith op b).fault = none ∧ .number r ∈ (a.arith op b).value))) ∧
    a.negate.fault = none ∧ .number (saturate (-m)) ∈ a.negate.value := by
  refine ⟨?_, Value.fault_negate_of_number hm, Value.mem_negate hm⟩
  obtain ⟨r, hr⟩ := Arith.eval?_isSome (m := m) hdivisor
  refine ⟨r, hr, ?_⟩
  have hmem := Value.mem_arith hr hm hn
  cases hfault : (a.arith op b).fault with
  | none =>
    refine .inr ⟨rfl, hmem.resolve_left ?_⟩
    rintro ⟨definite, hzero⟩
    cases hfault.symm.trans hzero
  | some f =>
    obtain ⟨hkind, hop, hzero⟩ := Value.fault_arith_of_numbers
      (Value.carriesContent_of_wellFormed ha) (Value.carriesContent_of_wellFormed hb) hm hn hfault
    refine .inl ⟨⟨f.definite, ?_⟩, hop, hzero⟩
    rw [hfault, ← hkind]

def boxedLeast : Value := .boxed (.int minInt) true

/-- The quotient of the least number by minus one lies beyond the range, and so does its negative:
both stop at the greatest number. -/
theorem boxedLeast_over_minusOne : boxedLeast.WellFormedWithin lengths ∧
    .number minInt ∈ boxedLeast ∧
    .number maxInt ∈ (boxedLeast.arith .div (.int (-1))).value ∧
    .number maxInt ∈ boxedLeast.negate.value := by
  have hwf : boxedLeast.WellFormedWithin lengths := ⟨rfl, trivial⟩
  have hleast : .number minInt ∈ boxedLeast := .inr ⟨by simp, minInt, by decide, rfl⟩
  have hone : .number (-1) ∈ Value.int (-1) := ⟨-1, by decide, rfl⟩
  obtain ⟨⟨r, hr, hresult⟩, -, hnegate⟩ := arithmetic_stands_for_results_on_numbers .div hwf
    (b := .int (-1)) trivial hleast hone (by simp)
  cases hr
  refine ⟨hwf, hleast, ?_, hnegate⟩
  rcases hresult with ⟨-, -, j, hj, hzero⟩ | ⟨-, hquotient⟩
  · cases hj
    exact absurd hzero (by decide)
  · exact hquotient

end ValueFlow
