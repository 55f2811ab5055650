import ValueFlow.Proofs.Conversion

namespace ValueFlow

/-- The number an operation answers, brought back into the 64-bit range. Dividing by zero has no
answer. -/
def Arith.eval? (op : Arith) (m n : Int) : Option Int :=
  match op with
  | add => some (saturate (m + n))
  | sub => some (saturate (m - n))
  | mul => some (saturate (m * n))
  | div => if n = 0 then none else some (saturate (m.tdiv n))
  | rem => if n = 0 then none else some (saturate (m.tmod n))

namespace Interval

variable {a b c : Interval} {m n r : Int}

theorem saturate_mem_saturated {lo hi x : Int} {h : lo ≤ hi} (hlo : lo ≤ x) (hhi : x ≤ hi) :
    saturate x ∈ saturated lo hi h := ⟨saturate_mono hlo, saturate_mono hhi⟩

theorem mem_add (hm : m ∈ a) (hn : n ∈ b) : saturate (m + n) ∈ a.add b := by
  rw [mem_def] at hm hn
  exact saturate_mem_saturated (by omega) (by omega)

theorem mem_sub (hm : m ∈ a) (hn : n ∈ b) : saturate (m - n) ∈ a.sub b := by
  rw [mem_def] at hm hn
  exact saturate_mem_saturated (by omega) (by omega)

theorem mem_neg (hm : m ∈ a) : saturate (-m) ∈ a.neg := by
  rw [mem_def] at hm
  exact saturate_mem_saturated (by omega) (by omega)

/-- `x` lies between `p` and `q`, in whichever order they stand. -/
def Between (p q x : Int) : Prop := (p ≤ x ∧ x ≤ q) ∨ (q ≤ x ∧ x ≤ p)

/-- A function that stays between its values at the ends, in each argument, stays between its
values at the corners. -/
theorem mem_ofCorners {f : Int → Int → Int} (hleft : Between (f a.lo n) (f a.hi n) (f m n))
    (hright : ∀ x, Between (f x b.lo) (f x b.hi) (f x n)) :
    saturate (f m n) ∈
      ofCorners (f a.lo b.lo) (f a.lo b.hi) (f a.hi b.lo) (f a.hi b.hi) := by
  have hlo := hright a.lo
  have hhi := hright a.hi
  unfold Between at hleft hlo hhi
  exact saturate_mem_saturated (by omega) (by omega)

theorem between_mul_right (n : Int) {lo hi : Int} (hlo : lo ≤ m) (hhi : m ≤ hi) :
    Between (lo * n) (hi * n) (m * n) := by
  rcases Int.le_total 0 n with h | h
  · exact .inl ⟨Int.mul_le_mul_of_nonneg_right hlo h, Int.mul_le_mul_of_nonneg_right hhi h⟩
  · exact .inr ⟨Int.mul_le_mul_of_nonpos_right hhi h, Int.mul_le_mul_of_nonpos_right hlo h⟩

theorem mem_mul (hm : m ∈ a) (hn : n ∈ b) : saturate (m * n) ∈ a.mul b := by
  refine mem_ofCorners (between_mul_right n hm.1 hm.2) fun x => ?_
  rw [Int.mul_comm x, Int.mul_comm x, Int.mul_comm x]
  exact between_mul_right x hn.1 hn.2

theorem between_neg {p q x : Int} (h : Between p q x) : Between (-p) (-q) (-x) := by
  unfold Between at h ⊢
  omega

theorem between_tdiv_left (hn : n ≠ 0) {lo hi : Int} (hlo : lo ≤ m) (hhi : m ≤ hi) :
    Between (lo.tdiv n) (hi.tdiv n) (m.tdiv n) := by
  have hpos : ∀ k : Int, 0 < k → Between (lo.tdiv k) (hi.tdiv k) (m.tdiv k) := fun k hk =>
    .inl ⟨Int.tdiv_le_tdiv hk hlo, Int.tdiv_le_tdiv hk hhi⟩
  rcases Int.lt_or_gt_of_ne hn with h | h
  · have hneg := between_neg (hpos (-n) (by omega))
    simpa only [Int.tdiv_neg, Int.neg_neg] using hneg
  · exact hpos n h

theorem tdiv_anti_right {k l : Int} (hm : 0 ≤ m) (hk : 0 < k) (hkl : k ≤ l) :
    m.tdiv l ≤ m.tdiv k := by
  rw [Int.tdiv_eq_ediv_of_nonneg hm, Int.tdiv_eq_ediv_of_nonneg hm]
  have hl : 0 < l := by omega
  have hquot : 0 ≤ m / l := Int.ediv_nonneg hm (by omega)
  apply Int.le_ediv_of_mul_le hk
  calc m / l * k ≤ m / l * l := Int.mul_le_mul_of_nonneg_left hkl hquot
    _ ≤ m := Int.ediv_mul_le m (by omega)

/-- Among divisors of one sign, the quotient stays between those by the extreme ones. -/
theorem between_tdiv_right (x : Int) {lo hi : Int} (hlo : lo ≤ n) (hhi : n ≤ hi)
    (hsign : 0 < lo ∨ hi < 0) : Between (x.tdiv lo) (x.tdiv hi) (x.tdiv n) := by
  have hpos : ∀ y lo' hi' n' : Int, 0 ≤ y → 0 < lo' → lo' ≤ n' → n' ≤ hi' →
      Between (y.tdiv lo') (y.tdiv hi') (y.tdiv n') := fun y lo' hi' n' hy h hl hh =>
    .inr ⟨tdiv_anti_right hy (by omega) hh, tdiv_anti_right hy h hl⟩
  have hdividend : ∀ lo' hi' n' : Int, 0 < lo' → lo' ≤ n' → n' ≤ hi' →
      Between (x.tdiv lo') (x.tdiv hi') (x.tdiv n') := by
    intro lo' hi' n' h hl hh
    rcases Int.le_total 0 x with hx | hx
    · exact hpos x lo' hi' n' hx h hl hh
    · have hneg := between_neg (hpos (-x) lo' hi' n' (by omega) h hl hh)
      simpa only [Int.neg_tdiv, Int.neg_neg] using hneg
  -- a negative divisor negates the quotient and swaps the extremes
  rcases hsign with h | h
  · exact hdividend lo hi n h hlo hhi
  · have hneg := between_neg (hdividend (-hi) (-lo) (-n) (by omega) (by omega) (by omega))
    simp only [Int.tdiv_neg, Int.neg_neg] at hneg
    exact hneg.symm

theorem mem_div? (hm : m ∈ a) (hn : n ∈ b) (h : a.div? b = some c) :
    saturate (m.tdiv n) ∈ c := by
  unfold div? at h
  split at h
  · cases h
  · rename_i hzero
    cases h
    rw [mem_def] at hzero hn
    refine mem_ofCorners (between_tdiv_left (by omega) hm.1 hm.2) fun x => ?_
    exact between_tdiv_right x hn.1 hn.2 (by omega)

theorem natAbs_tmod_le (hn : n ∈ b) (hzero : n ≠ 0) : (m.tmod n).natAbs ≤ remainderBound b := by
  rw [mem_def] at hn
  have hlt : (m.tmod n).natAbs < n.natAbs := by
    rw [Int.natAbs_tmod]
    exact Nat.mod_lt _ (by omega)
  unfold remainderBound
  omega

theorem tmod_between (m n : Int) : Between 0 m (m.tmod n) := by
  have habs : (m.tmod n).natAbs ≤ m.natAbs := by
    rw [Int.natAbs_tmod]
    exact Nat.mod_le _ _
  rcases Int.le_total 0 m with h | h
  · have hsign := Int.tmod_nonneg n h
    exact .inl (by omega)
  · have hsign := Int.tmod_nonneg n (Int.neg_nonneg_of_nonpos h)
    rw [Int.neg_tmod] at hsign
    exact .inr (by omega)

theorem mem_rem? (hm : m ∈ a) (hn : n ∈ b) (h : a.rem? b = some c) :
    saturate (m.tmod n) ∈ c := by
  unfold rem? at h
  split at h
  · cases h
  · rename_i hzero
    have hne : n ≠ 0 := fun h => hzero (h ▸ hn)
    have hbound := natAbs_tmod_le (m := m) hn hne
    have hsign := tmod_between m n
    rw [mem_def] at hm hn
    unfold Between at hsign
    split at h
    · -- two points: the remainder itself
      rename_i hpoints
      cases h
      simp only [isPoint, Bool.and_eq_true, beq_iff_eq] at hpoints
      have hma : m = a.lo := by omega
      have hnb : n = b.lo := by omega
      rw [hma, hnb]
      exact saturate_mem_saturated (Int.le_refl _) (Int.le_refl _)
    · cases h
      apply saturate_mem_saturated
      · split <;> omega
      · split <;> omega

end Interval

def Outcome.DividesByZero (o : Outcome) : Prop :=
  ∃ definite, o.fault = some ⟨.divisionByZero, definite⟩

namespace Value

variable {a b v : Value} {x : Concrete} {m n r : Int} {i j : Interval} {op : Arith}

theorem mem_of_range? (h : v.range? = some i) (hx : .number m ∈ v) : m ∈ i := by
  rcases range?_eq_some h with rfl | rfl
  · obtain ⟨k, hk, he⟩ := hx
    cases he
    exact hk
  · obtain ⟨k, hk, he⟩ := hx
    cases he
    exact hk

theorem number_mem_quotient {o : Option Interval} (h : ∀ i, o = some i → r ∈ i) :
    (quotient j o).DividesByZero ∨ .number r ∈ (quotient j o).value := by
  cases o with
  | none => exact .inl ⟨_, rfl⟩
  | some i => exact .inr ⟨r, h i rfl, rfl⟩

theorem mem_arithRanges (hr : op.eval? m n = some r) (hm : m ∈ i) (hn : n ∈ j) :
    (arithRanges op i j).DividesByZero ∨ .number r ∈ (arithRanges op i j).value := by
  cases op with
  | add =>
    cases hr
    exact .inr ⟨_, Interval.mem_add hm hn, rfl⟩
  | sub =>
    cases hr
    exact .inr ⟨_, Interval.mem_sub hm hn, rfl⟩
  | mul =>
    cases hr
    exact .inr ⟨_, Interval.mem_mul hm hn, rfl⟩
  | div =>
    obtain ⟨-, hr⟩ := Option.ite_none_left_eq_some.1 hr
    cases hr
    exact number_mem_quotient fun _ => Interval.mem_div? hm hn
  | rem =>
    obtain ⟨-, hr⟩ := Option.ite_none_left_eq_some.1 hr
    cases hr
    exact number_mem_quotient fun _ => Interval.mem_rem? hm hn

theorem mem_arithUnboxed (hr : op.eval? m n = some r) (ha : .number m ∈ a) (hb : .number n ∈ b) :
    (arithUnboxed op a b).DividesByZero ∨ .number r ∈ (arithUnboxed op a b).value := by
  unfold arithUnboxed
  split
  · rename_i i j hi hj
    exact mem_arithRanges hr (mem_of_range? hi ha) (mem_of_range? hj hb)
  · exact .inr trivial

theorem plain_of_number_mem (h : .number m ∈ v) :
    v.isEmpty = false ∧ v.isStr = false ∧ v.isNull = false := by
  cases v with
  | empty => exact h.elim
  | null => cases h
  | str l n => rcases h with ⟨-, h⟩ | ⟨_, _, -, h⟩ <;> cases h
  | _ => exact ⟨rfl, rfl, rfl⟩

theorem arithBoxed_of_numbers (op : Arith) (ha : .number m ∈ a) (hb : .number n ∈ b) :
    arithBoxed op a b = none := by
  obtain ⟨hae, has, han⟩ := plain_of_number_mem ha
  obtain ⟨hbe, hbs, hbn⟩ := plain_of_number_mem hb
  rw [arithBoxed_eq_none]
  simp [hae, has, han, hbe, hbs, hbn]

theorem number_mem_boxed {w : Bool} : .number m ∈ boxed v w ↔ .number m ∈ v := by
  simp [mem_boxed]

theorem number_mem_map_box {o : Outcome} (w : Bool) (h : o.DividesByZero ∨ .number r ∈ o.value) :
    (o.map (box · w)).DividesByZero ∨ .number r ∈ (o.map (box · w)).value := by
  rcases h with ⟨definite, h⟩ | h
  · exact .inl ⟨definite, h⟩
  · exact .inr (mem_box.2 (number_mem_boxed.2 h))

theorem mem_arithRight (hr : op.eval? m n = some r) (ha : .number m ∈ a) (hb : .number n ∈ b) :
    (arithRight op a b).DividesByZero ∨ .number r ∈ (arithRight op a b).value := by
  induction b with
  | boxed b w ih =>
    rw [arithRight, arithBoxed_of_numbers op ha hb]
    exact number_mem_map_box w (ih (number_mem_boxed.1 hb))
  | _ =>
    rw [arithRight, arithBoxed_of_numbers op ha hb]
    · exact mem_arithUnboxed hr ha hb
    · simp

/-- Arithmetic contains the result on any two numbers, unless it reports a division by zero. -/
theorem mem_arith (hr : op.eval? m n = some r) (ha : .number m ∈ a) (hb : .number n ∈ b) :
    (arith op a b).DividesByZero ∨ .number r ∈ (arith op a b).value := by
  induction a generalizing b with
  | boxed a w ih =>
    have hcontent := number_mem_boxed.1 ha
    cases b with
    | boxed b w' => exact number_mem_map_box _ (ih hcontent (number_mem_boxed.1 hb))
    | _ =>
      rw [arith, arithBoxed_of_numbers op ha hb]
      · exact number_mem_map_box _ (ih hcontent hb)
      · simp
  | _ =>
    rw [arith]
    · exact mem_arithRight hr ha hb
    · simp
    · simp

theorem mem_negate (h : .number m ∈ v) : .number (saturate (-m)) ∈ v.negate.value := by
  induction v with
  | integer i | char i =>
    obtain ⟨k, hk, he⟩ := h
    cases he
    exact ⟨_, Interval.mem_neg hk, rfl⟩
  | boxed v w ih => exact mem_box.2 (number_mem_boxed.2 (ih (number_mem_boxed.1 h)))
  | empty => exact h.elim
  | null => cases h
  | _ => trivial

theorem mem_promote (h : .number m ∈ v) : .number m ∈ v.promote.value := by
  induction v with
  | boxed v w ih => exact ih (number_mem_boxed.1 h)
  | null => cases h
  | _ => exact h

theorem mem_complement {c : Bool} (h : .bool c ∈ v) : .bool (!c) ∈ v.complement.value := by
  induction v with
  | boolean t f =>
    refine mem_ofFlags.2 ?_
    rcases h with ⟨ht, hc⟩ | ⟨hf, hc⟩
    · cases hc
      exact .inr ⟨ht, rfl⟩
    · cases hc
      exact .inl ⟨hf, rfl⟩
  | boxed v w ih =>
    rcases h with ⟨-, h⟩ | ⟨-, h⟩
    · cases h
    · exact mem_box.2 (.inr ⟨by simp, ih h⟩)
  | empty => exact h.elim
  | null => cases h
  | _ => trivial

end Value

end ValueFlow
