import Mathlib.Data.Nat.Digits.Defs
import ValueFlow.Proofs.Fault

namespace ValueFlow

/-- The number of characters that a value is printed with, where the value alone decides it. -/
def Concrete.printedLength? : Concrete → Option Nat
  | number n => some (toString n).length
  | bool b => some (toString b).length
  | str _ k => some k
  | null => some "null".length
  | array .. | object _ => none

namespace Value

variable {a b v : Value} {x y : Concrete} {p q : Nat}

/-- Whether a value that `v` stands for may be printed with `p` characters. A character is printed
as itself and not as its code. A wrapper, an array, another object and what is not known may be
printed as any string. -/
def Prints (v : Value) (x : Concrete) (p : Nat) : Prop :=
  match v with
  | char _ => p = 1
  | integer _ | boolean .. | str .. | null => x.printedLength? = some p
  | _ => p ≤ 2147483647

theorem length_toString_of_fits {n : Int} (hlo : minInt ≤ n) (hhi : n ≤ maxInt) :
    1 ≤ (toString n).length ∧ (toString n).length ≤ 20 := by
  have hpos : ∀ m : Nat, 0 < m.repr.length := fun m => by
    simpa [Nat.repr] using Nat.length_toDigits_pos (b := 10) (n := m)
  have hle : ∀ m : Nat, m < 10 ^ 19 → m.repr.length ≤ 19 := fun m => Nat.repr_length m 19 (by omega)
  simp only [minInt, maxInt] at hlo hhi
  cases n with
  | ofNat m =>
    rw [Int.ofNat_eq_natCast] at hhi
    have hm := hle m (by omega)
    exact ⟨hpos m, Nat.le_trans hm (by omega)⟩
  | negSucc m =>
    have hm := hle (m + 1) (by omega)
    have hlength : (toString (Int.negSucc m)).length = 1 + (m + 1).repr.length :=
      String.length_append "-" _
    omega

/-- Every printed form has a length that the concatenation reckons with. -/
theorem mem_printedLength_of_prints (hx : x ∈ v) (hp : v.Prints x p) :
    (p : Int) ∈ v.printedLength := by
  have hnull : ∀ {x : Concrete}, x = .null → x.printedLength? = some p → (p : Int) = 4 := by
    rintro x rfl hlength
    cases hlength
    rfl
  have hrest : p ≤ 2147483647 → (p : Int) ∈ lengths := fun hle => mem_lengths ⟨p, by omega⟩
  cases v with
  | integer i =>
    obtain ⟨n, hn, rfl⟩ := hx
    cases hp
    have hlength := length_toString_of_fits (Int.le_trans i.minInt_le_lo hn.1)
      (Int.le_trans hn.2 i.hi_le_maxInt)
    exact ⟨Int.ofNat_le.2 hlength.1, Int.ofNat_le.2 hlength.2⟩
  | char i =>
    cases hp
    exact ⟨Int.le_refl _, Int.le_refl _⟩
  | boolean t f =>
    show (p : Int) ∈ Interval.saturated 4 5 (by decide)
    rcases hx with ⟨-, rfl⟩ | ⟨-, rfl⟩
    · cases hp
      decide
    · cases hp
      decide
  | str l n =>
    rcases hx with ⟨rfl, hx⟩ | ⟨id, k, hk, rfl⟩
    · rw [hnull hx hp]
      exact Interval.mem_hull_right (by decide)
    · cases hp
      cases n with
      | true => exact Interval.mem_hull_left hk
      | false => exact hk
  | null =>
    show (p : Int) ∈ Interval.point 4
    rw [hnull hx hp]
    decide
  | empty => exact hx.elim
  | any | array l n | boxed w n | object n => exact hrest hp

theorem add_mem_length_concat (hp : (p : Int) ∈ a.printedLength) (hq : (q : Int) ∈ b.printedLength)
    (hsum : p + q ≤ 2147483647) :
    ((p + q : Nat) : Int) ∈ ((a.printedLength.add b.printedLength).meet lengths).getD lengths := by
  have hadd := Interval.mem_add hp hq
  rw [saturate_eq_self (by simp only [minInt]; omega) (by simp only [maxInt]; omega),
    ← Int.natCast_add] at hadd
  have hlength : ((p + q : Nat) : Int) ∈ lengths := mem_lengths ⟨p + q, by omega⟩
  obtain ⟨c, hc, hmem⟩ := Interval.meet_isSome_of_mem hadd hlength
  rw [hc]
  exact hmem

theorem arith_add_of_isStr (ha : a ≠ empty) (hb : b ≠ empty)
    (hstr : a.isStr = true ∨ b.isStr = true) : a.arith .add b = .ok (concat a b) := by
  have hempty : ∀ {v : Value}, v ≠ empty → v.isEmpty = false := by
    intro v hv
    cases v <;> first | rfl | exact absurd rfl hv
  apply arith_of_some
  simp [arithBoxed, hempty ha, hempty hb, hstr]

end Value

/-- Adding to a string, or a string to anything, is a concatenation: it raises no fault and gives a
string that is not null, and the string may be as long as the printed operands are together,
whatever they are, unless no string is that long. -/
theorem concatenation_allows_printed_lengths {a b : Value} (ha : a ≠ .empty) (hb : b ≠ .empty)
    (hstr : a.isStr = true ∨ b.isStr = true) :
    ∃ l, a.arith .add b = .ok (.str l false) ∧ lengths.includes l = true ∧
      ∀ x ∈ a, ∀ y ∈ b, ∀ p q, a.Prints x p → b.Prints y q → p + q ≤ 2147483647 →
        ((p + q : Nat) : Int) ∈ l := by
  refine ⟨_, Value.arith_add_of_isStr ha hb hstr, Interval.includes_getD_meet, ?_⟩
  intro x hx y hy p q hp hq hsum
  exact Value.add_mem_length_concat (Value.mem_printedLength_of_prints hx hp)
    (Value.mem_printedLength_of_prints hy hq) hsum

theorem shortText_with_least : shortText ≠ .empty ∧ Value.integer .full ≠ .empty ∧
    shortText.isStr = true ∧
    ∃ l, shortText.arith .add (.integer .full) = .ok (.str l false) ∧ 24 ∈ l := by
  have hshort : shortText ≠ .empty := by decide
  have hany : Value.integer .full ≠ .empty := by simp
  obtain ⟨l, hadd, -, hmem⟩ := concatenation_allows_printed_lengths hshort hany (.inl rfl)
  refine ⟨hshort, hany, rfl, l, hadd, ?_⟩
  exact hmem .null (.inl ⟨rfl, rfl⟩) (.number minInt) ⟨minInt, by decide, rfl⟩ 4 20 rfl
    (by decide +kernel : (Concrete.number minInt).printedLength? = some 20) (by decide)

end ValueFlow
