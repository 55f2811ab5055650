namespace ValueFlow

/-- The least signed 64-bit number, read as `-∞`. -/
def minInt : Int := -9223372036854775808

/-- The greatest signed 64-bit number, read as `+∞`. -/
def maxInt : Int := 9223372036854775807

/-- The number of the 64-bit range nearest to `x`. -/
def saturate (x : Int) : Int := max minInt (min maxInt x)

theorem minInt_le_saturate (x : Int) : minInt ≤ saturate x := by
  simp only [saturate, minInt, maxInt]; omega

theorem saturate_le_maxInt (x : Int) : saturate x ≤ maxInt := by
  simp only [saturate, minInt, maxInt]; omega

theorem saturate_mono {x y : Int} (h : x ≤ y) : saturate x ≤ saturate y := by
  simp only [saturate]; omega

theorem saturate_eq_self {x : Int} (hlo : minInt ≤ x) (hhi : x ≤ maxInt) : saturate x = x := by
  simp only [saturate]; omega

/-- The numbers from `lo` to `hi`, both included. An operation that could leave none of them
answers an `Option`. -/
structure Interval where
  lo : Int
  hi : Int
  lo_le_hi : lo ≤ hi
  minInt_le_lo : minInt ≤ lo
  hi_le_maxInt : hi ≤ maxInt
deriving DecidableEq

namespace Interval

@[ext] theorem ext {a b : Interval} (hlo : a.lo = b.lo) (hhi : a.hi = b.hi) : a = b := by
  cases a; cases b; simp_all

instance : Ord Interval := ⟨compareLex (compareOn lo) (compareOn hi)⟩

instance : Membership Int Interval := ⟨fun a x => a.lo ≤ x ∧ x ≤ a.hi⟩

theorem mem_def {x : Int} {a : Interval} : x ∈ a ↔ a.lo ≤ x ∧ x ≤ a.hi := Iff.rfl

instance (x : Int) (a : Interval) : Decidable (x ∈ a) :=
  inferInstanceAs (Decidable (a.lo ≤ x ∧ x ≤ a.hi))

def saturated (lo hi : Int) (h : lo ≤ hi) : Interval :=
  ⟨saturate lo, saturate hi, saturate_mono h, minInt_le_saturate lo, saturate_le_maxInt hi⟩

def ofBounds? (lo hi : Int) : Option Interval :=
  if h : lo ≤ hi then some (saturated lo hi h) else none

def full : Interval := saturated minInt maxInt (by decide)

def point (x : Int) : Interval := saturated x x (Int.le_refl x)

def atLeast (x : Int) : Interval :=
  ⟨saturate x, maxInt, saturate_le_maxInt x, minInt_le_saturate x, Int.le_refl _⟩

def atMost (x : Int) : Interval :=
  ⟨minInt, saturate x, minInt_le_saturate x, Int.le_refl _, saturate_le_maxInt x⟩

def isPoint (a : Interval) : Bool := a.lo == a.hi

def asPoint (a : Interval) : Option Int := if a.isPoint then some a.lo else none

def contains (a : Interval) (x : Int) : Bool := decide (x ∈ a)

def includes (a b : Interval) : Bool := decide (a.lo ≤ b.lo) && decide (b.hi ≤ a.hi)

def disjoint (a b : Interval) : Bool := decide (a.hi < b.lo) || decide (b.hi < a.lo)

def hull (a b : Interval) : Interval where
  lo := min a.lo b.lo
  hi := max a.hi b.hi
  lo_le_hi := by have := a.lo_le_hi; omega
  minInt_le_lo := by have := a.minInt_le_lo; have := b.minInt_le_lo; omega
  hi_le_maxInt := by have := a.hi_le_maxInt; have := b.hi_le_maxInt; omega

def meet (a b : Interval) : Option Interval :=
  if h : max a.lo b.lo ≤ min a.hi b.hi then
    some ⟨max a.lo b.lo, min a.hi b.hi, h,
      by have := a.minInt_le_lo; omega, by have := a.hi_le_maxInt; omega⟩
  else none

/-- Keeps each bound that `next` respects and sends the other to infinity. -/
def widen (a next : Interval) : Interval where
  lo := if next.lo < a.lo then minInt else a.lo
  hi := if a.hi < next.hi then maxInt else a.hi
  lo_le_hi := by
    have := a.lo_le_hi; have := a.minInt_le_lo; have := a.hi_le_maxInt
    split <;> split <;> omega
  minInt_le_lo := by have := a.minInt_le_lo; split <;> omega
  hi_le_maxInt := by have := a.hi_le_maxInt; split <;> omega

/-- Moves each bound of `a` to the nearest number of `range`. -/
def clampInto (a range : Interval) : Interval where
  lo := max range.lo (min range.hi a.lo)
  hi := max range.lo (min range.hi a.hi)
  lo_le_hi := by have := a.lo_le_hi; omega
  minInt_le_lo := by have := range.minInt_le_lo; omega
  hi_le_maxInt := by have := range.hi_le_maxInt; have := range.lo_le_hi; omega

def boundText (x : Int) : String :=
  if x = minInt then "-∞" else if x = maxInt then "+∞" else toString x

def text (a : Interval) : String := "[" ++ boundText a.lo ++ ", " ++ boundText a.hi ++ "]"

end Interval

end ValueFlow
