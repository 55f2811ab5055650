import ValueFlow.Interval.Basic

namespace ValueFlow.Interval

def add (a b : Interval) : Interval :=
  saturated (a.lo + b.lo) (a.hi + b.hi) (by have := a.lo_le_hi; have := b.lo_le_hi; omega)

def sub (a b : Interval) : Interval :=
  saturated (a.lo - b.hi) (a.hi - b.lo) (by have := a.lo_le_hi; have := b.lo_le_hi; omega)

def neg (a : Interval) : Interval :=
  saturated (-a.hi) (-a.lo) (by have := a.lo_le_hi; omega)

def ofCorners (p q r s : Int) : Interval :=
  saturated (min (min p q) (min r s)) (max (max p q) (max r s)) (by omega)

def mul (a b : Interval) : Interval :=
  ofCorners (a.lo * b.lo) (a.lo * b.hi) (a.hi * b.lo) (a.hi * b.hi)

/-- Quotients truncate toward zero; dividing by an interval around zero has no answer. -/
def div? (a b : Interval) : Option Interval :=
  if 0 ∈ b then none
  else some (ofCorners (a.lo.tdiv b.lo) (a.lo.tdiv b.hi) (a.hi.tdiv b.lo) (a.hi.tdiv b.hi))

def remainderBound (b : Interval) : Nat := max b.lo.natAbs b.hi.natAbs - 1

/-- The remainder of two points is exact; otherwise it has the sign of the dividend and is smaller
in magnitude than the dividend's and the divisor's farthest bound. -/
def rem? (a b : Interval) : Option Interval :=
  if 0 ∈ b then none
  else if a.isPoint && b.isPoint then some (point (a.lo.tmod b.lo))
  else
    some (saturated (if a.lo < 0 then max a.lo (-remainderBound b) else 0)
      (if 0 < a.hi then min a.hi (remainderBound b) else 0) (by split <;> split <;> omega))

end ValueFlow.Interval
