import ValueFlow.Interval.Basic

namespace ValueFlow.Interval

/-- The numbers of `a` above some number of `b`. -/
def greater (a b : Interval) : Option Interval :=
  if b.lo < maxInt then a.meet (atLeast (b.lo + 1)) else none

def greaterOrEqual (a b : Interval) : Option Interval := a.meet (atLeast b.lo)

def less (a b : Interval) : Option Interval :=
  if minInt < b.hi then a.meet (atMost (b.hi - 1)) else none

def lessOrEqual (a b : Interval) : Option Interval := a.meet (atMost b.hi)

/-- Drops an endpoint of `a` that is the only number of `b`. -/
def notEqual (a b : Interval) : Option Interval :=
  if b.isPoint then
    if hlo : b.lo = a.lo then
      if h : a.lo < a.hi then
        some ⟨a.lo + 1, a.hi, h, by have := a.minInt_le_lo; omega, a.hi_le_maxInt⟩
      else none
    else if hhi : b.lo = a.hi then
      some ⟨a.lo, a.hi - 1, by have := a.lo_le_hi; omega, a.minInt_le_lo,
        by have := a.hi_le_maxInt; omega⟩
    else some a
  else some a

end ValueFlow.Interval
