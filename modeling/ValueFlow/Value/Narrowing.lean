import ValueFlow.Interval.Narrowing
import ValueFlow.Value.Arithmetic
import ValueFlow.Value.Lattice

namespace ValueFlow.Value

def narrowRange (narrow : Interval → Interval → Option Interval) (a b : Value) : Value :=
  match a, b.range? with
  | integer i, some j => integerOf (narrow i j)
  | char i, some j => charOf (narrow i j)
  | a, _ => a

def restrictOrderedRight (narrow : Interval → Interval → Option Interval) (a : Value) :
    Value → Value
  | boxed b _ => if a.isEmpty || a.isNull then empty else restrictOrderedRight narrow a b
  | b => if a.isEmpty || a.isNull || b.isEmpty || b.isNull then empty else narrowRange narrow a b

/-- Ordering null fails, so nothing is left of it; a wrapper that was unboxed is not null. -/
def restrictOrdered (narrow : Interval → Interval → Option Interval) : Value → Value → Value
  | boxed a _, b =>
    if b.isEmpty || b.isNull then empty else box (restrictOrdered narrow a b) false
  | a, b => restrictOrderedRight narrow a b

def restrictEqualNull (a b : Value) : Option Value :=
  if a.isEmpty || b.isEmpty then some empty
  else if b.isNull then some (onlyNull a.mayBeNull)
  else if a.isNull then some (onlyNull b.mayBeNull)
  else none

def restrictEqualFlat (a b : Value) : Value :=
  match a, b.range? with
  | integer i, some j => integerOf (i.meet j)
  | char i, some j => charOf (i.meet j)
  | _, _ => if (a.intersect b).isAny then a else a.intersect b

def restrictEqualPrimitive (p : Value) : Value → Value
  | boxed b _ => restrictEqualPrimitive p b
  | b => (restrictEqualNull p b).getD (restrictEqualFlat p b)

def restrictEqual : Value → Value → Value
  | boxed a n, b =>
    if b.isPrimitive then box (restrictEqual a b) false
    else (restrictEqualNull (boxed a n) b).getD (restrictEqualFlat (boxed a n) b)
  | a, b =>
    if a.isPrimitive then restrictEqualPrimitive a b
    else (restrictEqualNull a b).getD (restrictEqualFlat a b)

def restrictNotEqualNull (a b : Value) : Option Value :=
  if a.isEmpty || b.isEmpty then some empty
  else if b.isNull then some (a.withNullable false)
  else if a.isNull then some null
  else none

def restrictNotEqualFlat (a b : Value) : Value :=
  match a with
  | boolean t f =>
    match b.flags? with
    | some (true, false) => ofFlags false f
    | some (false, true) => ofFlags t false
    | _ => a
  | _ => narrowRange Interval.notEqual a b

def restrictNotEqualPrimitive (p : Value) : Value → Value
  | boxed b m =>
    match p with
    | boolean .. => restrictNotEqualFlat p (boxed b m)
    | _ => restrictNotEqualPrimitive p b
  | b => (restrictNotEqualNull p b).getD (restrictNotEqualFlat p b)

def restrictNotEqual : Value → Value → Value
  | boxed a n, b =>
    if b.isPrimitive then box (restrictNotEqual a b) false
    else (restrictNotEqualNull (boxed a n) b).getD (boxed a n)
  | a, b =>
    if a.isPrimitive then restrictNotEqualPrimitive a b
    else (restrictNotEqualNull a b).getD a

/-- What is left of `a` if `a rel b`; a pair that no rule covers leaves it as it is. -/
def restrict (rel : Relation) (a b : Value) : Value :=
  match rel with
  | .lt => restrictOrdered Interval.less a b
  | .le => restrictOrdered Interval.lessOrEqual a b
  | .gt => restrictOrdered Interval.greater a b
  | .ge => restrictOrdered Interval.greaterOrEqual a b
  | .eq => restrictEqual a b
  | .ne => restrictNotEqual a b

/-- The boolean `a rel b`: an outcome is possible if something is left of `a` on that side. -/
def test (rel : Relation) (a b : Value) : Outcome :=
  if a.isEmpty || b.isEmpty then .ok empty
  else if rel.isOrdering && (a.isNull || b.isNull) then .nullOperand
  else .ok (ofFlags (!(a.restrict rel b).isEmpty) (!(a.restrict rel.negation b).isEmpty))

end ValueFlow.Value
