import ValueFlow.Ty
import ValueFlow.Value.Arithmetic

namespace ValueFlow

/-- What becomes of numbers that do not fit: they stop at the nearest bound, or they may wrap
around to any number of the width. -/
inductive Overflow where
  | saturate | wrap
deriving DecidableEq

namespace Overflow

def fit (policy : Overflow) (i range : Interval) : Interval :=
  if range.includes i then i
  else match policy with
    | saturate => i.clampInto range
    | wrap => range

end Overflow

namespace Primitive

def convert (k : Primitive) (policy : Overflow) (v : Value) : Value :=
  match k with
  | boolean => v
  | float | double => .any
  | char =>
    match v.range? with
    | some i => .char (policy.fit i charCodes)
    | none => v
  | k =>
    match v.range?, k.range? with
    | some i, some range => .integer (policy.fit i range)
    | _, _ => v

end Primitive

namespace Ty

/-- Unboxes into a primitive, where null fails, and boxes into a wrapper. -/
def convert (ty : Ty) (policy : Overflow) (v : Value) : Outcome :=
  match ty, v with
  | _, .empty => .ok .empty
  | primitive _, .null => .nullOperand
  | primitive k, .boxed inner nullable =>
    ⟨k.convert policy inner, if nullable then some ⟨.nullDereference, false⟩ else none⟩
  | primitive k, v => .ok (k.convert policy v)
  | boxed k, .boxed inner nullable => .ok (.box (k.convert policy inner) nullable)
  | boxed k, v => .ok (if v.isPrimitive then .box (k.convert policy v) false else v)
  | _, v => .ok v

def coerce (ty : Ty) (v : Value) : Outcome := ty.convert .saturate v

def cast (ty : Ty) (v : Value) : Outcome := ty.convert .wrap v

end Ty

end ValueFlow
