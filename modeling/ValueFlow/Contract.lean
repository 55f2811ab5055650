import ValueFlow.Ty

namespace ValueFlow

inductive Contract where
  | notNull
  | nullable
  | min (bound : Int)
  | max (bound : Int)
  | positive
  | positiveOrZero
  | negative
  | negativeOrZero
  | size (least most : Int)
  | notEmpty
deriving DecidableEq

namespace Contract

def rank : Contract → Nat
  | notNull => 0
  | nullable => 1
  | min _ => 2
  | max _ => 3
  | positive => 4
  | positiveOrZero => 5
  | negative => 6
  | negativeOrZero => 7
  | size .. => 8
  | notEmpty => 9

def bounds : Contract → Int × Int
  | min n | max n => (n, 0)
  | size least most => (least, most)
  | _ => (0, 0)

instance : Ord Contract :=
  ⟨compareLex (compareOn rank) (compareLex (compareOn (·.bounds.1)) (compareOn (·.bounds.2)))⟩

def range? : Contract → Option Interval
  | min n => some (.atLeast n)
  | max n => some (.atMost n)
  | positive => some (.atLeast 1)
  | positiveOrZero => some (.atLeast 0)
  | negative => some (.atMost (-1))
  | negativeOrZero => some (.atMost 0)
  | _ => none

/-- The lengths a size contract admits; a `size` that is inverted admits its lower bound. -/
def length? : Contract → Option Interval
  | size least most => some (.saturated least (Max.max most least) (by omega))
  | notEmpty => some (.atLeast 1)
  | _ => none

def forbidsNull : Contract → Bool
  | notNull | notEmpty => true
  | _ => false

def text : Contract → String
  | notNull => "@NotNull"
  | nullable => "@Nullable"
  | min n => "@Min(" ++ toString n ++ ")"
  | max n => "@Max(" ++ toString n ++ ")"
  | positive => "@Positive"
  | positiveOrZero => "@PositiveOrZero"
  | negative => "@Negative"
  | negativeOrZero => "@NegativeOrZero"
  | size least most => "@Size(min = " ++ toString least ++ ", max = " ++ toString most ++ ")"
  | notEmpty => "@NotEmpty"

end Contract

namespace Value

def withinRange (range : Interval) : Value → Value
  | integer i => integerOf (i.meet range)
  | char i => charOf (i.meet range)
  | boxed v n => box (withinRange range v) n
  | v => v

def withinLength (range : Interval) (v : Value) : Value :=
  match v.length? with
  | some l => v.withLength (l.meet range)
  | none => v

end Value

namespace Contract

def narrow (c : Contract) (v : Value) : Value :=
  match c.range?, c.length? with
  | some range, _ => v.withinRange range
  | none, some range => (if c.forbidsNull then v.withNullable false else v).withinLength range
  | none, none => if c.forbidsNull then v.withNullable false else v

/-- Whether `actual` leaves `allowed` entirely (`true`) or in part (`false`). -/
def outside? (actual allowed : Interval) : Option Bool :=
  if actual.disjoint allowed then some true
  else if allowed.includes actual then none
  else some false

/-- Whether a length outside `allowed`, or null, breaks `notEmpty`. -/
def emptiness? (v : Value) (allowed : Interval) : Option Bool :=
  if v.isNull then some true
  else v.length?.bind fun l =>
    match outside? l allowed with
    | none => if v.mayBeNull then some false else none
    | breach => breach

/-- Whether the value breaks the contract, and then whether all of it does. Nothing is held
against `any` and `empty`. -/
def breach? (c : Contract) (v : Value) : Option Bool :=
  if v.isEmpty || v.isAny then none
  else match c with
    | notNull => if v.isNull then some true else if v.mayBeNull then some false else none
    | notEmpty => emptiness? v (.atLeast 1)
    | c =>
      match c.range?, c.length? with
      | some range, _ =>
        (match v with
          | .boxed inner _ => inner.range?
          | v => v.range?).bind (outside? · range)
      | none, some range => v.length?.bind (outside? · range)
      | none, none => none

end Contract

structure Violation where
  contract : Contract
  definite : Bool
deriving DecidableEq

def Value.violations (v : Value) (contracts : List Contract) : List Violation :=
  contracts.filterMap fun c => (c.breach? v).map fun definite => ⟨c, definite⟩

def Ty.initialValue (ty : Ty) (contracts : List Contract) : Value :=
  contracts.foldl (fun v c => c.narrow v) ty.anyValue

end ValueFlow
