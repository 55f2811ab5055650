import ValueFlow.Interval.Arithmetic
import ValueFlow.Operator
import ValueFlow.Value.Basic

namespace ValueFlow

inductive FaultKind where
  | nullDereference | divisionByZero
deriving DecidableEq

/-- A `definite` fault is raised by every choice of operands. -/
structure Fault where
  kind : FaultKind
  definite : Bool
deriving DecidableEq

structure Outcome where
  value : Value
  fault : Option Fault
deriving DecidableEq

namespace Outcome

def ok (v : Value) : Outcome := ⟨v, none⟩

def nullOperand : Outcome := ⟨.empty, some ⟨.nullDereference, true⟩⟩

def map (f : Value → Value) (o : Outcome) : Outcome := ⟨f o.value, o.fault⟩

end Outcome

namespace Value

def printedLength : Value → Interval
  | str l true => l.hull (.point 4)
  | str l false => l
  | null => .point 4
  | char _ => .point 1
  | boolean .. => .saturated 4 5 (by decide)
  | integer _ => .saturated 1 20 (by decide)
  | _ => lengths

/-- Lengths add up; a sum beyond every length may be any length. -/
def concat (a b : Value) : Value :=
  str (((a.printedLength.add b.printedLength).meet lengths).getD lengths) false

def isStr : Value → Bool
  | str .. => true
  | _ => false

def quotient (b : Interval) (result : Option Interval) : Outcome :=
  match result with
  | some i => .ok (integer i)
  | none => ⟨empty, some ⟨.divisionByZero, b.asPoint == some 0⟩⟩

def arithRanges (op : Arith) (a b : Interval) : Outcome :=
  match op with
  | .add => .ok (integer (a.add b))
  | .sub => .ok (integer (a.sub b))
  | .mul => .ok (integer (a.mul b))
  | .div => quotient b (a.div? b)
  | .rem => quotient b (a.rem? b)

/-- The rules that settle an operation before any operand is unboxed: nothing comes of nothing,
a string is concatenated with whatever is added to it, and null is no operand. -/
def arithBoxed (op : Arith) (a b : Value) : Option Outcome :=
  if a.isEmpty || b.isEmpty then some (.ok empty)
  else if op = .add && (a.isStr || b.isStr) then some (.ok (concat a b))
  else if a.isNull || b.isNull then some .nullOperand
  else none

def arithUnboxed (op : Arith) (a b : Value) : Outcome :=
  match a.range?, b.range? with
  | some i, some j => arithRanges op i j
  | _, _ => .ok any

/-- `arith` for a left operand that is no wrapper. -/
def arithRight (op : Arith) (a : Value) : Value → Outcome
  | boxed b m => (arithBoxed op a (boxed b m)).getD ((arithRight op a b).map (box · m))
  | b => (arithBoxed op a b).getD (arithUnboxed op a b)

/-- `a op b`; the result of a wrapper is wrapped again. -/
def arith (op : Arith) : Value → Value → Outcome
  | boxed a n, boxed b m => (arith op a b).map (box · (n || m))
  | boxed a n, b => (arithBoxed op (boxed a n) b).getD ((arith op a b).map (box · n))
  | a, b => arithRight op a b

def negate : Value → Outcome
  | empty => .ok empty
  | null => .nullOperand
  | integer i | char i => .ok (integer i.neg)
  | boxed v n => v.negate.map (box · n)
  | _ => .ok any

def promote : Value → Outcome
  | null => .nullOperand
  | boxed v _ => v.promote
  | char i => .ok (integer i)
  | v => .ok v

def complement : Value → Outcome
  | empty => .ok empty
  | null => .nullOperand
  | boolean t f => .ok (ofFlags f t)
  | boxed v n => v.complement.map (box · n)
  | _ => .ok any

end Value

end ValueFlow
