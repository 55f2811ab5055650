namespace ValueFlow

inductive Arith where
  | add | sub | mul | div | rem
deriving DecidableEq

def Arith.text : Arith → String
  | add => "+"
  | sub => "-"
  | mul => "*"
  | div => "/"
  | rem => "%"

inductive Relation where
  | lt | le | gt | ge | eq | ne
deriving DecidableEq

namespace Relation

/-- `x R y` fails exactly when `x R.negation y` holds. -/
def negation : Relation → Relation
  | lt => ge
  | le => gt
  | gt => le
  | ge => lt
  | eq => ne
  | ne => eq

/-- `x R y` is `y R.converse x`. -/
def converse : Relation → Relation
  | lt => gt
  | le => ge
  | gt => lt
  | ge => le
  | eq => eq
  | ne => ne

def isOrdering : Relation → Bool
  | eq | ne => false
  | _ => true

def text : Relation → String
  | lt => "<"
  | le => "<="
  | gt => ">"
  | ge => ">="
  | eq => "=="
  | ne => "!="

end Relation

inductive Unary where
  | neg | plus | not | preInc | preDec | postInc | postDec
deriving DecidableEq

def Unary.isIncrement : Unary → Bool
  | preInc | preDec | postInc | postDec => true
  | _ => false

end ValueFlow
