import ValueFlow.Analysis.Guard

namespace ValueFlow

namespace Branches

def on (B : Branches) (b : Bool) : State := if b then B.whenTrue else B.whenFalse

/-- The branches with these states for the outcome `b` and for the other one. -/
def ofOutcome (b : Bool) (S other : State) : Branches := if b then ⟨S, other⟩ else ⟨other, S⟩

variable {P : State → Prop} {B : Branches} {b : Bool} {S other : State}

theorem on_swap (B : Branches) (b : Bool) : B.swap.on b = B.on !b := by
  cases b <;> rfl

theorem on_ofOutcome : (ofOutcome b S other).on b = S := by
  cases b <;> rfl

theorem on_ofOutcome_not : (ofOutcome b S other).on (!b) = other := by
  cases b <;> rfl

theorem forall_on : (∀ b, P (B.on b)) ↔ P B.whenTrue ∧ P B.whenFalse :=
  Bool.forall_bool.trans and_comm

theorem both_ofOutcome (h : P S) (hother : P other) :
    P (ofOutcome b S other).whenTrue ∧ P (ofOutcome b S other).whenFalse := by
  cases b
  · exact ⟨hother, h⟩
  · exact ⟨h, hother⟩

end Branches

/-- The right operand is judged on the branch `b` of the left one, and both meet there. By
definition this is `&&` for `true` and `||` for `false`. -/
def Evaluators.shortCircuit (below : Evaluators) (ctx : Context) (b : Bool) (l r : NodeId)
    (s : State) : Walk Branches := do
  let left ← below.cond l s
  let right ← below.cond r (left.on b)
  pure (.ofOutcome b (ctx.tree.conjoin r (left.on b) (right.on b))
    ((left.on !b).merge (right.on !b)))

end ValueFlow
