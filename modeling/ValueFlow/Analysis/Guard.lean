import ValueFlow.Analysis.Session

namespace ValueFlow

/-- Both operands hold, the right one judged from `left`. What the right operand writes replaces
what was known; otherwise both sides refine each other. -/
def Tree.conjoin (t : Tree) (rhs : NodeId) (left right : State) : State :=
  if left.unreachable || right.unreachable then .dead
  else if t.mayWrite rhs then right
  else left.intersect right

namespace Evaluators

variable (below : Evaluators) (ctx : Context)

def and (lhs rhs : NodeId) (s : State) : Walk Branches := do
  let left ← below.cond lhs s
  -- the right operand only sees the states that the left one lets through
  let right ← below.cond rhs left.whenTrue
  pure ⟨ctx.tree.conjoin rhs left.whenTrue right.whenTrue, left.whenFalse.merge right.whenFalse⟩

def or (lhs rhs : NodeId) (s : State) : Walk Branches := do
  let left ← below.cond lhs s
  let right ← below.cond rhs left.whenFalse
  pure ⟨left.whenTrue.merge right.whenTrue, ctx.tree.conjoin rhs left.whenFalse right.whenFalse⟩

end Evaluators

end ValueFlow
