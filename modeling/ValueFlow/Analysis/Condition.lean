import ValueFlow.Analysis.Expr

namespace ValueFlow

def State.narrowLength (s : State) (d : DeclId) (range : Interval) : State :=
  match (s.get d).length? with
  | some l =>
    let v := (s.get d).withLength (l.meet range)
    if v.isEmpty then s.kill else s.set d v
  | none => s

namespace Context

variable (ctx : Context)

/-- Binds what a comparison leaves of an operand: of a variable, or of the length of one. -/
def narrow (operand : NodeId) (v : Value) (s : State) : State :=
  if s.unreachable then s
  else if v.isEmpty then s.kill
  else match ctx.tree.variableOf operand, ctx.tree.expr operand with
    | some d, _ => s.set d v
    | none, .ok (.length target) =>
      match ctx.tree.variableOf target, v.range? with
      | some d, some range => s.narrowLength d range
      | _, _ => s
    | none, _ => s

/-- The state in which `l rel r` holds. The left operand is only bound if the right one cannot
have written since. -/
def assume (rel : Relation) (lhs rhs : NodeId) (l r : Value) (s : State) : State :=
  ctx.narrow rhs (r.restrict rel.converse l)
    (if ctx.tree.mayWrite rhs then s else ctx.narrow lhs (l.restrict rel r) s)

def assumeBool (n : NodeId) (v : Value) (b : Bool) (s : State) : State :=
  match ctx.tree.variableOf n with
  | some d => s.set d (v.restrictEqual (.bool b))
  | none => s

end Context

namespace Evaluators

variable (below : Evaluators) (ctx : Context)

def comparison (n : NodeId) (rel : Relation) (lhs rhs : NodeId) (s : State) : Walk Branches := do
  let (l, s) ← below.expr lhs s
  let (r, s) ← below.expr rhs s
  let result ← (l.test rel r).settle n
  match result.flags? with
  | none => pure .dead
  | some (canBeTrue, canBeFalse) =>
    pure ⟨(ctx.assume rel lhs rhs l r s).killUnless canBeTrue,
      (ctx.assume rel.negation lhs rhs l r s).killUnless canBeFalse⟩

def truth (n : NodeId) (v : Value) (s : State) : Branches :=
  if v.isEmpty || s.unreachable then .dead
  else
    let (canBeTrue, canBeFalse) := v.flags?.getD (true, true)
    ⟨(ctx.assumeBool n v true s).killUnless canBeTrue,
      (ctx.assumeBool n v false s).killUnless canBeFalse⟩

def condOf (n : NodeId) (s : State) : Expr → Walk Branches
  | .compare rel l r => below.comparison ctx n rel l r s
  | .and l r => below.and ctx l r s
  | .or l r => below.or ctx l r s
  | .unary .not e => do
    let branches ← below.cond e s
    pure branches.swap
  | e => do
    let (v, s) ← below.exprOf ctx n s e
    pure (truth ctx n v s)

def condAt (n : NodeId) (s : State) : Walk Branches :=
  if s.unreachable then pure .dead
  else do below.condOf ctx n s (← Walk.require (ctx.tree.expr n))

end Evaluators

end ValueFlow
