import ValueFlow.Analysis.Condition

namespace ValueFlow

structure Pass where
  back : State
  exit : State
deriving DecidableEq

/-- Widened bounds of a primitive or a wrapper fall back into its declared width. -/
def Tree.fitDeclared (t : Tree) (d : DeclId) (v : Value) : Value :=
  match (t.decl d).map Decl.ty with
  | .ok (.primitive k) => ((Ty.primitive k).coerce v).value
  | .ok (.boxed k) => ((Ty.boxed k).coerce v).value
  | _ => v

def Tree.fitState (t : Tree) (s : State) : State :=
  if s.unreachable then s else { s with values := s.values.map t.fitDeclared }

namespace Context

variable (ctx : Context)

def advance (iteration : Nat) (head back : State) : State :=
  if ctx.settings.wideningThreshold ≤ iteration then ctx.tree.fitState (head.widen back)
  else head.merge back

/-- The iteration from which on changes are given up. -/
def patience : Nat := max 1 ctx.settings.maxIterations

/-- Enough passes for any loop: after `patience` runs out, each pass that is not the last gives up
on one more variable, and those are tracked at the entry or named in the tree. -/
def passBound (entry : State) : Nat := ctx.patience + ctx.tree.size + entry.size

/-- Repeats `pass` from `head` until it settles; answers the head and the iterations it took. -/
def solve (n : NodeId) (pass : State → Walk Pass) :
    (bound iteration : Nat) → (head : State) → Walk (State × Nat)
  | 0, _, _ => throw .exhausted
  | bound + 1, iteration, head => do
    let p ← pass head
    let next := ctx.advance iteration head p.back
    if next = head then pure (head, iteration)
    else if iteration + 1 < ctx.patience then solve n pass bound (iteration + 1) next
    else
      if iteration + 1 = ctx.patience then
        Walk.note (.gaveUp n (iteration + 1) (next.changes head))
      solve n pass bound (iteration + 1) (next.giveUp head)

def loop (n : NodeId) (pass : State → Walk Pass) (entry : State) : Walk State := do
  let (head, iterations) ← Walk.muted (ctx.solve n pass (ctx.passBound entry) 0 entry)
  Walk.note (.stabilized n iterations)
  -- only this last pass from the settled head reports
  let p ← pass head
  pure p.exit

end Context

namespace Evaluators

variable (below : Evaluators)

def whilePass (cond body : NodeId) (head : State) : Walk Pass := do
  let branches ← below.cond cond head
  let (out, frame) ← Walk.framed .loop (below.stmt body branches.whenTrue)
  pure ⟨out.merge frame.continues, branches.whenFalse.merge frame.breaks⟩

def doPass (body cond : NodeId) (head : State) : Walk Pass := do
  let (out, frame) ← Walk.framed .loop (below.stmt body head)
  let branches ← below.cond cond (out.merge frame.continues)
  pure ⟨branches.whenTrue, branches.whenFalse.merge frame.breaks⟩

def optionalCond (cond : Option NodeId) (s : State) : Walk Branches :=
  match cond with
  | some cond => below.cond cond s
  -- a missing condition always holds
  | none => pure ⟨s, .dead⟩

def forPass (cond : Option NodeId) (update : List NodeId) (body : NodeId) (head : State) :
    Walk Pass := do
  let branches ← below.optionalCond cond head
  let (out, frame) ← Walk.framed .loop (below.stmt body branches.whenTrue)
  let (_, back) ← below.all update (out.merge frame.continues)
  pure ⟨back, branches.whenFalse.merge frame.breaks⟩

end Evaluators

end ValueFlow
