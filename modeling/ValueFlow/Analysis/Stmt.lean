import ValueFlow.Analysis.Loop

namespace ValueFlow

/-- The state with the selector bound to `v`, if it is a variable; unreachable if nothing is
left. -/
def State.select (s : State) (var? : Option DeclId) (v : Value) : State :=
  if v.isEmpty then s.kill
  else match var? with
    | some d => s.set d v
    | none => s

structure Selector where
  state : State
  value : Value
  var? : Option DeclId

namespace Selector

def matching (sel : Selector) (label : Literal) : State :=
  sel.state.select sel.var? (sel.value.restrictEqual label.value)

/-- The state in which the body of a case is entered, by falling through or by a match. -/
def entry (sel : Selector) (case : Case) (fallthrough : State) : State :=
  case.labels.foldl (fun s label => s.merge (sel.matching label))
    (if case.isDefault then fallthrough.merge sel.state else fallthrough)

def unmatched (sel : Selector) (cases : List Case) : State :=
  sel.state.select sel.var?
    ((cases.flatMap (·.labels)).foldl (fun v label => v.restrictNotEqual label.value) sel.value)

end Selector

namespace Evaluators

variable (below : Evaluators) (ctx : Context)

/-- Walks statements in sequence and remarks on the first unreachable one. -/
def seq : List NodeId → State → Walk State
  | [], s => pure s
  | n :: rest, s =>
    if s.unreachable then do
      let stmt ← Walk.require (ctx.tree.stmt n)
      if stmt.isTrivial then seq rest s
      else
        Walk.report n (ctx.deadFindings stmt)
        pure s
    else do
      let s ← below.stmt n s
      seq rest s

def declare (d : DeclId) (init : Option NodeId) (s : State) : Walk State := do
  let decl ← Walk.require (ctx.tree.decl d)
  match init with
  | none => pure (s.set d decl.ty.anyValue)
  | some e =>
    let (v, s) ← below.expr e s
    let v ← ctx.convert e decl.ty v
    pure (s.set d v)

def branch (cond whenTrue : NodeId) (whenFalse : Option NodeId) (s : State) : Walk State := do
  let branches ← below.cond cond s
  let out ← below.stmt whenTrue branches.whenTrue
  match whenFalse with
  | none => pure (out.merge branches.whenFalse)
  | some n =>
    let other ← below.stmt n branches.whenFalse
    pure (out.merge other)

def ret (n : NodeId) (value : Option NodeId) (s : State) : Walk State :=
  match value with
  | none => do
    Walk.returning s
    pure .dead
  | some e => do
    let (v, s) ← below.expr e s
    let v ← match ctx.returnType with
      | some ty => ctx.convert e ty v
      | none => pure v
    Walk.report n (v.contractFindings ctx.returnContracts "returned value")
    Walk.returning s
    pure .dead

def throw (n value : NodeId) (s : State) : Walk State := do
  let _ ← below.deref ctx n value s
  pure .dead

def forLoop (n : NodeId) (init : List NodeId) (cond : Option NodeId) (update : List NodeId)
    (body : NodeId) (s : State) : Walk State := do
  let entry ← below.seq ctx init s
  if entry.unreachable then pure entry
  else ctx.loop n (below.forPass cond update body) entry

def cases (sel : Selector) : List Case → (fallthrough : State) → Walk State
  | [], fallthrough => pure fallthrough
  | case :: rest, fallthrough => do
    let out ← below.seq ctx case.body (sel.entry case fallthrough)
    cases sel rest out

def switch (n selector : NodeId) (alternatives : List Case) (s : State) : Walk State := do
  let (v, s) ← below.deref ctx n selector s
  if v.isEmpty then pure .dead
  else
    let sel : Selector := ⟨s, v, ctx.tree.variableOf selector⟩
    let (fallthrough, frame) ← Walk.framed .switch (below.cases ctx sel alternatives .dead)
    let exit := fallthrough.merge frame.breaks
    pure (if alternatives.any (·.isDefault) then exit else exit.merge (sel.unmatched alternatives))

def stmtOf (n : NodeId) (s : State) : Stmt → Walk State
  | .block body => below.seq ctx body s
  | .declare d init => below.declare ctx d init s
  | .expr e => do
    let (_, s) ← below.expr e s
    pure s
  | .branch c t f => below.branch c t f s
  | .whileLoop c b => ctx.loop n (below.whilePass c b) s
  | .doLoop b c => ctx.loop n (below.doPass b c) s
  | .forLoop init c update b => below.forLoop ctx n init c update b s
  | .switch selector alternatives => below.switch ctx n selector alternatives s
  | .ret value => below.ret ctx n value s
  | .throw value => below.throw ctx n value s
  | .breakOut => Walk.jump n (Frame.addBreak s)
  | .continueLoop => Walk.jump n (Frame.addContinue s)
  | .skip => pure s

/-- Walks the statement at a node. Jumps and returns carry their state elsewhere and leave
nothing. -/
def stmtAt (n : NodeId) (s : State) : Walk State := do
  let stmt ← Walk.require (ctx.tree.stmt n)
  if s.unreachable then
    Walk.report n (ctx.deadFindings stmt)
    pure s
  else
    Walk.trace (.entered n s)
    let out ← below.stmtOf ctx n s stmt
    Walk.trace (.left n out)
    pure out

end Evaluators

end ValueFlow
