import ValueFlow.Analysis.Stmt

namespace ValueFlow

/-- The evaluators of walks that go down at most `depth` levels. Each level is built when a walk
reaches it, so a large `depth` costs nothing by itself. -/
def Context.evaluators (ctx : Context) : (depth : Nat) → Evaluators
  | 0 => .exhausted
  | depth + 1 =>
    { expr := fun n s => (ctx.evaluators depth).exprAt ctx n s
      cond := fun n s => (ctx.evaluators depth).condAt ctx n s
      stmt := fun n s => (ctx.evaluators depth).stmtAt ctx n s }

/-- The levels a walk may go down beyond those of a path without a repetition. A node may stand
below itself; such a walk ends once no state reaches the node. -/
def repetitionLimit : Nat := 1000000

/-- Enough levels for any tree in which no node stands below itself: a path without a repetition is
no longer than the table of nodes, and a reference out of the table may end it. -/
def Context.depthBound (ctx : Context) : Nat := ctx.tree.size + 1 + repetitionLimit

structure Analysis where
  -- the state that falls off the end
  final : State
  -- the state after the end or any return
  exit : State
  report : Report
  journal : Journal

def Context.run (ctx : Context) (body : NodeId) (initial : State) (σ : Session) :
    Except Halt Analysis :=
  match (ctx.evaluators ctx.depthBound).stmt body initial σ with
  | .ok final τ =>
    .ok ⟨final, τ.returns.merge final, τ.report,
      (Entry.finished τ.report.size :: τ.history).reverse⟩
  | .error halt _ => .error halt

def Tree.analyze (t : Tree) (settings : Settings) (body : NodeId) (initial : State) :
    Except Halt Analysis :=
  Context.run { tree := t, settings } body initial {}

def Tree.entryState (t : Tree) (m : Method) : Except TreeError State :=
  m.params.foldlM (fun s d => (t.decl d).map fun decl => s.set d decl.initialValue)
    ((t.declsOf .field).foldl (fun s (d, decl) => s.set d decl.initialValue) .initial)

def Tree.analyzeMethod (t : Tree) (settings : Settings) (m : MethodId) : Except Halt Analysis := do
  let method ← (t.method m).mapError Halt.malformed
  match method.body with
  | none => .error (.malformed (.noBody m))
  | some body =>
    let initial ← (t.entryState method).mapError Halt.malformed
    let ctx : Context :=
      { tree := t, settings, returnType := some method.returnType,
        returnContracts := method.returnContracts }
    ctx.run body initial (Session.note (.analyzing method.name method.params.length) {})

end ValueFlow
