import ValueFlow.Journal
import ValueFlow.Report
import ValueFlow.Settings
import ValueFlow.Tree.Query

namespace ValueFlow

structure Context where
  tree : Tree
  settings : Settings
  returnType : Option Ty := none
  returnContracts : List Contract := []

inductive Halt where
  | malformed (error : TreeError)
  -- the walk went deeper, or a loop took longer, than its bound
  | exhausted
deriving DecidableEq

inductive FrameKind where
  | loop | switch
deriving DecidableEq

/-- The states that jumps carry out of a loop or a switch. -/
structure Frame where
  kind : FrameKind
  breaks : State := .dead
  continues : State := .dead
deriving DecidableEq

namespace Frame

def addBreak (s : State) : List Frame → Option (List Frame)
  | [] => none
  | f :: rest => some ({ f with breaks := f.breaks.merge s } :: rest)

/-- A continue passes over switches to the innermost loop. -/
def addContinue (s : State) : List Frame → Option (List Frame)
  | [] => none
  | f :: rest =>
    match f.kind with
    | .loop => some ({ f with continues := f.continues.merge s } :: rest)
    | .switch => (addContinue s rest).map (f :: ·)

end Frame

structure Session where
  report : Report := .empty
  -- the enclosing loops and switches, innermost first
  frames : List Frame := []
  -- the merge of the states that reached a return
  returns : State := .dead
  -- how many loops are being solved around this point; within them nothing is reported
  muted : Nat := 0
  -- what happened, the latest first
  history : List Entry := []

namespace Session

def note (e : Entry) (σ : Session) : Session := { σ with history := e :: σ.history }

def trace (e : Entry) (σ : Session) : Session := if σ.muted = 0 then σ.note e else σ

def find (n : NodeId) (σ : Session) (f : Finding) : Session :=
  if σ.muted = 0 then { σ.note (.found n f.message) with report := (σ.report.add n f).2 } else σ

def enterFrame (kind : FrameKind) (σ : Session) : Session :=
  { σ with frames := ⟨kind, .dead, .dead⟩ :: σ.frames }

def leaveFrame (σ : Session) : Session := { σ with frames := σ.frames.tail }

def mute (σ : Session) : Session := { σ with muted := σ.muted + 1 }

def unmute (σ : Session) : Session := { σ with muted := σ.muted - 1 }

end Session

/-- A step of the analysis. The session survives a failure, so that what a step leaves behind is
always known. -/
abbrev Walk := EStateM Halt Session

namespace Walk

variable {α : Type}

def require : Except TreeError α → Walk α
  | .ok a => pure a
  | .error e => throw (.malformed e)

def note (e : Entry) : Walk Unit := modify (·.note e)

def trace (e : Entry) : Walk Unit := modify (·.trace e)

def report (n : NodeId) (findings : List Finding) : Walk Unit :=
  modify fun σ => findings.foldl (Session.find n) σ

def returning (s : State) : Walk Unit :=
  modify fun σ => { σ with returns := σ.returns.merge s }

/-- Carries a state to the frame that `route` picks; nothing goes on from here. -/
def jump (n : NodeId) (route : List Frame → Option (List Frame)) : Walk State := fun σ =>
  match route σ.frames with
  | some frames => .ok .dead { σ with frames }
  | none => .error (.malformed (.strayJump n)) σ

/-- Runs a step with findings and trace switched off. -/
def muted (body : Walk α) : Walk α := fun σ =>
  match body σ.mute with
  | .ok a τ => .ok a τ.unmute
  | .error e τ => .error e τ.unmute

/-- Runs a step inside a new frame and hands over what the frame has gathered. -/
def framed (kind : FrameKind) (body : Walk α) : Walk (α × Frame) := fun σ =>
  match body (σ.enterFrame kind) with
  | .ok a τ => .ok (a, τ.frames.headD ⟨kind, .dead, .dead⟩) τ.leaveFrame
  | .error e τ => .error e τ.leaveFrame

end Walk

/-- The evaluators of the nodes below the one at hand. -/
structure Evaluators where
  expr : NodeId → State → Walk (Value × State)
  cond : NodeId → State → Walk Branches
  stmt : NodeId → State → Walk State

def Evaluators.exhausted : Evaluators where
  expr _ _ := throw .exhausted
  cond _ _ := throw .exhausted
  stmt _ _ := throw .exhausted

end ValueFlow
