import ValueFlow.State

namespace ValueFlow

inductive Entry where
  | analyzing (method : String) (params : Nat)
  | entered (n : NodeId) (s : State)
  | left (n : NodeId) (s : State)
  | found (n : NodeId) (message : String)
  | stabilized (loop : NodeId) (iterations : Nat)
  | gaveUp (loop : NodeId) (iterations count : Nat)
  | finished (findings : Nat)
deriving DecidableEq

inductive Level where
  | trace | debug | warn
deriving DecidableEq

def Level.text : Level → String
  | trace => "TRACE"
  | debug => "DEBUG"
  | warn => "WARN"

namespace Entry

def level : Entry → Level
  | entered .. | left .. => .trace
  | gaveUp .. => .warn
  | _ => .debug

def message : Entry → String
  | analyzing method params =>
    "Analyzing method " ++ method ++ " with " ++ toString params ++ " parameters"
  | entered n s => "enter " ++ n.text ++ ": " ++ s.text
  | left n s => "leave " ++ n.text ++ ": " ++ s.text
  | found n message => n.text ++ ": " ++ message
  | stabilized loop iterations =>
    "Loop " ++ loop.text ++ " stabilized after " ++ toString iterations ++ " iterations"
  | gaveUp loop iterations count =>
    "Loop " ++ loop.text ++ " did not stabilize after " ++ toString iterations ++
      " iterations, giving up on " ++ toString count ++ " variables"
  | finished findings => "Analysis finished with " ++ toString findings ++ " findings"

def line (e : Entry) : String := e.level.text ++ " " ++ e.message

end Entry

inductive Phase where
  | enter | leave
deriving DecidableEq

structure Event where
  phase : Phase
  node : NodeId
  state : State
deriving DecidableEq

def Entry.event? : Entry → Option Event
  | entered n s => some ⟨.enter, n, s⟩
  | left n s => some ⟨.leave, n, s⟩
  | _ => none

/-- The entries of an analysis, from first to last; the trace and the log are views of it. -/
abbrev Journal := List Entry

namespace Journal

def events (j : Journal) : List Event := j.filterMap Entry.event?

/-- The state of the last event of the phase at the node. -/
def lastState (j : Journal) (phase : Phase) (n : NodeId) : Option State :=
  (j.events.reverse.find? fun e => e.phase = phase && e.node = n).map (·.state)

def before (j : Journal) (n : NodeId) : Option State := j.lastState .enter n

def after (j : Journal) (n : NodeId) : Option State := j.lastState .leave n

def lines (j : Journal) (traced : Bool) : List String :=
  (j.filter fun e => traced || e.level ≠ .trace).map (·.line)

end Journal

end ValueFlow
