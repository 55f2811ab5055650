import ValueFlow.Bindings
import ValueFlow.Value.Lattice

namespace ValueFlow

/-- The values of the tracked declarations, unless no execution reaches the point; those that an
unreachable state still holds mean nothing. -/
structure State where
  values : Bindings
  unreachable : Bool
deriving DecidableEq

namespace State

def initial : State := ⟨.empty, false⟩

def dead : State := ⟨.empty, true⟩

def kill (s : State) : State := { s with unreachable := true }

def killUnless (s : State) (live : Bool) : State := if live then s else s.kill

def lookup (s : State) (d : DeclId) : Option Value := s.values.find? d

/-- The value of a declaration: anything if it is not tracked. -/
def get (s : State) (d : DeclId) : Value :=
  if s.unreachable then .empty else (s.lookup d).getD .any

def contains (s : State) (d : DeclId) : Bool := (s.lookup d).isSome

def size (s : State) : Nat := s.values.size

def set (s : State) (d : DeclId) (v : Value) : State := { s with values := s.values.insert d v }

def remove (s : State) (d : DeclId) : State := { s with values := s.values.erase d }

/-- Combines two reachable states; an unreachable one gives way to the other. -/
def combine (f : State → State → State) (s other : State) : State :=
  if other.unreachable then s else if s.unreachable then other else f s other

/-- What holds after either state; a declaration that one of them lacks keeps its value. -/
def merge : State → State → State :=
  combine fun s other => { s with values := s.values.unionWith Value.merge other.values }

def clash (s : State) (d : DeclId) (v : Value) : Bool :=
  (s.lookup d).any fun w => (w.intersect v).isEmpty && !w.isEmpty && !v.isEmpty

/-- What holds in both states; values that exclude each other make the point unreachable. -/
def intersect : State → State → State :=
  combine fun s other =>
    ⟨s.values.unionWith Value.intersect other.values,
      other.values.entries.any fun e => s.clash e.1 e.2⟩

def widen : State → State → State :=
  combine fun s other => { s with values := s.values.unionWith Value.widen other.values }

def keeps (previous : State) (d : DeclId) (v : Value) : Bool :=
  !previous.unreachable && previous.lookup d == some v

def givesUp (previous : State) (d : DeclId) (v : Value) : Bool :=
  !previous.keeps d v && !v.isAny

/-- Forgets each value that has changed since `previous`. -/
def giveUp (s previous : State) : State :=
  if s.unreachable then s
  else { s with values := s.values.map fun d v => if previous.givesUp d v then .any else v }

def changes (s previous : State) : Nat :=
  if s.unreachable then 0 else s.values.entries.countP fun e => previous.givesUp e.1 e.2

def entryText (e : DeclId × Value) : String := e.1.text ++ ": " ++ e.2.text

def text (s : State) : String :=
  if s.unreachable then "unreachable"
  else "\x7b" ++ ", ".intercalate (s.values.entries.map entryText) ++ "\x7d"

end State

structure Branches where
  whenTrue : State
  whenFalse : State
deriving DecidableEq

namespace Branches

def dead : Branches := ⟨.dead, .dead⟩

def swap (b : Branches) : Branches := ⟨b.whenFalse, b.whenTrue⟩

def join (b : Branches) : State := b.whenTrue.merge b.whenFalse

end Branches

end ValueFlow
