import ValueFlow.Contract
import ValueFlow.Id

namespace ValueFlow

inductive FindingKind where
  | nullDereference
  | divisionByZero
  | contractViolation (contract : Contract)
  | unreachableCode
deriving DecidableEq

namespace FindingKind

def rank : FindingKind → Nat
  | nullDereference => 0
  | divisionByZero => 1
  | contractViolation _ => 2
  | unreachableCode => 3

instance : Ord FindingKind where
  compare
    | contractViolation a, contractViolation b => compare a b
    | a, b => compare a.rank b.rank

def text : FindingKind → String
  | nullDereference => "null dereference"
  | divisionByZero => "division by zero"
  | contractViolation c => c.text ++ " violation"
  | unreachableCode => "unreachable code"

end FindingKind

/-- A `definite` finding is certain whenever its node is executed. -/
structure Finding where
  kind : FindingKind
  message : String
  definite : Bool
deriving DecidableEq

namespace Finding

instance : Ord Finding :=
  ⟨compareLex (compareOn kind) (compareLex (compareOn message) (compareOn definite))⟩

def text (f : Finding) : String := (if f.definite then "error: " else "warning: ") ++ f.message

end Finding

abbrev Located := NodeId × Finding

namespace Located

def order : Located → Located → Ordering :=
  compareLex (compareOn (·.1.index)) (compareOn (·.2))

def text (x : Located) : String := x.1.text ++ ": " ++ x.2.text

end Located

/-- A set of findings, held as a strictly ascending list, so that neither the order nor the
number of times a finding is made shows. -/
structure Report where
  entries : List Located
deriving DecidableEq

namespace Report

def empty : Report := ⟨[]⟩

/-- Puts an entry in its place and tells whether it is new. -/
def place (x : Located) : List Located → Bool × List Located
  | [] => (true, [x])
  | y :: rest =>
    match Located.order x y with
    | .lt => (true, x :: y :: rest)
    | .eq => (false, y :: rest)
    | .gt => (place x rest).map id (y :: ·)

/-- Whether the finding is new at its node, and the report with it. -/
def add (r : Report) (n : NodeId) (f : Finding) : Bool × Report :=
  let (isNew, entries) := place (n, f) r.entries
  (isNew, ⟨entries⟩)

def findingsAt (r : Report) (n : NodeId) : List Finding :=
  (r.entries.filter (·.1 = n)).map (·.2)

def definite (r : Report) : List Located := r.entries.filter (·.2.definite)

def potential (r : Report) : List Located := r.entries.filter (!·.2.definite)

def count (r : Report) (kind : FindingKind) : Nat := r.entries.countP (·.2.kind = kind)

def size (r : Report) : Nat := r.entries.length

def isEmpty (r : Report) : Bool := r.entries.isEmpty

def nodes (r : Report) : List NodeId := (r.entries.map (·.1)).eraseReps

def text (r : Report) : String := "".intercalate (r.entries.map fun x => x.text ++ "\n")

end Report

end ValueFlow
