import ValueFlow.Tree.Basic

namespace ValueFlow.Tree

def isSelf (t : Tree) (n : NodeId) : Bool :=
  match t.expr n with
  | .ok .self => true
  | _ => false

def variableOf (t : Tree) (n : NodeId) : Option DeclId :=
  match t.expr n with
  | .ok (.name d) => some d
  | .ok (.field none d) => some d
  | .ok (.field (some target) d) => if t.isSelf target then some d else none
  | _ => none

def variableDecl (t : Tree) (n : NodeId) : Option Decl :=
  (t.variableOf n).bind fun d => (t.decl d).toOption

def calleeName (t : Tree) (n : NodeId) : Option String :=
  match t.expr n with
  | .ok (.call (some m) _ _) => (t.method m).toOption.map (·.name)
  | _ => none

def describe (t : Tree) (n : NodeId) : String :=
  match t.variableDecl n, t.calleeName n with
  | some decl, _ => "`" ++ decl.name ++ "`"
  | none, some name => "result of `" ++ name ++ "`"
  | none, none => "expression"

/-- Whether a write lies at most `depth` levels below the expression, or something is too deep or
no expression at all. -/
def writesWithin (t : Tree) : (depth : Nat) → NodeId → Bool
  | 0, _ => true
  | depth + 1, n =>
    match t.expr n with
    | .ok e => e.isWrite || e.children.any (t.writesWithin depth)
    | .error _ => true

/-- Whether evaluating the expression may write to a variable. No path without a repetition is
longer than the table of nodes. -/
def mayWrite (t : Tree) (n : NodeId) : Bool := t.writesWithin (t.size + 1) n

end ValueFlow.Tree
