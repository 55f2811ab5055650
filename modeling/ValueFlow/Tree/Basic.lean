import ValueFlow.Contract
import ValueFlow.Operator
import ValueFlow.Tree.Error

namespace ValueFlow

inductive Literal where
  | int (x : Int)
  | char (code : UInt16)
  | bool (b : Bool)
  | str (s : String)
  | null
deriving DecidableEq

namespace Literal

/-- A character literal is known by its first unit. -/
def ofChar (c : Char) : Literal := char (leadingUnit c)

def value : Literal → Value
  | int x => .int x
  | char code => .ofCode code
  | bool b => .bool b
  | str s => .ofText s
  | null => .null

end Literal

inductive Expr where
  | literal (l : Literal)
  -- a variable, a parameter, or a field of the object itself
  | name (decl : DeclId)
  | self
  | unary (op : Unary) (operand : NodeId)
  | arith (op : Arith) (lhs rhs : NodeId)
  | compare (rel : Relation) (lhs rhs : NodeId)
  | and (lhs rhs : NodeId)
  | or (lhs rhs : NodeId)
  -- `target = value`, or `target op= value`
  | assign (op : Option Arith) (target value : NodeId)
  | conditional (cond whenTrue whenFalse : NodeId)
  -- a call without a method has an unknown callee
  | call (method : Option MethodId) (receiver : Option NodeId) (args : List NodeId)
  | field (target : Option NodeId) (decl : DeclId)
  | index (array index : NodeId)
  | length (target : NodeId)
  | newArray (elem : Ty) (length : NodeId)
  | newObject (ty : Ty) (args : List NodeId)
  | instanceOf (operand : NodeId) (ty : Ty)
  | cast (ty : Ty) (operand : NodeId)
  -- any other expression; its parts are still evaluated
  | unknown (parts : List NodeId)
deriving DecidableEq

namespace Expr

def children : Expr → List NodeId
  | literal _ | name _ | self => []
  | unary _ e | length e | newArray _ e | instanceOf e _ | cast _ e => [e]
  | arith _ l r | compare _ l r | and l r | or l r => [l, r]
  | assign _ target value => [target, value]
  | conditional c t f => [c, t, f]
  | call _ receiver args => receiver.toList ++ args
  | field target _ => target.toList
  | index a i => [a, i]
  | newObject _ args => args
  | unknown parts => parts

def isWrite : Expr → Bool
  | assign .. | call .. => true
  | unary op _ => op.isIncrement
  | _ => false

end Expr

structure Case where
  labels : List Literal
  isDefault : Bool
  body : List NodeId
deriving DecidableEq

inductive Stmt where
  | block (body : List NodeId)
  | declare (decl : DeclId) (init : Option NodeId)
  | expr (e : NodeId)
  | branch (cond whenTrue : NodeId) (whenFalse : Option NodeId)
  | whileLoop (cond body : NodeId)
  | doLoop (body cond : NodeId)
  -- `init` are statements, `update` are expressions
  | forLoop (init : List NodeId) (cond : Option NodeId) (update : List NodeId) (body : NodeId)
  | switch (selector : NodeId) (cases : List Case)
  | ret (value : Option NodeId)
  | throw (value : NodeId)
  | breakOut
  | continueLoop
  | skip
deriving DecidableEq

namespace Stmt

def children : Stmt → List NodeId
  | block body => body
  | declare _ init => init.toList
  | expr e | throw e => [e]
  | branch c t f => c :: t :: f.toList
  | whileLoop c b | doLoop b c => [c, b]
  | forLoop init c update b => init ++ c.toList ++ update ++ [b]
  | switch s cases => s :: cases.flatMap (·.body)
  | ret value => value.toList
  | breakOut | continueLoop | skip => []

/-- A statement that does nothing is not worth a remark when it is unreachable. -/
def isTrivial : Stmt → Bool
  | skip => true
  | block body => body.isEmpty
  | _ => false

end Stmt

inductive Node where
  | stmt (s : Stmt)
  | expr (e : Expr)
deriving DecidableEq

inductive Role where
  | var | param | field
deriving DecidableEq

structure Decl where
  name : String
  ty : Ty
  contracts : List Contract
  role : Role
deriving DecidableEq

def Decl.initialValue (d : Decl) : Value := d.ty.initialValue d.contracts

structure Method where
  name : String
  params : List DeclId
  returnType : Ty
  returnContracts : List Contract
  body : Option NodeId
deriving DecidableEq

/-- Statements and expressions lie in one table and refer to each other by position; a reference
is only checked when it is followed. -/
structure Tree where
  nodes : Array Node := #[]
  decls : Array Decl := #[]
  methods : Array Method := #[]

namespace Tree

def size (t : Tree) : Nat := t.nodes.size

def node (t : Tree) (n : NodeId) : Except TreeError Node :=
  match t.nodes[n.index]? with
  | some node => .ok node
  | none => .error (.unknownNode n)

def stmt (t : Tree) (n : NodeId) : Except TreeError Stmt :=
  match t.node n with
  | .ok (.stmt s) => .ok s
  | .ok (.expr _) => .error (.notStatement n)
  | .error e => .error e

def expr (t : Tree) (n : NodeId) : Except TreeError Expr :=
  match t.node n with
  | .ok (.expr e) => .ok e
  | .ok (.stmt _) => .error (.notExpression n)
  | .error e => .error e

def decl (t : Tree) (d : DeclId) : Except TreeError Decl :=
  match t.decls[d.index]? with
  | some decl => .ok decl
  | none => .error (.unknownDecl d)

def method (t : Tree) (m : MethodId) : Except TreeError Method :=
  match t.methods[m.index]? with
  | some method => .ok method
  | none => .error (.unknownMethod m)

def addNode (t : Tree) (node : Node) : Tree := { t with nodes := t.nodes.push node }

def addDecl (t : Tree) (decl : Decl) : Tree := { t with decls := t.decls.push decl }

def addMethod (t : Tree) (method : Method) : Tree := { t with methods := t.methods.push method }

/-- Adds `d = value` or `d op= value`, after a node for the name of `d`. -/
def addAssignment (t : Tree) (op : Option Arith) (d : DeclId) (value : NodeId) : Tree :=
  (t.addNode (.expr (.name d))).addNode (.expr (.assign op ⟨t.size⟩ value))

/-- Gives a method its body; there must be such a method for this to have an effect. -/
def setBody (t : Tree) (m : MethodId) (body : NodeId) : Tree :=
  { t with methods := t.methods.modify m.index fun method => { method with body := some body } }

def declsOf (t : Tree) (role : Role) : List (DeclId × Decl) :=
  t.decls.toList.zipIdx.filterMap fun (decl, i) =>
    if decl.role = role then some (⟨i⟩, decl) else none

end Tree

end ValueFlow
