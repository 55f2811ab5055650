import ValueFlow.Analysis.Guard
import ValueFlow.Analysis.Message
import ValueFlow.Conversion
import ValueFlow.Value.Narrowing

namespace ValueFlow

namespace Context

variable (ctx : Context)

/-- The current value of a variable; an untracked one is as declared. -/
def read (d : DeclId) (s : State) : Except TreeError Value :=
  (ctx.tree.decl d).map fun decl => (s.lookup d).getD decl.initialValue

def afterDeref (target : NodeId) (v : Value) (s : State) : State :=
  if v.isReference && v.mayBeNull && !v.isNull then
    match ctx.tree.variableOf target with
    | some d => s.set d (v.withNullable false)
    | none => s
  else s

def elementValue (array : NodeId) : Value :=
  match (ctx.tree.variableDecl array).map Decl.ty with
  | some (.array elem) => elem.anyValue
  | _ => .any

def convert (n : NodeId) (ty : Ty) (v : Value) : Walk Value := do
  Walk.report n (ctx.unboxingFindings (ty.coerce v))
  pure (ty.coerce v).value

def store (n : NodeId) (d : DeclId) (v : Value) (s : State) : Walk (Value × State) := do
  let decl ← Walk.require (ctx.tree.decl d)
  let stored ← ctx.convert n decl.ty v
  pure (stored, s.set d stored)

def checkArgs (n : NodeId) (callee : String) : List (DeclId × Value) → Walk Unit
  | [] => pure ()
  | (param, v) :: rest => do
    let decl ← Walk.require (ctx.tree.decl param)
    Walk.report n
      (v.contractFindings decl.contracts ("argument `" ++ decl.name ++ "` of `" ++ callee ++ "`"))
    checkArgs n callee rest

end Context

def Outcome.settle (o : Outcome) (n : NodeId) : Walk Value := do
  Walk.report n o.findings
  pure o.value

def Unary.apply (op : Unary) (v : Value) : Outcome :=
  match op with
  | .neg => v.negate
  | .not => v.complement
  | .preInc | .postInc => v.arith .add (.int 1)
  | .preDec | .postDec => v.arith .sub (.int 1)
  | .plus => v.promote

/-- Whether the operator answers the value that its operand had before. -/
def Unary.answersOld : Unary → Bool
  | .postInc | .postDec => true
  | _ => false

namespace Evaluators

variable (below : Evaluators) (ctx : Context)

def all : List NodeId → State → Walk (List Value × State)
  | [], s => pure ([], s)
  | e :: rest, s => do
    let (v, s) ← below.expr e s
    let (vs, s) ← all rest s
    pure (v :: vs, s)

def deref (n target : NodeId) (s : State) : Walk (Value × State) := do
  let (v, s) ← below.expr target s
  Walk.report n (ctx.derefFindings target v)
  pure (v.withNullable false, ctx.afterDeref target v s)

def increment (n : NodeId) (op : Unary) (operand : NodeId) (s : State) : Walk (Value × State) :=
  match ctx.tree.variableOf operand with
  | none => do
    let (_, s) ← below.expr operand s
    pure (.any, s)
  | some d => do
    let current ← Walk.require (ctx.read d s)
    let result ← (op.apply current).settle n
    let (stored, s) ← ctx.store n d result s
    pure (if op.answersOld then current else stored, s)

def unary (n : NodeId) (op : Unary) (operand : NodeId) (s : State) : Walk (Value × State) :=
  if op.isIncrement then below.increment ctx n op operand s
  else do
    let (v, s) ← below.expr operand s
    let result ← (op.apply v).settle n
    pure (result, s)

def binary (n : NodeId) (op : Value → Value → Outcome) (lhs rhs : NodeId) (s : State) :
    Walk (Value × State) := do
  let (l, s) ← below.expr lhs s
  let (r, s) ← below.expr rhs s
  let result ← (op l r).settle n
  pure (result, s)

/-- The value of a condition, by the branches that are left. -/
def guarded (split : Walk Branches) : Walk (Value × State) := do
  let branches ← split
  pure (.ofFlags (!branches.whenTrue.unreachable) (!branches.whenFalse.unreachable), branches.join)

def assignVariable (n : NodeId) (op : Option Arith) (d : DeclId) (value : NodeId) (s : State) :
    Walk (Value × State) :=
  match op with
  | none => do
    let (v, s) ← below.expr value s
    ctx.store n d v s
  | some op => do
    let current ← Walk.require (ctx.read d s)
    let (v, s) ← below.expr value s
    let result ← (current.arith op v).settle n
    ctx.store n d result s

/-- Evaluates the parts of an assignment's target that is not a variable. -/
def target (n : NodeId) (s : State) : Walk State := do
  match ← Walk.require (ctx.tree.expr n) with
  | .index array index =>
    let (_, s) ← below.deref ctx n array s
    let (_, s) ← below.expr index s
    pure s
  | .field (some object) _ =>
    let (_, s) ← below.deref ctx n object s
    pure s
  | _ =>
    let (_, s) ← below.expr n s
    pure s

/-- An assignment to an element or to a field of another object, which are not tracked. -/
def assignElsewhere (n : NodeId) (op : Option Arith) (target value : NodeId) (s : State) :
    Walk (Value × State) := do
  let s ← below.target ctx target s
  let (v, s) ← below.expr value s
  match op with
  | none => pure (v, s)
  | some op =>
    if op = .div || op = .rem then
      Walk.report n ((Value.integer .full).arith op v).findings
    pure (.any, s)

def assign (n : NodeId) (op : Option Arith) (target value : NodeId) (s : State) :
    Walk (Value × State) :=
  match ctx.tree.variableOf target with
  | some d => below.assignVariable ctx n op d value s
  | none => below.assignElsewhere ctx n op target value s

def conditional (cond whenTrue whenFalse : NodeId) (s : State) : Walk (Value × State) := do
  let branches ← below.cond cond s
  let (v, left) ← below.expr whenTrue branches.whenTrue
  let (w, right) ← below.expr whenFalse branches.whenFalse
  pure (v.merge w, left.merge right)

def receiver (n : NodeId) (target : Option NodeId) (s : State) : Walk (Value × State) :=
  match target with
  | some target => below.deref ctx n target s
  | none => pure (.object false, s)

def call (n : NodeId) (method : Option MethodId) (target : Option NodeId) (args : List NodeId)
    (s : State) : Walk (Value × State) := do
  let (object, s) ← below.receiver ctx n target s
  let (values, s) ← below.all args s
  if object.isEmpty then pure (.empty, s)
  else match method with
    | none => pure (.any, s)
    | some m => do
      let callee ← Walk.require (ctx.tree.method m)
      ctx.checkArgs n callee.name (callee.params.zip values)
      pure (callee.returnType.initialValue callee.returnContracts, s)

def field (n : NodeId) (target : Option NodeId) (d : DeclId) (s : State) :
    Walk (Value × State) := do
  let decl ← Walk.require (ctx.tree.decl d)
  match target, ctx.tree.variableOf n with
  | some object, none =>
    let (v, s) ← below.deref ctx n object s
    pure (if v.isEmpty then .empty else decl.initialValue, s)
  | _, _ =>
    let v ← Walk.require (ctx.read d s)
    pure (v, s)

def index (n array i : NodeId) (s : State) : Walk (Value × State) := do
  let (a, s) ← below.deref ctx n array s
  let (i, s) ← below.expr i s
  pure (if a.isEmpty || i.isEmpty then .empty else ctx.elementValue array, s)

def length (n target : NodeId) (s : State) : Walk (Value × State) := do
  let (v, s) ← below.deref ctx n target s
  pure (if v.isEmpty then .empty else .integer (v.length?.getD lengths), s)

def newArray (length : NodeId) (s : State) : Walk (Value × State) := do
  let (v, s) ← below.expr length s
  -- an array cannot have a negative length
  pure (if v.isEmpty then .empty else .arrayOf (v.range?.getD lengths) false, s)

def newObject (ty : Ty) (args : List NodeId) (s : State) : Walk (Value × State) := do
  let (_, s) ← below.all args s
  pure (ty.anyValue.withNullable false, s)

def instanceOf (operand : NodeId) (s : State) : Walk (Value × State) := do
  let (v, s) ← below.expr operand s
  -- null is an instance of nothing
  pure (if v.isEmpty then .empty else if v.isNull then .bool false else .anyBool, s)

def cast (n : NodeId) (ty : Ty) (operand : NodeId) (s : State) : Walk (Value × State) := do
  let (v, s) ← below.expr operand s
  Walk.report n (ctx.unboxingFindings (ty.cast v))
  pure ((ty.cast v).value, s)

def unknown (parts : List NodeId) (s : State) : Walk (Value × State) := do
  let (_, s) ← below.all parts s
  pure (.any, s)

def exprOf (n : NodeId) (s : State) : Expr → Walk (Value × State)
  | .literal l => pure (l.value, s)
  | .name d => do
    let v ← Walk.require (ctx.read d s)
    pure (v, s)
  | .self => pure (.object false, s)
  | .unary op operand => below.unary ctx n op operand s
  | .arith op l r => below.binary n (Value.arith op) l r s
  | .compare rel l r => below.binary n (Value.test rel) l r s
  | .and l r => guarded (below.and ctx l r s)
  | .or l r => guarded (below.or ctx l r s)
  | .assign op target value => below.assign ctx n op target value s
  | .conditional c t f => below.conditional c t f s
  | .call method receiver args => below.call ctx n method receiver args s
  | .field target d => below.field ctx n target d s
  | .index a i => below.index ctx n a i s
  | .length e => below.length ctx n e s
  | .newArray _ e => below.newArray e s
  | .newObject ty args => below.newObject ty args s
  | .instanceOf e _ => below.instanceOf e s
  | .cast ty e => below.cast ctx n ty e s
  | .unknown parts => below.unknown parts s

/-- Evaluates the expression at a node. In an unreachable state nothing is looked at. -/
def exprAt (n : NodeId) (s : State) : Walk (Value × State) :=
  if s.unreachable then pure (.empty, s)
  else do below.exprOf ctx n s (← Walk.require (ctx.tree.expr n))

end Evaluators

end ValueFlow
