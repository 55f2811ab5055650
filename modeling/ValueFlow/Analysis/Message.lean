import ValueFlow.Analysis.Session
import ValueFlow.Value.Arithmetic

namespace ValueFlow

namespace Fault

def kindOf : FaultKind → FindingKind
  | .nullDereference => .nullDereference
  | .divisionByZero => .divisionByZero

def cause : FaultKind → String
  | .nullDereference => "null value used as an operand"
  | .divisionByZero => "division by zero"

def possibly (definite : Bool) (what : String) : String :=
  if definite then what else "possible " ++ what

def finding (f : Fault) : Finding :=
  ⟨kindOf f.kind, possibly f.definite (cause f.kind), f.definite⟩

def unboxing (f : Fault) : Finding :=
  ⟨.nullDereference, possibly f.definite "unboxing of a null value", f.definite⟩

end Fault

def Outcome.findings (o : Outcome) : List Finding := o.fault.toList.map Fault.finding

def Violation.finding (subject : String) (v : Violation) : Finding :=
  ⟨.contractViolation v.contract,
    subject ++ (if v.definite then " violates " else " may violate ") ++ v.contract.text,
    v.definite⟩

def Value.contractFindings (v : Value) (contracts : List Contract) (subject : String) :
    List Finding :=
  (v.violations contracts).map (Violation.finding subject)

namespace Context

variable (ctx : Context)

/-- A conversion that fails for some values only is passed over unless the settings ask for it. -/
def unboxingFindings (o : Outcome) : List Finding :=
  (o.fault.toList.filter fun f => f.definite || ctx.settings.reportNullable).map Fault.unboxing

def derefFindings (target : NodeId) (v : Value) : List Finding :=
  if v.isNull then
    [⟨.nullDereference, ctx.tree.describe target ++ " is always null here", true⟩]
  else if v.isReference && v.mayBeNull && ctx.settings.reportNullable then
    [⟨.nullDereference, ctx.tree.describe target ++ " may be null here", false⟩]
  else []

def deadFindings (stmt : Stmt) : List Finding :=
  if ctx.settings.reportUnreachable && !stmt.isTrivial then
    [⟨.unreachableCode, "unreachable code", true⟩]
  else []

end Context

end ValueFlow
