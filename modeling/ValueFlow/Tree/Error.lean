import ValueFlow.Id

namespace ValueFlow

inductive TreeError where
  | unknownNode (n : NodeId)
  | unknownDecl (d : DeclId)
  | unknownMethod (m : MethodId)
  | notStatement (n : NodeId)
  | notExpression (n : NodeId)
  -- a jump with nothing to jump out of
  | strayJump (n : NodeId)
  | noBody (m : MethodId)
deriving DecidableEq

def TreeError.message : TreeError → String
  | unknownNode n => "Unknown node " ++ n.text
  | unknownDecl d => "Unknown declaration " ++ d.text
  | unknownMethod m => "Unknown method " ++ m.text
  | notStatement n => "Expected a statement at " ++ n.text
  | notExpression n => "Expected an expression at " ++ n.text
  | strayJump n => "Jump outside of a loop or switch at " ++ n.text
  | noBody m => "Method " ++ m.text ++ " has no body"

end ValueFlow
