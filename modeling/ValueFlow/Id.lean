namespace ValueFlow

structure NodeId where
  index : Nat
deriving DecidableEq

def NodeId.text (n : NodeId) : String := "n" ++ toString n.index

/-- A variable, parameter or field. Two declarations of one name stay apart. -/
structure DeclId where
  index : Nat
deriving DecidableEq

def DeclId.text (d : DeclId) : String := "d" ++ toString d.index

structure MethodId where
  index : Nat
deriving DecidableEq

def MethodId.text (m : MethodId) : String := "m" ++ toString m.index

end ValueFlow
