namespace ValueFlow

structure Settings where
  -- loop iterations that merge before widening begins
  wideningThreshold : Nat := 3
  -- loop iterations after which whatever still changes is given up
  maxIterations : Nat := 100
  -- report the first statement of unreachable code
  reportUnreachable : Bool := true
  -- report dereferences of what is only possibly null
  reportNullable : Bool := false
deriving DecidableEq

end ValueFlow
