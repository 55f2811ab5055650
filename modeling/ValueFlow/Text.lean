namespace ValueFlow

def unitCount (c : Char) : Nat := if c.toNat < 0x10000 then 1 else 2

/-- The first of the character's units; of two, it is the one that carries the high bits. -/
def leadingUnit (c : Char) : UInt16 :=
  if c.toNat < 0x10000 then c.toNat.toUInt16 else (0xD800 + (c.toNat - 0x10000) / 0x400).toUInt16

def textLength (s : String) : Nat := s.toList.foldl (fun n c => n + unitCount c) 0

end ValueFlow
