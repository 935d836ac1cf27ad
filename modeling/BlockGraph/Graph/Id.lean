namespace BlockGraph

structure BlockId where
  index : Nat
  deriving DecidableEq

structure LayoutId where
  index : Nat
  deriving DecidableEq

/-- A value of a block: first its parameters, then the results of its instructions. It means nothing
outside of that block. -/
structure Register where
  index : Nat
  deriving DecidableEq

def BlockId.text (b : BlockId) : String := "B" ++ toString b.index

def LayoutId.text (l : LayoutId) : String := "S" ++ toString l.index

def Register.text (r : Register) : String := "$" ++ toString r.index

end BlockGraph
