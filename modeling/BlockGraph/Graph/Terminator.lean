import BlockGraph.Graph.Id

namespace BlockGraph

structure Edge where
  target : Register
  arguments : List Register
  deriving DecidableEq

inductive Terminator where
  | goto (edge : Edge)
  | branch (condition : Register) (onTrue onFalse : Edge)
  deriving DecidableEq

def Edge.registers (e : Edge) : List Register := e.target :: e.arguments

def Edge.mapM {m : Type → Type} [Monad m] (f : Register → m Register) (e : Edge) : m Edge :=
  return ⟨← f e.target, ← e.arguments.mapM f⟩

namespace Terminator

def edges : Terminator → List Edge
  | .goto e => [e]
  | .branch _ t f => [t, f]

def registers : Terminator → List Register
  | .goto e => e.registers
  | .branch c t f => c :: (t.registers ++ f.registers)

def mapM {m : Type → Type} [Monad m] (f : Register → m Register) : Terminator → m Terminator
  | .goto e => return .goto (← e.mapM f)
  | .branch c t e => return .branch (← f c) (← t.mapM f) (← e.mapM f)

end Terminator

end BlockGraph
