import BlockGraph.Graph.Locals
import BlockGraph.Graph.Operation
import BlockGraph.Graph.Terminator

namespace BlockGraph

structure Parameter where
  type : ValueType
  name : Option String
  deriving DecidableEq

/-- How the parameters of a block were made from the live values before it, so that every jump to
it can pass the right arguments. -/
structure Signature where
  acceptsReturn : Bool := false
  carried : List String := []
  stackDepth : Nat := 0
  deriving DecidableEq

/-- A block ends in its terminator, unless it is final and control stops there. -/
structure Block where
  id : BlockId
  parameters : List Parameter
  instructions : List Instruction := []
  terminator : Option Terminator := none
  isFinal : Bool := false
  signature : Signature := {}
  locals : Locals := {}
  deriving DecidableEq

namespace Block

def registerCount (b : Block) : Nat := b.parameters.length + b.instructions.length

def contains (b : Block) (r : Register) : Bool := r.index < b.registerCount

def lastRegister? (b : Block) : Option Register :=
  if b.registerCount = 0 then none else some ⟨b.registerCount - 1⟩

def isTerminated (b : Block) : Bool := b.terminator.isSome || b.isFinal

def parameterTypes (b : Block) : List ValueType := b.parameters.map (·.type)

def instruction? (b : Block) (r : Register) : Option Instruction :=
  if r.index < b.parameters.length then none
  else b.instructions[r.index - b.parameters.length]?

def typeOf? (b : Block) (r : Register) : Option ValueType :=
  match b.parameters[r.index]? with
  | some p => some p.type
  | none => (b.instruction? r).map (·.type)

def typeOf (b : Block) (r : Register) : Except Fault ValueType :=
  match b.typeOf? r with
  | some t => .ok t
  | none => .error (.noSuchRegister b.id r)

def staticTarget? (b : Block) (r : Register) : Option BlockId :=
  (b.instruction? r).bind (·.operation.blockRef?)

def referenced (b : Block) : List BlockId :=
  b.instructions.filterMap (·.operation.blockRef?)

end Block

end BlockGraph
