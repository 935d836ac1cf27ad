import BlockGraph.Graph.Basic

/-!
Structural rules of a finished graph, and what breaks them. A block reads only what it computed
before, references and jumps agree with the parameters of their targets, and control never falls off
the end of a block that can be reached.
-/

namespace BlockGraph

inductive Violation where
  | forwardReference (block : BlockId) (register operand : Register)
  | undefinedRegister (block : BlockId) (register : Register)
  | notABlockRef (block : BlockId) (register : Register) (type : ValueType)
  | conditionType (block : BlockId) (register : Register)
  | argumentMismatch (block : BlockId) (register : Register) (expected found : String)
  | missingBlock (block target : BlockId)
  | referenceMismatch (block target : BlockId)
  | unterminated (block : BlockId)
  deriving DecidableEq

def Violation.message : Violation → String
  | .forwardReference b r o =>
    b.text ++ ": instruction " ++ r.text ++ " reads " ++ o.text ++
      ", which is not defined before it"
  | .undefinedRegister b r => b.text ++ ": terminator reads undefined register " ++ r.text
  | .notABlockRef b r t =>
    b.text ++ ": jump target " ++ r.text ++ " of type '" ++ t.text ++ "' is not a block reference"
  | .conditionType b r => b.text ++ ": branch condition " ++ r.text ++ " is not a bool"
  | .argumentMismatch b r expected found =>
    b.text ++ ": edge through " ++ r.text ++ " passes (" ++ found ++ ") to a block accepting (" ++
      expected ++ ")"
  | .missingBlock b t => b.text ++ ": reference to missing block " ++ t.text
  | .referenceMismatch b t =>
    b.text ++ ": reference to " ++ t.text ++ " does not match its parameters"
  | .unterminated b => b.text ++ " is reachable but never terminated"

namespace Block

def operandViolations (b : Block) (r : Register) (op : Operation) : List Violation :=
  (op.operands.filter fun o => r.index ≤ o.index).map (.forwardReference b.id r ·)

def referenceViolations (g : Graph) (b : Block) (i : Instruction) : List Violation :=
  match i.operation.blockRef? with
  | none => []
  | some target =>
    match g.block? target with
    | none => [.missingBlock b.id target]
    | some t =>
      if .blockRef t.parameterTypes = i.type then [] else [.referenceMismatch b.id target]

def instructionViolations (g : Graph) (b : Block) : List Violation :=
  b.instructions.zipIdx.flatMap fun (i, n) =>
    b.operandViolations ⟨b.parameters.length + n⟩ i.operation ++ b.referenceViolations g i

def edgeViolations (b : Block) (e : Edge) : List Violation :=
  match b.typeOf? e.target with
  | none => []
  | some (.blockRef expected) =>
    let found := e.arguments.filterMap b.typeOf?
    if expected = found then []
    else [.argumentMismatch b.id e.target (ValueType.listText expected) (ValueType.listText found)]
  | some t => [.notABlockRef b.id e.target t]

def conditionViolations (b : Block) : Terminator → List Violation
  | .goto _ => []
  | .branch c _ _ => if b.typeOf? c = some (.prim .bool) then [] else [.conditionType b.id c]

/-- Types are looked at only if the terminator reads no undefined register. -/
def terminatorViolations (b : Block) : List Violation :=
  match b.terminator with
  | none => []
  | some t =>
    match t.registers.find? fun r => !b.contains r with
    | some r => [.undefinedRegister b.id r]
    | none => b.conditionViolations t ++ t.edges.flatMap b.edgeViolations

def violations (g : Graph) (b : Block) : List Violation :=
  b.instructionViolations g ++ b.terminatorViolations

end Block

namespace Graph

def blockIds (g : Graph) : List BlockId := (List.range g.blocks.length).map BlockId.mk

def references (g : Graph) (b : BlockId) : List BlockId := (g.block? b).elim [] Block.referenced

/-- Follow references from the pending blocks, newest first, through the blocks that are still
`fresh`. Each fresh block is visited once, whether it is jumped to or stored as a continuation. -/
def visit (g : Graph) (fresh pending : List BlockId) : List BlockId :=
  match pending with
  | [] => []
  | b :: rest =>
    if _h : b ∈ fresh then b :: g.visit (fresh.erase b) ((g.references b).reverse ++ rest)
    else g.visit fresh rest
termination_by (fresh.length, pending.length)
decreasing_by
  · apply Prod.Lex.left
    have := List.length_pos_of_mem _h
    rw [List.length_erase_of_mem _h]
    omega
  · apply Prod.Lex.right
    simp

def reachable (g : Graph) (entries : List BlockId) : List BlockId :=
  g.visit g.blockIds entries.reverse

def unterminated (g : Graph) (b : BlockId) : Bool := (g.block? b).any fun b => !b.isTerminated

/-- Everything that breaks a rule: block by block, then the ends of reachable blocks. -/
def violations (g : Graph) (entries : List BlockId) : List Violation :=
  g.blocks.flatMap (·.violations g) ++
    ((g.reachable entries).filter g.unterminated).map .unterminated

end Graph

end BlockGraph
