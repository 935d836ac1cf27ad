import BlockGraph.Logged

/-!
Copy propagation. A copy yields a value that is already there, so every reader of the copy can read
that value instead, and the copy goes.

    B1(u8 $0):                        B1(u8 $0):
      $1 u8 := $0               →       $1 u8 := $0 add $0
      $2 u8 := $1 add $1
-/

namespace BlockGraph

abbrev Renaming := List Register

namespace Renaming

def apply (t : Renaming) (b : BlockId) (r : Register) : Except Fault Register :=
  match t[r.index]? with
  | some s => .ok s
  | none => .error (.noSuchRegister b r)

end Renaming

namespace Block

/-- Rename the operands of the instructions in turn and keep those that are no copies. Parameters
stay where they are; `table` and `kept` are what the instructions before have led to. -/
def dropCopies (b : Block) (table : Renaming) (kept : List Instruction) :
    List Instruction → Except Fault (Renaming × List Instruction)
  | [] => .ok (table, kept)
  | i :: rest => do
    let operation ← i.operation.mapM (table.apply b.id)
    match operation.copy? with
    | some source => b.dropCopies (table ++ [source]) kept rest
    | none =>
      b.dropCopies (table ++ [⟨b.parameters.length + kept.length⟩]) (kept ++ [{ i with operation }])
        rest

def propagateCopies (b : Block) : Except Fault (Block × Nat) := do
  let parameters := (List.range b.parameters.length).map Register.mk
  let (table, instructions) ← b.dropCopies parameters [] b.instructions
  let terminator ← b.terminator.mapM (·.mapM (table.apply b.id))
  let locals ← b.locals.mapM (table.apply b.id)
  return ({ b with instructions, terminator, locals }, b.instructions.length - instructions.length)

end Block

namespace Graph

def propagateCopiesIn : List Block → Logged (List Block × Nat)
  | [] => pure ([], 0)
  | b :: rest => do
    let (b, removed) ← b.propagateCopies
    if 0 < removed then Logged.tell (.copiesRemovedFrom b.id removed)
    let (rest, others) ← propagateCopiesIn rest
    return (b :: rest, removed + others)

def propagateCopies (g : Graph) : Logged (Graph × Nat) := do
  let (blocks, removed) ← propagateCopiesIn g.blocks
  Logged.tell (.copiesRemoved removed)
  return ({ g with blocks }, removed)

end Graph

end BlockGraph
