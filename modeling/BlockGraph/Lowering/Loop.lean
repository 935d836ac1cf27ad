import BlockGraph.Lowering.Expr

namespace BlockGraph.Lowering

open Builder

/-- Does a jump with this label mean the loop? Without a label it means any. -/
def LoopFrame.matches (label : Option String) (f : LoopFrame) : Bool :=
  label.isNone || f.label = label

def LoopTargets.enqueue (jump : LoopJump) (b : BlockId) : LoopTargets → LoopTargets
  | .known test exit => .known test exit
  | .queued leaving repeating =>
    match jump with
    | .leave => .queued (leaving ++ [b]) repeating
    | .again => .queued leaving (repeating ++ [b])

def pushLoop (f : LoopFrame) : LowerM Unit :=
  modify fun s => { s with loops := f :: s.loops }

def popLoop : LowerM Unit :=
  modify fun s => { s with loops := s.loops.tail }

def popQueued : LowerM (List BlockId × List BlockId) := do
  match (← get).loops with
  | ⟨_, .queued leaving repeating⟩ :: _ =>
    popLoop
    return (leaving, repeating)
  | _ => throw .noEnclosingLoop

def lowerJump (b : BlockId) (kind : LoopJump) (label : Option String) : LowerM Unit := do
  let loops := (← get).loops
  match loops.find? (·.matches label) with
  | none => throw (label.elim .noEnclosingLoop .unknownLabel)
  | some ⟨_, .known test exit⟩ =>
    match kind with
    | .leave => jump b exit
    | .again => jump b test
  | some ⟨_, .queued _ _⟩ =>
    let i := loops.findIdx (·.matches label)
    let enqueue (f : LoopFrame) : LoopFrame := { f with targets := f.targets.enqueue kind b }
    modify fun s => { s with loops := loops.modify i enqueue }

def exitLoop (b : BlockId) (leaving : List BlockId) : BuildM (Option BlockId) := do
  if leaving.isEmpty then return none
  return some (← converge b leaving)

/-- Close a loop whose body starts at `inside` and ends in the `repeating` blocks. A condition that is
always true is not tested: control goes straight back into the body. -/
def closeLoop (b inside : BlockId) (condition : Expr) (leaving repeating : List BlockId) :
    LowerM (Option BlockId) := do
  if repeating.isEmpty then
    if !condition.isTrue then report .unreachableLoopCondition
    exitLoop b leaving
  else if condition.isTrue then
    jump (← converge b repeating) inside
    exitLoop b leaving
  else
    let tested ← lowerExpr (← converge b repeating) condition
    let (again, exit) ← convergeBranch b leaving tested (← lastRegister tested)
    jump again inside
    return some exit

end BlockGraph.Lowering
