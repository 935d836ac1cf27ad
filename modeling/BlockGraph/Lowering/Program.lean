import BlockGraph.Lowering.Stmt

/-!
Statements, scopes and programs. Lowering a statement gives the block where control goes on, or none
if control never gets past it.
-/

namespace BlockGraph

namespace Lowering

open Builder

mutual

def lowerScope (frame : Option Frame) (b : BlockId) : Scope → LowerM (Option BlockId)
  | ⟨classes, functions, statements⟩ => do
    classes.forM declare
    functions.forM declareFunction
    classes.forM defineFields
    lowerFunctions functions
    lowerStmts frame b statements

def lowerFunctions : List FunctionDecl → LowerM Unit
  | [] => return ()
  | f :: fs => do
    lowerFunction f
    lowerFunctions fs

/-- Lower the body of a function. No loop around the function is one inside of it. -/
def lowerFunction : FunctionDecl → LowerM Unit
  | ⟨id, name, result, _, body⟩ => do
    let entry := (← functionEntry id).entry
    let type ← lowerType result
    let frame : Frame := ⟨name, type⟩
    let loops := (← get).loops
    modify ({ · with loops := [] })
    match ← lowerScope (some frame) entry body with
    | some b =>
      if result.isVoid then lowerReturn (some frame) b none
      else throw (.missingReturn name)
    | none => pure ()
    modify ({ · with loops })

def lowerStmts (frame : Option Frame) (b : BlockId) : List Stmt → LowerM (Option BlockId)
  | [] => return some b
  | s :: rest => do
    match ← lowerStmt frame b s with
    | some b => lowerStmts frame b rest
    | none =>
      if !rest.isEmpty then report .unreachableCode
      return none

def lowerStmt (frame : Option Frame) (b : BlockId) : Stmt → LowerM (Option BlockId)
  | .scope body => do
    match ← lowerScope frame (← enter b) body with
    | some inner => return some (← leave b inner)
    | none => return none
  | .jump kind label => do
    lowerJump b kind label
    return none
  | .define type clauses => do
    let type ← type.mapM lowerType
    return some (← lowerClauses type b clauses)
  | .loop kind label condition body => do
    if kind = .testFirst && !condition.isTrue then
      let test ← enter b
      let tested ← lowerExpr test condition
      let (inside, exit) ← branch tested (← lastRegister tested)
      pushLoop ⟨label, .known test exit⟩
      let bottom ← lowerScope frame inside body
      popLoop
      bottom.forM (jump · test)
      return some exit
    else
      let inside ← enter b
      pushLoop ⟨label, .queued [] []⟩
      let bottom ← lowerScope frame inside body
      let (leaving, repeating) ← popQueued
      closeLoop b inside condition leaving (repeating ++ bottom.toList)
  | .expr value => return some (← lowerExpr b value)
  | .cond condition first second => do
    let b ← lowerExpr b condition
    let (onTrue, onFalse) ← branch b (← lastRegister b)
    let first ← lowerArm frame onTrue first
    let second ← lowerArm frame onFalse second
    match first, second with
    | some first, some second => return some (← merge b first second)
    | some inner, none | none, some inner => return some (← leave b inner)
    | none, none => return none
  | .ret value => do
    lowerReturn frame b value
    return none

def lowerArm (frame : Option Frame) (b : BlockId) : Option Scope → LowerM (Option BlockId)
  | some body => lowerScope frame b body
  | none => return some b

end

/-- Lower a program. The first layout is the one that functions without a result return through, and
the first block is the one the program starts in. -/
def lowerProgram (p : Program) : LowerM BlockId := do
  let _ ← returnLayout (.prim .void)
  let entry ← addBlock []
  match ← lowerScope none entry p.body with
  | some b => finish b
  | none => pure ()
  let g := (← get).graph
  tell (.lowered g.blocks.length g.layouts.length)
  return entry

end Lowering

structure Lowered where
  graph : Graph
  entry : BlockId
  functions : List (FunctionId × FunctionEntry)
  classes : List (ClassId × LayoutId)
  diagnostics : List Diagnostic

/-- The blocks where control can start: that of the program, then those of its functions. -/
def Lowered.entries (l : Lowered) : List BlockId :=
  l.entry :: l.functions.map (·.2.entry)

def Program.lower (p : Program) : Logged Lowered := do
  let (entry, s) ← (Lowering.lowerProgram p).run {}
  return {
    graph := s.graph
    entry
    functions := s.functions.toList.map fun (n, e) => (⟨n⟩, e)
    classes := s.classes.toList.map fun (n, l) => (⟨n⟩, l)
    diagnostics := s.diagnostics }

end BlockGraph
