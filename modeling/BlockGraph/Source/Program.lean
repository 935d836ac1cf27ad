import BlockGraph.Source.Expr

namespace BlockGraph

structure Slot where
  name : String
  type : SourceType

structure ClassDecl where
  id : ClassId
  name : String
  fields : List Slot

structure Clause where
  name : String
  value : Option Expr

inductive LoopJump where
  | leave
  | again
  deriving DecidableEq

inductive LoopKind where
  | testFirst
  | testLast
  deriving DecidableEq

mutual

inductive Stmt where
  | scope (body : Scope)
  | jump (kind : LoopJump) (label : Option String)
  | define (type : Option SourceType) (clauses : List Clause)
  | loop (kind : LoopKind) (label : Option String) (condition : Expr) (body : Scope)
  | expr (value : Expr)
  | cond (condition : Expr) (first second : Option Scope)
  | ret (value : Option Expr)

structure Scope where
  classes : List ClassDecl := []
  functions : List FunctionDecl := []
  statements : List Stmt := []

structure FunctionDecl where
  id : FunctionId
  name : String
  result : SourceType
  parameters : List Slot
  body : Scope

end

structure Program where
  body : Scope

def FunctionDecl.type (f : FunctionDecl) : SourceType :=
  .function f.result (f.parameters.map (·.type))

def FunctionDecl.reference (f : FunctionDecl) : Expr :=
  .function f.id f.type

def Stmt.labeled (label : String) : Stmt → Stmt
  | .loop kind _ condition body => .loop kind (some label) condition body
  | s => s

end BlockGraph
