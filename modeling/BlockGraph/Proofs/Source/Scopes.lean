import BlockGraph.Source.Program
import Mathlib.Data.List.Nodup

namespace BlockGraph

mutual

def Scope.scopes : Scope → List Scope
  | ⟨classes, functions, statements⟩ =>
    ⟨classes, functions, statements⟩ :: (functionScopes functions ++ stmtScopes statements)

def functionScopes : List FunctionDecl → List Scope
  | [] => []
  | f :: fs => f.scopes ++ functionScopes fs

def FunctionDecl.scopes : FunctionDecl → List Scope
  | ⟨_, _, _, _, body⟩ => body.scopes

def stmtScopes : List Stmt → List Scope
  | [] => []
  | s :: rest => s.scopes ++ stmtScopes rest

def Stmt.scopes : Stmt → List Scope
  | .scope body => body.scopes
  | .loop _ _ _ body => body.scopes
  | .cond _ first second => armScopes first ++ armScopes second
  | .jump _ _ | .define _ _ | .expr _ | .ret _ => []

def armScopes : Option Scope → List Scope
  | some body => body.scopes
  | none => []

end

theorem FunctionId.index_inj {f f' : FunctionId} : f.index = f'.index ↔ f = f' := by
  cases f
  cases f'
  simp

def functionIds (ss : List Scope) : List FunctionId := ss.flatMap (·.functions.map (·.id))

def classIds (ss : List Scope) : List ClassId := ss.flatMap (·.classes.map (·.id))

@[simp] theorem functionIds_nil : functionIds [] = [] := rfl

@[simp] theorem functionIds_append (ss ss' : List Scope) :
    functionIds (ss ++ ss') = functionIds ss ++ functionIds ss' :=
  List.flatMap_append

@[simp] theorem functionIds_cons (s : Scope) (ss : List Scope) :
    functionIds (s :: ss) = s.functions.map (·.id) ++ functionIds ss :=
  List.flatMap_cons

@[simp] theorem classIds_nil : classIds [] = [] := rfl

@[simp] theorem classIds_append (ss ss' : List Scope) :
    classIds (ss ++ ss') = classIds ss ++ classIds ss' :=
  List.flatMap_append

@[simp] theorem classIds_cons (s : Scope) (ss : List Scope) :
    classIds (s :: ss) = s.classes.map (·.id) ++ classIds ss :=
  List.flatMap_cons

def Program.DistinctFunctions (p : Program) : Prop := (functionIds p.body.scopes).Nodup

def Program.DistinctClasses (p : Program) : Prop := (classIds p.body.scopes).Nodup

instance (p : Program) : Decidable p.DistinctFunctions := inferInstanceAs (Decidable (List.Nodup _))

instance (p : Program) : Decidable p.DistinctClasses := inferInstanceAs (Decidable (List.Nodup _))

end BlockGraph
