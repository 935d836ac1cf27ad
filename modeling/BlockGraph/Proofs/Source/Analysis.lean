import BlockGraph.Proofs.Source.Scopes

namespace BlockGraph

namespace SourceType

mutual

def decEq : (s t : SourceType) → Decidable (s = t)
  | .prim p, .prim q =>
    if h : p = q then .isTrue (h ▸ rfl) else .isFalse fun e => by cases e; exact h rfl
  | .object c, .object d =>
    if h : c = d then .isTrue (h ▸ rfl) else .isFalse fun e => by cases e; exact h rfl
  | .array s, .array t =>
    match decEq s t with
    | .isTrue h => .isTrue (h ▸ rfl)
    | .isFalse h => .isFalse fun e => by cases e; exact h rfl
  | .function r ss, .function q ts =>
    match decEq r q, decEqList ss ts with
    | .isTrue h, .isTrue k => .isTrue (h ▸ k ▸ rfl)
    | .isFalse h, _ => .isFalse fun e => by cases e; exact h rfl
    | _, .isFalse k => .isFalse fun e => by cases e; exact k rfl
  | .prim _, .object _ | .prim _, .array _ | .prim _, .function _ _ => .isFalse nofun
  | .object _, .prim _ | .object _, .array _ | .object _, .function _ _ => .isFalse nofun
  | .array _, .prim _ | .array _, .object _ | .array _, .function _ _ => .isFalse nofun
  | .function _ _, .prim _ | .function _ _, .object _ | .function _ _, .array _ => .isFalse nofun

def decEqList : (ss ts : List SourceType) → Decidable (ss = ts)
  | [], [] => .isTrue rfl
  | [], _ :: _ => .isFalse nofun
  | _ :: _, [] => .isFalse nofun
  | s :: ss, t :: ts =>
    match decEq s t, decEqList ss ts with
    | .isTrue h, .isTrue k => .isTrue (h ▸ k ▸ rfl)
    | .isFalse h, _ => .isFalse fun e => by cases e; exact h rfl
    | _, .isFalse k => .isFalse fun e => by cases e; exact k rfl

end

instance : DecidableEq SourceType := decEq

end SourceType

namespace Analysis

structure Declared where
  classes : List ClassDecl := []
  functions : List FunctionDecl := []

namespace Declared

def fields? (D : Declared) (c : ClassId) : Option (List SourceType) :=
  (D.classes.find? (·.id = c)).map (·.fields.map (·.type))

def functionType? (D : Declared) (f : FunctionId) : Option SourceType :=
  (D.functions.find? (·.id = f)).map (·.type)

def fieldType? (D : Declared) : SourceType → Nat → Option SourceType
  | .object c, n => (D.fields? c).bind (·[n]?)
  | _, _ => none

def enter (D : Declared) (classes : List ClassDecl) (functions : List FunctionDecl) : Declared :=
  ⟨classes ++ D.classes, functions ++ D.functions⟩

end Declared

mutual

def isValueType (D : Declared) : SourceType → Bool
  | .prim p => p ≠ .void
  | .object c => (D.fields? c).isSome
  | .array element => isValueType D element
  | .function result parameters =>
    (result.isVoid || isValueType D result) && areValueTypes D parameters

def areValueTypes (D : Declared) : List SourceType → Bool
  | [] => true
  | t :: ts => isValueType D t && areValueTypes D ts

end

def isNumeric : SourceType → Bool
  | .prim p => p ≠ .void && p ≠ .bool && p ≠ .str
  | _ => false

structure Variable where
  name : String
  type : SourceType
  assigned : Bool
  deriving DecidableEq

abbrev Context := List Variable

namespace Context

def declares (Γ : Context) (name : String) (t : SourceType) : Bool :=
  Γ.any fun v => v.name = name && v.type = t

def holds (Γ : Context) (name : String) : Bool := Γ.any fun v => v.name = name && v.assigned

def keep (Γ : Context) (held : String → Bool) : Context :=
  Γ.map fun v => { v with assigned := held v.name }

def meet (Γ : Context) (Δs : List Context) : Context := Γ.keep fun n => Δs.all (·.holds n)

def assign (Γ : Context) (name : String) : Context :=
  Γ.map fun v => if v.name = name then { v with assigned := true } else v

def assignTo (Γ : Context) : Expr → Context
  | .var name _ => Γ.assign name
  | _ => Γ

def canRead (Γ : Context) : Expr → Bool
  | .var name t => ⟨name, t, true⟩ ∈ Γ
  | _ => true

end Context

def asValue (e : Expr) (Γ : Option Context) : Option Context := if e.type.isVoid then none else Γ

section Expressions

variable (D : Declared)

mutual

def checkExpr (Γ : Context) : Expr → Option Context
  | .literal _ t => do
    guard (isValueType D t)
    return Γ
  | .var name t => do
    guard (⟨name, t, true⟩ ∈ Γ)
    return Γ
  | .function f t => do
    guard (D.functionType? f = some t)
    return Γ
  | .unary _ operand t => do
    guard (isValueType D t)
    asValue operand (checkExpr Γ operand)
  | .binary op left right t => do
    guard (isValueType D t ∧ (op = .index → left.type = .array t))
    let Γ ← asValue left (checkExpr Γ left)
    asValue right (checkExpr Γ right)
  | .logic _ _ _ _ => none
  | .cast op operand t => do
    guard (isValueType D t ∧ op ≠ .upcast ∧ op ≠ .downcast)
    asValue operand (checkExpr Γ operand)
  | .field object index t => do
    guard (D.fieldType? object.type index = some t)
    asValue object (checkExpr Γ object)
  | .assign target value t => do
    guard (target.type = t ∧ value.type = t)
    let Γ ← checkTarget Γ target
    let Γ ← asValue value (checkExpr Γ value)
    return Γ.assignTo target
  | .compound _ target value t => do
    guard (target.type = t)
    let Γ ← checkTarget Γ target
    guard (Γ.canRead target)
    asValue value (checkExpr Γ value)
  | .step _ target t => do
    guard (target.type = t ∧ isNumeric t)
    let Γ ← checkTarget Γ target
    guard (Γ.canRead target)
    return Γ
  | .conditional condition first second t => do
    guard (condition.type = .prim .bool ∧ first.type = t ∧ second.type = t)
    let Γ ← checkExpr Γ condition
    let Γ₁ ← asValue first (checkExpr Γ first)
    let Γ₂ ← asValue second (checkExpr Γ second)
    return Γ.meet [Γ₁, Γ₂]
  | .call callee arguments t => do
    guard (callee.type = .function t (arguments.map (·.type)))
    let Γ ← checkExpr Γ callee
    checkValues Γ arguments
  | .new c arguments t => do
    guard (t = .object c ∧ D.fields? c = some (arguments.map (·.type)))
    checkValues Γ arguments
  | .newArray length t => do
    guard (isValueType D t)
    asValue length (checkExpr Γ length)
  | .native _ arguments t => do
    guard (t.isVoid ∨ isValueType D t)
    checkValues Γ arguments

def checkValues (Γ : Context) : List Expr → Option Context
  | [] => some Γ
  | e :: es => do
    let Γ ← asValue e (checkExpr Γ e)
    checkValues Γ es

def checkTarget (Γ : Context) : Expr → Option Context
  | .var name t => do
    guard (Γ.declares name t)
    return Γ
  | .field object index t => do
    guard (D.fieldType? object.type index = some t)
    asValue object (checkExpr Γ object)
  | .binary .index array index t => do
    guard (isValueType D t ∧ array.type = .array t)
    let Γ ← asValue array (checkExpr Γ array)
    asValue index (checkExpr Γ index)
  | _ => none

end

end Expressions

def checkCondition (D : Declared) (Γ : Context) (e : Expr) : Option Context := do
  guard (e.type = .prim .bool)
  checkExpr D Γ e

def checkClauses (D : Declared) (type : Option SourceType) (Γ : Context) :
    List Clause → Option Context
  | [] => some Γ
  | ⟨name, some value⟩ :: rest => do
    guard (type = none ∨ type = some value.type)
    let Γ ← asValue value (checkExpr D Γ value)
    guard (∀ v ∈ Γ, v.name ≠ name)
    checkClauses D type (Γ ++ [⟨name, value.type, true⟩]) rest
  | ⟨name, none⟩ :: rest => do
    let t ← type
    guard (∀ v ∈ Γ, v.name ≠ name)
    checkClauses D type (Γ ++ [⟨name, t, false⟩]) rest

structure Loop where
  label : Option String
  base : Context
  leaving : List Context := []
  repeating : List Context := []

def Loop.enqueue (kind : LoopJump) (Γ : Context) (l : Loop) : Loop :=
  match kind with
  | .leave => { l with leaving := l.leaving ++ [Γ] }
  | .again => { l with repeating := l.repeating ++ [Γ] }

def checkJump (kind : LoopJump) (label : Option String) (Γ : Context) :
    List Loop → Option (List Loop)
  | [] => none
  | l :: ls =>
    if label.isNone || l.label = label then some (l.enqueue kind Γ :: ls)
    else (checkJump kind label Γ ls).map (l :: ·)

def exitContext (Γ : Context) (leaving : List Context) : Option Context :=
  if leaving.isEmpty then none else some (Γ.meet leaving)

def checkLoopEnd (D : Declared) (Γ : Context) (condition : Expr) (leaving repeating : List Context) :
    Option (Option Context) :=
  if repeating.isEmpty || condition.isTrue then some (exitContext Γ leaving)
  else do
    let tested ← checkCondition D (Γ.meet repeating) condition
    return some (Γ.meet (tested :: leaving))

def checkReturn (D : Declared) (result : Option SourceType) (Γ : Context) (value : Option Expr) :
    Option Unit :=
  match result, value with
  | none, _ => none
  | some t, none => guard t.isVoid
  | some t, some e => do
    guard (e.type = t)
    let _ ← asValue e (checkExpr D Γ e)

def isSignature (D : Declared) (f : FunctionDecl) : Bool :=
  isValueType D f.type && (f.parameters.map (·.name)).Nodup

def parameterContext (ps : List Slot) : Context := ps.map fun p => ⟨p.name, p.type, true⟩

mutual

/-- The context after a scope, unless control never gets past it, and the loops around it with the
jumps that are inside of it. -/
def checkScope (D : Declared) (result : Option SourceType) (ls : List Loop) (Γ : Context) :
    Scope → Option (Option Context × List Loop)
  | ⟨classes, functions, statements⟩ => do
    guard (classes.all fun c =>
      areValueTypes (D.enter classes functions) (c.fields.map (·.type)))
    guard (functions.all (isSignature (D.enter classes functions)))
    checkFunctions (D.enter classes functions) functions
    checkStmts (D.enter classes functions) result ls Γ statements

def checkFunctions (D : Declared) : List FunctionDecl → Option Unit
  | [] => some ()
  | f :: fs => do
    checkFunction D f
    checkFunctions D fs

def checkFunction (D : Declared) : FunctionDecl → Option Unit
  | ⟨_, _, result, parameters, body⟩ => do
    let (Γ, _) ← checkScope D (some result) [] (parameterContext parameters) body
    guard (Γ = none ∨ result.isVoid)

def checkStmts (D : Declared) (result : Option SourceType) (ls : List Loop) (Γ : Context) :
    List Stmt → Option (Option Context × List Loop)
  | [] => some (some Γ, ls)
  | s :: rest => do
    match ← checkStmt D result ls Γ s with
    | (some Γ, ls) => checkStmts D result ls Γ rest
    | (none, ls) => return (none, ls)

def checkStmt (D : Declared) (result : Option SourceType) (ls : List Loop) (Γ : Context) :
    Stmt → Option (Option Context × List Loop)
  | .scope body => do
    let (Δ, ls) ← checkScope D result ls Γ body
    return (Δ.map fun Δ => Γ.meet [Δ], ls)
  | .jump kind label => do
    let ls ← checkJump kind label Γ ls
    return (none, ls)
  | .define type clauses => do
    guard (∀ t ∈ type, isValueType D t)
    let Γ ← checkClauses D type Γ clauses
    return (some Γ, ls)
  | .loop kind label condition body =>
    if kind = .testFirst && !condition.isTrue then do
      let Γ ← checkCondition D Γ condition
      let (_, ls) ← checkScope D result (⟨label, Γ, [], []⟩ :: ls) Γ body
      return (some Γ, ls.tail)
    else do
      match ← checkScope D result (⟨label, Γ, [], []⟩ :: ls) Γ body with
      | (_, []) => none
      | (Δ, ⟨_, _, leaving, repeating⟩ :: ls) =>
        return (← checkLoopEnd D Γ condition leaving (repeating ++ Δ.toList), ls)
  | .expr value => do
    let Γ ← checkExpr D Γ value
    return (some Γ, ls)
  | .cond condition first second => do
    let Γ ← checkCondition D Γ condition
    let (Γ₁, ls) ← checkArm D result ls Γ first
    let (Γ₂, ls) ← checkArm D result ls Γ second
    return (exitContext Γ (Γ₁.toList ++ Γ₂.toList), ls)
  | .ret value => do
    checkReturn D result Γ value
    return (none, ls)

def checkArm (D : Declared) (result : Option SourceType) (ls : List Loop) (Γ : Context) :
    Option Scope → Option (Option Context × List Loop)
  | some body => checkScope D result ls Γ body
  | none => some (some Γ, ls)

end

end Analysis

open Analysis

/-- The program as analysis hands it on. All classes and functions are distinct, and all code that
control can come to passes the checks. -/
structure Program.Analysed (p : Program) : Prop where
  functions : p.DistinctFunctions
  classes : p.DistinctClasses
  body : (checkScope {} none [] [] p.body).isSome = true

instance (p : Program) : Decidable p.Analysed :=
  decidable_of_iff
    (p.DistinctFunctions ∧ p.DistinctClasses ∧ (checkScope {} none [] [] p.body).isSome = true)
    ⟨fun ⟨h, h', h''⟩ => ⟨h, h', h''⟩, fun ⟨h, h', h''⟩ => ⟨h, h', h''⟩⟩

end BlockGraph
