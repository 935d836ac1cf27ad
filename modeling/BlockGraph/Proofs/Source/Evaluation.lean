import BlockGraph.Proofs.Source.Flow

/-!
What a program does, over any meaning of its literals, operators and native routines. Expressions
are evaluated from left to right in the variables of the current call; calls and rounds of loops use
up fuel, so that evaluation always comes to an end.
-/

namespace BlockGraph

/-- What an operation gets to know of a type. Types that differ only in their classes or in the
parameters and results of functions are alike to it. -/
inductive Kind where
  | prim (p : Primitive)
  | object
  | array (element : Kind)
  | function
  deriving DecidableEq

def SourceType.kind : SourceType → Kind
  | .prim p => .prim p
  | .object _ => .object
  | .array element => .array element.kind
  | .function _ _ => .function

/-- The meaning of everything that a program does not define itself. Operations can fail, and they
can change a state: a heap with objects and arrays, a trace of effects. -/
structure Interpretation where
  Value : Type
  State : Type
  literal : Literal → Value
  function : FunctionId → Value
  void : Value
  unary : UnaryOp → Kind → Value → State → Option (Value × State)
  binary : BinaryOp → Kind → Value → Value → State → Option (Value × State)
  cast : CastOp → Kind → Value → State → Option (Value × State)
  getField : Nat → Kind → Value → State → Option (Value × State)
  setField : Nat → Value → Value → State → Option State
  setElement : Value → Value → Value → State → Option State
  new : ClassId → State → Option (Value × State)
  newArray : Kind → Value → State → Option (Value × State)
  native : String → Kind → List Value → State → Option (Value × State)
  truth : Value → Option Bool
  callee : Value → Option FunctionId
  truth_literal : ∀ b, truth (literal (.bool b)) = some b
  callee_function : ∀ f, callee (function f) = some f

namespace Interpretation

variable (I : Interpretation)

abbrev Variables := String → Option (Option I.Value)

inductive Outcome (α : Type) where
  | done (a : α) (vs : I.Variables) (state : I.State)
  | failed (state : I.State)
  | unfinished (state : I.State)

def Eval (α : Type) : Type := I.Variables → I.State → I.Outcome α

instance : Monad I.Eval where
  pure a vs σ := .done a vs σ
  bind x f vs σ :=
    match x vs σ with
    | .done a vs σ => f a vs σ
    | .failed σ => .failed σ
    | .unfinished σ => .unfinished σ

variable {I}

def fail {α : Type} : I.Eval α := fun _ σ => .failed σ

def suspend {α : Type} : I.Eval α := fun _ σ => .unfinished σ

def perform {α : Type} (f : I.State → Option (α × I.State)) : I.Eval α := fun vs σ =>
  match f σ with
  | some (a, σ') => .done a vs σ'
  | none => .failed σ

def update (f : I.State → Option I.State) : I.Eval Unit := perform fun σ => (f σ).map ((), ·)

def choose (v : I.Value) : I.Eval Bool :=
  match I.truth v with
  | some side => pure side
  | none => fail

def visible : I.Eval I.Variables := fun vs σ => .done vs vs σ

def readVar (name : String) : I.Eval I.Value := fun vs σ =>
  match vs name with
  | some (some v) => .done v vs σ
  | _ => .failed σ

def declareVar (name : String) (v : Option I.Value) : I.Eval Unit := fun vs σ =>
  .done () (Function.update vs name (some v)) σ

def assignVar (name : String) (v : I.Value) : I.Eval Unit := do
  match (← visible) name with
  | some _ => declareVar name (some v)
  | none => fail

theorem assignVar_of_isSome {vs : I.Variables} {name : String} (h : (vs name).isSome = true)
    (v : I.Value) (σ : I.State) :
    assignVar name v vs σ = .done () (Function.update vs name (some (some v))) σ := by
  obtain ⟨x, hx⟩ := Option.isSome_iff_exists.1 h
  change (match vs name with
    | some _ => declareVar name (some v)
    | none => fail : I.Eval Unit) vs σ = _
  rw [hx]
  rfl

def Variables.within (outer inner : I.Variables) : I.Variables := fun n =>
  if (outer n).isSome then inner n else none

def restrict (outer : I.Variables) : I.Eval Unit := fun vs σ => .done () (outer.within vs) σ

def inCall {α : Type} (vs : I.Variables) (x : I.Eval α) : I.Eval α := fun vs₀ σ =>
  match x vs σ with
  | .done a _ σ => .done a vs₀ σ
  | .failed σ => .failed σ
  | .unfinished σ => .unfinished σ

variable (I) in
inductive Place where
  | var (name : String)
  | field (object : I.Value) (index : Nat)
  | element (array index : I.Value)

def loadPlace (k : Kind) : I.Place → I.Eval I.Value
  | .var name => readVar name
  | .field object index => perform (I.getField index k object)
  | .element array index => perform (I.binary .index k array index)

def storePlace (v : I.Value) : I.Place → I.Eval Unit
  | .var name => assignVar name v
  | .field object index => update (I.setField index object v)
  | .element array index => update (I.setElement array index v)

def fill (object : I.Value) : Nat → List I.Value → I.Eval Unit
  | _, [] => pure ()
  | n, v :: vs => do
    update (I.setField n object v)
    fill object (n + 1) vs

def one (k : Kind) : I.Eval I.Value :=
  match k with
  | .prim .u8 => pure (I.literal (.u8 1))
  | .prim .u16 | .prim .u32 | .prim .u64 | .prim .s16 | .prim .s32 | .prim .s64 =>
    perform (I.cast .zeroExtend k (I.literal (.u8 1)))
  | .prim .s8 => perform (I.cast .reinterpret k (I.literal (.u8 1)))
  | .prim .f32 | .prim .f64 => perform (I.cast .unsignedToFloat k (I.literal (.u8 1)))
  | _ => fail

def resultOf (t : SourceType) : Option I.Value → I.Eval I.Value
  | none => if t.isVoid then pure I.void else fail
  | some v => if t.isVoid then fail else pure v

variable (I) in
inductive Exit where
  | normal
  | jump (j : Jump)
  | ret (value : Option I.Value)

variable (I) in
inductive Round where
  | next
  | out (exit : I.Exit)

/-- How the body of a loop ends a round. A jump of this loop leaves all scopes inside of it. -/
def endRound (label : Option String) (outer : I.Variables) : I.Exit → I.Eval I.Round
  | .normal => pure .next
  | .ret value => pure (.out (.ret value))
  | .jump j =>
    if j.means label then do
      restrict outer
      match j.kind with
      | .leave => return .out .normal
      | .again => return .next
    else pure (.out (.jump j))

def rounds (test : I.Eval Bool) (round : I.Eval I.Round) : Nat → I.Eval I.Exit
  | 0 => suspend
  | n + 1 => do
    match ← round with
    | .out exit => return exit
    | .next => if ← test then rounds test round n else return .normal

def tested (test : I.Eval Bool) (round : I.Eval I.Round) (n : Nat) : I.Eval I.Exit := do
  if ← test then rounds test round n else return .normal

def returned : I.Exit → I.Eval (Option I.Value)
  | .normal => pure none
  | .ret value => pure value
  | .jump _ => fail

def parameters (ps : List Slot) (arguments : List I.Value) : I.Variables := fun n =>
  (((ps.map (·.name)).zip arguments).lookup n).map some

section Code

variable (p : Program) (call : FunctionDecl → List I.Value → I.Eval (Option I.Value)) (fuel : Nat)

mutual

def evalExpr : Expr → I.Eval I.Value
  | .literal value _ => pure (I.literal value)
  | .var name _ => readVar name
  | .function f _ => pure (I.function f)
  | .unary op operand t => do
    let v ← evalExpr operand
    perform (I.unary op t.kind v)
  | .binary op left right t => do
    let v ← evalExpr left
    let w ← evalExpr right
    perform (I.binary op t.kind v w)
  | .logic _ _ _ _ => fail
  | .cast op operand t => do
    let v ← evalExpr operand
    perform (I.cast op t.kind v)
  | .field object index t => do
    let v ← evalExpr object
    perform (I.getField index t.kind v)
  | .assign target value _ => do
    let place ← evalPlace target
    let v ← evalExpr value
    storePlace v place
    return v
  | .compound op target value t => do
    let place ← evalPlace target
    let old ← loadPlace t.kind place
    let v ← evalExpr value
    let new ← perform (I.binary op.toBinary t.kind old v)
    storePlace new place
    return new
  | .step op target t => do
    let place ← evalPlace target
    let old ← loadPlace t.kind place
    let step ← one t.kind
    let new ← perform (I.binary op.toBinary t.kind old step)
    storePlace new place
    return old
  | .conditional condition first second _ => do
    let v ← evalExpr condition
    if ← choose v then evalExpr first else evalExpr second
  | .call callee arguments t => do
    let f ← evalExpr callee
    let vs ← evalExprs arguments
    match (I.callee f).bind p.function? with
    | none => fail
    | some d => resultOf t (← call d vs)
  | .new c arguments _ => do
    let vs ← evalExprs arguments
    let object ← perform (I.new c)
    fill object 0 vs
    return object
  | .newArray length t => do
    let v ← evalExpr length
    perform (I.newArray t.kind v)
  | .native name arguments t => do
    let vs ← evalExprs arguments
    perform (I.native name t.kind vs)

def evalExprs : List Expr → I.Eval (List I.Value)
  | [] => pure []
  | e :: es => do
    let v ← evalExpr e
    let vs ← evalExprs es
    return v :: vs

def evalPlace : Expr → I.Eval I.Place
  | .var name _ => pure (.var name)
  | .field object index _ => do
    let v ← evalExpr object
    return .field v index
  | .binary .index array index _ => do
    let v ← evalExpr array
    let w ← evalExpr index
    return .element v w
  | _ => fail

end

def execClauses : List Clause → I.Eval Unit
  | [] => pure ()
  | ⟨name, none⟩ :: rest => do
    declareVar name none
    execClauses rest
  | ⟨name, some value⟩ :: rest => do
    let v ← evalExpr p call value
    declareVar name (some v)
    execClauses rest

def evalReturn : Option Expr → I.Eval (Option I.Value)
  | none => pure none
  | some e => do
    let v ← evalExpr p call e
    return some v

def evalCondition (e : Expr) : I.Eval Bool := do
  let v ← evalExpr p call e
  choose v

mutual

def execScope : Scope → I.Eval I.Exit
  | ⟨_, _, statements⟩ => do
    let outer ← visible
    match ← execStmts statements with
    | .normal =>
      restrict outer
      return .normal
    | exit => return exit

def execStmts : List Stmt → I.Eval I.Exit
  | [] => pure .normal
  | s :: rest => do
    match ← execStmt s with
    | .normal => execStmts rest
    | exit => return exit

def execStmt : Stmt → I.Eval I.Exit
  | .scope body => execScope body
  | .jump kind label => pure (.jump ⟨kind, label⟩)
  | .define _ clauses => do
    execClauses p call clauses
    return .normal
  | .loop kind label condition body => do
    let outer ← visible
    let round : I.Eval I.Round := do
      let exit ← execScope body
      endRound label outer exit
    match kind with
    | .testFirst => tested (evalCondition p call condition) round fuel
    | .testLast => rounds (evalCondition p call condition) round fuel
  | .expr value => do
    let _ ← evalExpr p call value
    return .normal
  | .cond condition first second => do
    if ← evalCondition p call condition then execArm first else execArm second
  | .ret value => do
    let v ← evalReturn p call value
    return .ret v

def execArm : Option Scope → I.Eval I.Exit
  | some body => execScope body
  | none => pure .normal

end

end Code

/-- Call a function with fuel for calls inside of calls. -/
def invoke (p : Program) : Nat → FunctionDecl → List I.Value → I.Eval (Option I.Value)
  | 0, _, _ => suspend
  | n + 1, d, arguments =>
    if arguments.length = d.parameters.length then
      inCall (parameters d.parameters arguments) do
        let exit ← execScope p (invoke p n) n d.body
        returned exit
    else fail

end Interpretation

open Interpretation

/-- Run a program with the given fuel. Nothing is in scope before it. -/
def Program.evaluate (p : Program) (I : Interpretation) (fuel : Nat) (σ : I.State) : I.Outcome Unit :=
  (do
    match ← execScope p (invoke p fuel) fuel p.body with
    | .normal => return ()
    | _ => fail : I.Eval Unit) (fun _ => none) σ

end BlockGraph
