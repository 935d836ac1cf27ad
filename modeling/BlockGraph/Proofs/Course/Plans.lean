import BlockGraph.Proofs.Lowering.Closed

/-!
The course of lowering. A task is a call of one of the functions that lower a part of a program, and
its plan says which other tasks it calls, and what it does to the state before, between and after
them. A run of the plan is a run of the function, so the points that the plan passes are those that
the function passes, also if it fails in the end.
-/

namespace BlockGraph.Lowering

open Builder

inductive Task : Type → Type
  | type (t : SourceType) : Task ValueType
  | types (ts : List SourceType) : Task (List ValueType)
  | expr (b : BlockId) (e : Expr) : Task BlockId
  | operands (b : BlockId) (es : List Expr) : Task BlockId
  | address (b : BlockId) (e : Expr) : Task (BlockId × Place)
  | call (b : BlockId) (count : Nat) (result : SourceType) : Task BlockId
  | clauses (type : Option ValueType) (b : BlockId) (cs : List Clause) : Task BlockId
  | fields (c : ClassDecl) : Task Unit
  | entry (f : FunctionDecl) : Task Unit
  | scope (frame : Option Frame) (b : BlockId) (body : Scope) : Task (Option BlockId)
  | functions (ds : List FunctionDecl) : Task Unit
  | function (d : FunctionDecl) : Task Unit
  | stmts (frame : Option Frame) (b : BlockId) (ss : List Stmt) : Task (Option BlockId)
  | stmt (frame : Option Frame) (b : BlockId) (s : Stmt) : Task (Option BlockId)
  | arm (frame : Option Frame) (b : BlockId) (body : Option Scope) : Task (Option BlockId)
  | program (p : Program) : Task BlockId

/-- What a task does, with the tasks that it calls. -/
inductive Plan : Type → Type 1
  | act {α : Type} (x : LowerM α) : Plan α
  | call {α : Type} (x : Task α) : Plan α
  | bind {α β : Type} (c : Plan α) (f : α → Plan β) : Plan β

namespace Plan

instance : Monad Plan where
  pure a := act (pure a)
  bind := bind

instance : MonadLift LowerM Plan := ⟨act⟩

def each {α : Type} (f : α → Plan Unit) : List α → Plan Unit
  | [] => pure ()
  | a :: as => do
    f a
    each f as

end Plan

/-! The plans. They differ from the functions in that other tasks are called by their names. -/

section Plans

open Plan (act call)

def typePlan : SourceType → Plan ValueType
  | .prim p => return .prim p
  | .object c => return .object (← classLayout c)
  | .array element => return .array (← call (.type element))
  | .function result parameters => do
    let result ← call (.type result)
    let returns ← returnLayout result
    return .blockRef (.object returns :: (← call (.types parameters)))

def typesPlan : List SourceType → Plan (List ValueType)
  | [] => return []
  | t :: ts => return (← call (.type t)) :: (← call (.types ts))

def linearPlan (b : BlockId) (op : LinearOp) (type : SourceType) : Plan Unit := do
  let operands ← popMany b op.arity
  let type ← call (.type type)
  act do
    let operation ← Operation.linear op operands
    let _ ← emit b operation type

def exprPlan (b : BlockId) : Expr → Plan BlockId
  | .literal value type => do
    let type ← call (.type type)
    let _ ← emit b (.literal value) type
    return b
  | .var name _ => do
    let _ ← copy b (← readSymbol b name)
    return b
  | .function id _ => act do
    let _ ← emitRef b (← functionEntry id).entry
    return b
  | .unary op operand type => do
    let b ← call (.expr b operand)
    pushLast b
    linearPlan b (.unary op) type
    return b
  | .binary op left right type => do
    let b ← call (.expr b left)
    pushLast b
    let b ← call (.expr b right)
    pushLast b
    linearPlan b (.binary op) type
    return b
  | .logic op _ _ _ => act (throw (.unloweredLogic op))
  | .cast op operand type => do
    expectValueCast op
    let b ← call (.expr b operand)
    let r ← lastRegister b
    let type ← call (.type type)
    let _ ← emit b (.cast op r) type
    return b
  | .field object index type => do
    let b ← call (.expr b object)
    let r ← lastRegister b
    expectObject b r
    let type ← call (.type type)
    let _ ← emit b (.getField r index) type
    return b
  | .assign target value _ => do
    let (b, place) ← call (.address b target)
    let b ← call (.expr b value)
    let r ← lastRegister b
    store b place r
    act do
      match place with
      | .var _ => return b
      | _ =>
        let _ ← copy b r
        return b
  | .compound op target value type => do
    let type ← call (.type type)
    let (b, place) ← call (.address b target)
    load b place type
    pushLast b
    let b ← call (.expr b value)
    pushLast b
    update b place op.toBinary type false
    return b
  | .step op target type => do
    let type ← call (.type type)
    let (b, place) ← call (.address b target)
    load b place type
    pushLast b
    emitOne b type
    pushLast b
    update b place op.toBinary type true
    return b
  | .conditional condition first second _ => do
    let b ← call (.expr b condition)
    let (onTrue, onFalse) ← act do branch b (← lastRegister b)
    let onTrue ← call (.expr onTrue first)
    pushLast onTrue
    let onFalse ← call (.expr onFalse second)
    pushLast onFalse
    let merged ← merge b onTrue onFalse
    let _ ← copy merged (← pop merged)
    return merged
  | .call callee arguments type => do
    let b ← call (.expr b callee)
    pushLast b
    let b ← call (.operands b arguments)
    call (.call b arguments.length type)
  | .new c arguments _ => do
    let id ← constructed c arguments.length
    let b ← call (.operands b arguments)
    construct b id arguments.length
    return b
  | .newArray length type => do
    let b ← call (.expr b length)
    let r ← lastRegister b
    let type ← call (.type type)
    let _ ← emit b (.newArray r) type
    return b
  | .native name arguments type => do
    let b ← call (.operands b arguments)
    let registers ← popMany b arguments.length
    let type ← call (.type type)
    let _ ← emit b (.native name registers) type
    return b

def operandsPlan (b : BlockId) : List Expr → Plan BlockId
  | [] => return b
  | e :: es => do
    let b ← call (.expr b e)
    pushLast b
    call (.operands b es)

def addressPlan (b : BlockId) : Expr → Plan (BlockId × Place)
  | .var name _ => return (b, .var name)
  | .field object index _ => do
    let b ← call (.expr b object)
    expectObject b (← lastRegister b)
    pushLast b
    return (b, .field index)
  | .binary .index array index _ => do
    let b ← call (.expr b array)
    pushLast b
    let b ← call (.expr b index)
    pushLast b
    return (b, .element)
  | _ => act (throw .invalidAssignTarget)

def suspend (b : BlockId) (arguments : List Register) (callee : Register) (returns : LayoutId)
    (result : ValueType) : LowerM BlockId := do
  let resume ← addBlock ((continuation returns result).map (⟨·, none⟩))
  let context ← packContext b resume returns
  goto b ⟨callee, context :: arguments⟩
  if !result.isVoid && (← lastRegister resume) ≠ ⟨1⟩ then
    let _ ← copy resume ⟨1⟩
  return resume

def callPlan (b : BlockId) (count : Nat) (result : SourceType) : Plan BlockId := do
  let arguments ← popMany b count
  let callee ← pop b
  let returns ← returnsThrough (← typeOf b callee)
  let result ← call (.type result)
  suspend b arguments callee returns result

def clauseTypePlan (type : Option ValueType) (c : Clause) : Plan ValueType :=
  match type, c.value with
  | some t, _ => return t
  | none, some value => call (.type value.type)
  | none, none => act (throw (.uninitializedSymbol c.name))

def clausesPlan (type : Option ValueType) (b : BlockId) : List Clause → Plan BlockId
  | [] => return b
  | c :: rest => do
    let (b, register) ← match c.value with
      | some value => do
        let b ← call (.expr b value)
        pure (b, some (← lastRegister b))
      | none => pure (b, none)
    let t ← clauseTypePlan type c
    tell (.symbolDefined c.name t b)
    define b c.name ⟨t, register⟩
    call (.clauses type b rest)

def returnValuePlan (result : ValueType) (b : BlockId) :
    Option Expr → Plan (BlockId × Option Register)
  | some value => do
    act do
      if result.isVoid then throw (.returnMismatch result)
    let b ← call (.expr b value)
    return (b, some (← lastRegister b))
  | none => act do
    if !result.isVoid then throw (.returnMismatch result)
    return (b, none)

def returnPlan (frame : Option Frame) (b : BlockId) (value : Option Expr) : Plan Unit :=
  match frame with
  | none => act (throw .returnOutsideFunction)
  | some ⟨name, result⟩ => do
    let (b, value) ← returnValuePlan result b value
    handBack name b value

def fieldsPlan (c : ClassDecl) : Plan Unit := do
  let fields ← call (.types (c.fields.map (·.type)))
  act do defineClass (← classLayout c.id) fields

def entryPlan (f : FunctionDecl) : Plan Unit := do
  let returns ← returnLayout (← call (.type f.result))
  let types ← call (.types (f.parameters.map (·.type)))
  act do
    let slot : Parameter := ⟨.object returns, none⟩
    let parameters := f.parameters.zipWith (fun p t => Parameter.mk t (some p.name)) types
    let entry ← addBlock (slot :: parameters)
    setLocals entry { returnSlot := some ⟨0⟩ }
    defineParameters entry 1 parameters
    tell (.functionDeclared f.name entry)
    modify fun s =>
      { s with functions := s.functions.insert f.id.index { name := f.name, entry, returns } }

def scopePlan (frame : Option Frame) (b : BlockId) : Scope → Plan (Option BlockId)
  | ⟨classes, functions, statements⟩ => do
    act (classes.forM declare)
    Plan.each (fun f => call (.entry f)) functions
    Plan.each (fun c => call (.fields c)) classes
    call (.functions functions)
    call (.stmts frame b statements)

def functionsPlan : List FunctionDecl → Plan Unit
  | [] => return ()
  | f :: fs => do
    call (.function f)
    call (.functions fs)

def functionPlan : FunctionDecl → Plan Unit
  | ⟨id, name, result, _, body⟩ => do
    let entry := (← functionEntry id).entry
    let type ← call (.type result)
    let frame : Frame := ⟨name, type⟩
    let loops := (← act get).loops
    act (modify ({ · with loops := [] }))
    match ← call (.scope (some frame) entry body) with
    | some b => act do
      if result.isVoid then lowerReturn (some frame) b none
      else throw (.missingReturn name)
    | none => pure ()
    act (modify ({ · with loops }))

def stmtsPlan (frame : Option Frame) (b : BlockId) : List Stmt → Plan (Option BlockId)
  | [] => return some b
  | s :: rest => do
    match ← call (.stmt frame b s) with
    | some b => call (.stmts frame b rest)
    | none => act do
      if !rest.isEmpty then report .unreachableCode
      return none

def closePlan (b inside : BlockId) (condition : Expr) (leaving repeating : List BlockId) :
    Plan (Option BlockId) :=
  if repeating.isEmpty then act do
    if !condition.isTrue then report .unreachableLoopCondition
    exitLoop b leaving
  else if condition.isTrue then act do
    jump (← converge b repeating) inside
    exitLoop b leaving
  else do
    let tested ← call (.expr (← converge b repeating) condition)
    let (again, exit) ← act do convergeBranch b leaving tested (← lastRegister tested)
    jump again inside
    return some exit

def stmtPlan (frame : Option Frame) (b : BlockId) : Stmt → Plan (Option BlockId)
  | .scope body => do
    match ← call (.scope frame (← enter b) body) with
    | some inner => return some (← leave b inner)
    | none => return none
  | .jump kind label => act do
    lowerJump b kind label
    return none
  | .define type clauses => do
    let type ← match type with
      | some t => do
        let t ← call (.type t)
        pure (some t)
      | none => pure none
    return some (← call (.clauses type b clauses))
  | .loop kind label condition body => do
    if kind = .testFirst && !condition.isTrue then
      let test ← enter b
      let tested ← call (.expr test condition)
      let (inside, exit) ← act do branch tested (← lastRegister tested)
      pushLoop ⟨label, .known test exit⟩
      let bottom ← call (.scope frame inside body)
      popLoop
      act (bottom.forM (jump · test))
      return some exit
    else
      let inside ← enter b
      pushLoop ⟨label, .queued [] []⟩
      let bottom ← call (.scope frame inside body)
      let (leaving, repeating) ← popQueued
      closePlan b inside condition leaving (repeating ++ bottom.toList)
  | .expr value => return some (← call (.expr b value))
  | .cond condition first second => do
    let b ← call (.expr b condition)
    let (onTrue, onFalse) ← act do branch b (← lastRegister b)
    let first ← call (.arm frame onTrue first)
    let second ← call (.arm frame onFalse second)
    match first, second with
    | some first, some second => return some (← merge b first second)
    | some inner, none | none, some inner => return some (← leave b inner)
    | none, none => return none
  | .ret value => do
    returnPlan frame b value
    return none

def armPlan (frame : Option Frame) (b : BlockId) : Option Scope → Plan (Option BlockId)
  | some body => call (.scope frame b body)
  | none => return some b

def programPlan (p : Program) : Plan BlockId := do
  let _ ← returnLayout (.prim .void)
  let entry ← addBlock []
  match ← call (.scope none entry p.body) with
  | some b => finish b
  | none => pure ()
  act do
    let g := (← get).graph
    tell (.lowered g.blocks.length g.layouts.length)
    return entry

end Plans

namespace Task

def run : {α : Type} → Task α → LowerM α
  | _, .type t => lowerType t
  | _, .types ts => lowerTypes ts
  | _, .expr b e => lowerExpr b e
  | _, .operands b es => lowerOperands b es
  | _, .address b e => lowerAddress b e
  | _, .call b count result => lowerCall b count result
  | _, .clauses t b cs => lowerClauses t b cs
  | _, .fields c => defineFields c
  | _, .entry f => declareFunction f
  | _, .scope frame b body => lowerScope frame b body
  | _, .functions ds => lowerFunctions ds
  | _, .function d => lowerFunction d
  | _, .stmts frame b ss => lowerStmts frame b ss
  | _, .stmt frame b s => lowerStmt frame b s
  | _, .arm frame b body => lowerArm frame b body
  | _, .program p => lowerProgram p

def plan : {α : Type} → Task α → Plan α
  | _, .type t => typePlan t
  | _, .types ts => typesPlan ts
  | _, .expr b e => exprPlan b e
  | _, .operands b es => operandsPlan b es
  | _, .address b e => addressPlan b e
  | _, .call b count result => callPlan b count result
  | _, .clauses t b cs => clausesPlan t b cs
  | _, .fields c => fieldsPlan c
  | _, .entry f => entryPlan f
  | _, .scope frame b body => scopePlan frame b body
  | _, .functions ds => functionsPlan ds
  | _, .function d => functionPlan d
  | _, .stmts frame b ss => stmtsPlan frame b ss
  | _, .stmt frame b s => stmtPlan frame b s
  | _, .arm frame b body => armPlan frame b body
  | _, .program p => programPlan p

end Task

namespace Plan

def run : {α : Type} → Plan α → LowerM α
  | _, .act x => x
  | _, .call x => x.run
  | _, .bind c f => c.run >>= fun a => (f a).run

variable {α β : Type}

@[simp] theorem run_bind (c : Plan α) (f : α → Plan β) :
    (c >>= f).run = c.run >>= fun a => (f a).run := rfl

@[simp] theorem run_pure (a : α) : (pure a : Plan α).run = pure a := rfl

@[simp] theorem run_act (x : LowerM α) : (act x).run = x := rfl

@[simp] theorem run_call (x : Task α) : (call x).run = x.run := rfl

@[simp] theorem run_each (f : α → Plan Unit) (as : List α) :
    (each f as).run = as.forM fun a => (f a).run := by
  induction as with
  | nil => rfl
  | cons a as ih =>
    rw [each, run_bind, ih]
    rfl

end Plan

/-! A plan runs as its function does. -/

theorem run_exprPlan (b : BlockId) (e : Expr) : (exprPlan b e).run = lowerExpr b e := by
  cases e with
  | conditional condition first second type =>
    rw [lowerExpr]
    simp only [exprPlan, Plan.run_bind, Plan.run_act, bind_assoc]
    rfl
  | _ =>
    rw [lowerExpr]
    rfl

theorem run_addressPlan (b : BlockId) (e : Expr) : (addressPlan b e).run = lowerAddress b e := by
  unfold addressPlan
  split
  · rw [lowerAddress]
    rfl
  · rw [lowerAddress]
    rfl
  · rw [lowerAddress]
    rfl
  · rw [lowerAddress]
    · rfl
    all_goals assumption

theorem run_clauseTypePlan (type : Option ValueType) (c : Clause) :
    (clauseTypePlan type c).run = clauseType type c := by
  obtain ⟨name, value⟩ := c
  cases type with
  | some t => rfl
  | none => cases value <;> rfl

theorem run_clausesPlan (type : Option ValueType) (b : BlockId) (cs : List Clause) :
    (clausesPlan type b cs).run = lowerClauses type b cs := by
  cases cs with
  | nil => rfl
  | cons c rest =>
    obtain ⟨name, value⟩ := c
    rw [lowerClauses]
    cases value <;> simp only [clausesPlan, Plan.run_bind, run_clauseTypePlan] <;> rfl

theorem run_returnValuePlan (result : ValueType) (b : BlockId) (value : Option Expr) :
    (returnValuePlan result b value).run = lowerReturnValue result b value := by
  cases value with
  | none => rfl
  | some value =>
    simp only [returnValuePlan, lowerReturnValue, Plan.run_bind, Plan.run_act]
    split <;> rfl

theorem run_returnPlan (frame : Option Frame) (b : BlockId) (value : Option Expr) :
    (returnPlan frame b value).run = lowerReturn frame b value := by
  cases frame with
  | none => rfl
  | some frame =>
    simp only [returnPlan, lowerReturn, Plan.run_bind, run_returnValuePlan]
    rfl

theorem run_closePlan (b inside : BlockId) (condition : Expr) (leaving repeating : List BlockId) :
    (closePlan b inside condition leaving repeating).run =
      closeLoop b inside condition leaving repeating := by
  unfold closePlan closeLoop
  split
  · rfl
  · split
    · rfl
    · simp only [Plan.run_bind, Plan.run_act, bind_assoc]
      rfl

theorem run_scopePlan (frame : Option Frame) (b : BlockId) (S : Scope) :
    (scopePlan frame b S).run = lowerScope frame b S := by
  obtain ⟨classes, functions, statements⟩ := S
  rw [lowerScope]
  simp only [scopePlan, Plan.run_bind, Plan.run_each]
  rfl

theorem run_functionPlan (d : FunctionDecl) : (functionPlan d).run = lowerFunction d := by
  obtain ⟨id, name, result, parameters, body⟩ := d
  rw [lowerFunction]
  simp only [functionPlan, Plan.run_bind]
  refine bind_congr fun e => bind_congr fun type => bind_congr fun s => bind_congr fun _ =>
    bind_congr fun o => ?_
  cases o with
  | none => rfl
  | some c =>
    simp only [Plan.run_bind, Plan.run_act]
    split <;> rfl

theorem run_stmtsPlan (frame : Option Frame) (b : BlockId) (ss : List Stmt) :
    (stmtsPlan frame b ss).run = lowerStmts frame b ss := by
  cases ss with
  | nil => rfl
  | cons s rest =>
    rw [lowerStmts]
    exact bind_congr fun o => by cases o <;> rfl

theorem run_stmtPlan (frame : Option Frame) (b : BlockId) (S : Stmt) :
    (stmtPlan frame b S).run = lowerStmt frame b S := by
  cases S with
  | scope body =>
    rw [lowerStmt]
    refine bind_congr fun c => bind_congr fun o => ?_
    cases o <;> rfl
  | jump kind label =>
    rw [lowerStmt]
    rfl
  | define type clauses =>
    rw [lowerStmt]
    cases type with
    | none => rfl
    | some type =>
      simp only [stmtPlan, Plan.run_bind, Plan.run_pure, pure_bind, Option.mapM_some, bind_map_left]
      rfl
  | loop kind label condition body =>
    rw [lowerStmt, stmtPlan]
    split
    · simp only [Plan.run_bind, Plan.run_act, bind_assoc]
      rfl
    · simp only [Plan.run_bind, run_closePlan]
      rfl
  | expr value =>
    rw [lowerStmt]
    rfl
  | cond condition first second =>
    rw [lowerStmt]
    simp only [stmtPlan, Plan.run_bind, Plan.run_act, bind_assoc]
    refine bind_congr fun c => bind_congr fun r => bind_congr fun p => bind_congr fun o =>
      bind_congr fun o' => ?_
    cases o <;> cases o' <;> rfl
  | ret value =>
    rw [lowerStmt]
    simp only [stmtPlan, Plan.run_bind, run_returnPlan]
    rfl

theorem Task.run_plan {α : Type} (x : Task α) : x.plan.run = x.run := by
  cases x with
  | type t => cases t <;> rw [run, lowerType] <;> rfl
  | types ts => cases ts <;> rw [run, lowerTypes] <;> rfl
  | expr b e => exact run_exprPlan b e
  | operands b es => cases es <;> rw [run, lowerOperands] <;> rfl
  | address b e => exact run_addressPlan b e
  | call b count result => rfl
  | clauses t b cs => exact run_clausesPlan t b cs
  | fields c => rfl
  | entry f => rfl
  | scope frame b S => exact run_scopePlan frame b S
  | functions ds => cases ds <;> rw [run, lowerFunctions] <;> rfl
  | function d => exact run_functionPlan d
  | stmts frame b ss => exact run_stmtsPlan frame b ss
  | stmt frame b S => exact run_stmtPlan frame b S
  | arm frame b S => cases S <;> rw [run, lowerArm] <;> rfl
  | program p =>
    refine bind_congr fun l => bind_congr fun e => bind_congr fun o => ?_
    cases o <;> rfl

/-! Points. -/

/-- From the state `s` on, the plan `c` comes to the point where the plan `d` begins in the state
`t`. -/
inductive Visits : {α : Type} → Plan α → State → {β : Type} → Plan β → State → Prop
  | refl {α : Type} {c : Plan α} {s : State} : Visits c s c s
  | enter {α β : Type} {x : Task α} {d : Plan β} {s t : State} (h : Visits x.plan s d t) :
      Visits (.call x) s d t
  | first {α β γ : Type} {c : Plan α} {f : α → Plan β} {d : Plan γ} {s t : State}
      (h : Visits c s d t) : Visits (c.bind f) s d t
  | after {α β γ : Type} {c : Plan α} {f : α → Plan β} {d : Plan γ} {s t u : State} {a : α}
      (hc : Runs c.run s a u) (h : Visits (f a) u d t) : Visits (c.bind f) s d t

theorem Visits.trans {α β γ : Type} {c : Plan α} {d : Plan β} {e : Plan γ} {s t u : State}
    (h : Visits c s d t) (hd : Visits d t e u) : Visits c s e u := by
  induction h with
  | refl => exact hd
  | enter _ ih => exact .enter (ih hd)
  | first _ ih => exact .first (ih hd)
  | after hc _ ih => exact .after hc (ih hd)

theorem visits_body (p : Program) :
    Visits (.call (.program p)) {} (.call (.scope none ⟨0⟩ p.body)) initial := by
  have hstart : Runs (do let _ ← returnLayout (.prim .void); addBlock [] : LowerM BlockId) {} ⟨0⟩
      initial := rfl
  obtain ⟨l, t, hlayout, hblock⟩ := Runs.bind_iff.1 hstart
  exact .enter (.after hlayout (.after hblock (.first .refl)))

theorem visits_hoisted {frame : Option Frame} {b : BlockId} {cs : List ClassDecl} {fs : List FunctionDecl}
    {ss : List Stmt} {s t u v : State} {x y z : Unit} (hclasses : Runs (cs.forM declare) s x t)
    (hentries : Runs (fs.forM declareFunction) t y u) (hfields : Runs (cs.forM defineFields) u z v) :
    Visits (.call (.scope frame b ⟨cs, fs, ss⟩)) s (do
      Plan.call (.functions fs)
      Plan.call (.stmts frame b ss)) v := by
  have hentries' : Runs (Plan.each (fun f => .call (.entry f)) fs).run t y u := by rwa [Plan.run_each]
  have hfields' : Runs (Plan.each (fun c => .call (.fields c)) cs).run u z v := by rwa [Plan.run_each]
  exact .enter (.after hclasses (.after hentries' (.after hfields' .refl)))

/-- From the state `s` on, the task `x` ends in the state `v` before the plan `c` comes to a point in
the state `t` or ends there. -/
inductive Precedes : {α : Type} → Plan α → State → {β : Type} → Task β → State → State → Prop
  | last {α β : Type} {c : Plan α} {x : Task β} {a : α} {r : β} {s s' u v : State}
      (hx : Visits c s (.call x) s') (hv : Runs x.run s' r v) (hc : Runs c.run s a u) :
      Precedes c s x v u
  | split {α β γ δ : Type} {c : Plan α} {f : α → Plan β} {x : Task γ} {d : Plan δ} {a : α} {r : γ}
      {s s' t u v : State} (hx : Visits c s (.call x) s') (hv : Runs x.run s' r v)
      (hc : Runs c.run s a u) (h : Visits (f a) u d t) : Precedes (c.bind f) s x v t
  | enter {α β : Type} {x : Task α} {y : Task β} {s t v : State} (h : Precedes x.plan s y v t) :
      Precedes (.call x) s y v t
  | first {α β γ : Type} {c : Plan α} {f : α → Plan β} {y : Task γ} {s t v : State}
      (h : Precedes c s y v t) : Precedes (c.bind f) s y v t
  | after {α β γ : Type} {c : Plan α} {f : α → Plan β} {y : Task γ} {s t u v : State} {a : α}
      (hc : Runs c.run s a u) (h : Precedes (f a) u y v t) : Precedes (c.bind f) s y v t

end BlockGraph.Lowering
