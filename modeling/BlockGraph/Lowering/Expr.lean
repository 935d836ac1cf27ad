import BlockGraph.Lowering.Call
import BlockGraph.Lowering.Place

namespace BlockGraph.Lowering

open Builder

def applyLinear (b : BlockId) (op : LinearOp) (type : SourceType) : LowerM Unit := do
  let operands ← popMany b op.arity
  let type ← lowerType type
  let operation ← Operation.linear op operands
  let _ ← emit b operation type

def constructed (c : ClassId) (count : Nat) : LowerM LayoutId := do
  let id ← classLayout c
  let expected := (← layout id).fields.length
  if expected ≠ count then throw (.constructorArity id.text expected count)
  return id

def construct (b : BlockId) (id : LayoutId) (count : Nat) : BuildM Unit := do
  let values ← popMany b count
  let object ← emit b (.new id) (.object id)
  storeFields b object 0 values
  let _ ← copy b object

def expectValueCast : CastOp → Except Fault Unit
  | .upcast => .error (.objectCast .upcast)
  | .downcast => .error (.objectCast .downcast)
  | _ => .ok ()

mutual

def lowerExpr (b : BlockId) : Expr → LowerM BlockId
  | .literal value type => do
    let type ← lowerType type
    let _ ← emit b (.literal value) type
    return b
  | .var name _ => do
    let _ ← copy b (← readSymbol b name)
    return b
  | .function id _ => do
    let _ ← emitRef b (← functionEntry id).entry
    return b
  | .unary op operand type => do
    let b ← lowerExpr b operand
    pushLast b
    applyLinear b (.unary op) type
    return b
  | .binary op left right type => do
    let b ← lowerExpr b left
    pushLast b
    let b ← lowerExpr b right
    pushLast b
    applyLinear b (.binary op) type
    return b
  | .logic op _ _ _ => throw (.unloweredLogic op)
  | .cast op operand type => do
    expectValueCast op
    let b ← lowerExpr b operand
    let r ← lastRegister b
    let type ← lowerType type
    let _ ← emit b (.cast op r) type
    return b
  | .field object index type => do
    let b ← lowerExpr b object
    let r ← lastRegister b
    expectObject b r
    let type ← lowerType type
    let _ ← emit b (.getField r index) type
    return b
  | .assign target value _ => do
    let (b, place) ← lowerAddress b target
    let b ← lowerExpr b value
    let r ← lastRegister b
    store b place r
    match place with
    | .var _ => return b
    | _ =>
      let _ ← copy b r
      return b
  | .compound op target value type => do
    let type ← lowerType type
    let (b, place) ← lowerAddress b target
    load b place type
    pushLast b
    let b ← lowerExpr b value
    pushLast b
    update b place op.toBinary type false
    return b
  | .step op target type => do
    let type ← lowerType type
    let (b, place) ← lowerAddress b target
    load b place type
    pushLast b
    emitOne b type
    pushLast b
    update b place op.toBinary type true
    return b
  | .conditional condition first second _ => do
    let b ← lowerExpr b condition
    let (onTrue, onFalse) ← branch b (← lastRegister b)
    let onTrue ← lowerExpr onTrue first
    pushLast onTrue
    let onFalse ← lowerExpr onFalse second
    pushLast onFalse
    let merged ← merge b onTrue onFalse
    let _ ← copy merged (← pop merged)
    return merged
  | .call callee arguments type => do
    let b ← lowerExpr b callee
    pushLast b
    let b ← lowerOperands b arguments
    lowerCall b arguments.length type
  | .new c arguments _ => do
    let id ← constructed c arguments.length
    let b ← lowerOperands b arguments
    construct b id arguments.length
    return b
  | .newArray length type => do
    let b ← lowerExpr b length
    let r ← lastRegister b
    let type ← lowerType type
    let _ ← emit b (.newArray r) type
    return b
  | .native name arguments type => do
    let b ← lowerOperands b arguments
    let registers ← popMany b arguments.length
    let type ← lowerType type
    let _ ← emit b (.native name registers) type
    return b

def lowerOperands (b : BlockId) : List Expr → LowerM BlockId
  | [] => return b
  | e :: es => do
    let b ← lowerExpr b e
    pushLast b
    lowerOperands b es

def lowerAddress (b : BlockId) : Expr → LowerM (BlockId × Place)
  | .var name _ => return (b, .var name)
  | .field object index _ => do
    let b ← lowerExpr b object
    expectObject b (← lastRegister b)
    pushLast b
    return (b, .field index)
  | .binary .index array index _ => do
    let b ← lowerExpr b array
    pushLast b
    let b ← lowerExpr b index
    pushLast b
    return (b, .element)
  | _ => throw .invalidAssignTarget

end

end BlockGraph.Lowering
