import BlockGraph.Lowering.Basic

namespace BlockGraph.Lowering

open Builder

inductive Place where
  | var (name : String)
  | field (index : Nat)
  | element

def readSymbol (b : BlockId) (name : String) : BuildM Register := do
  match (← locals b).symbols.get? name with
  | some ⟨_, some r⟩ => return r
  | some ⟨_, none⟩ => throw (.uninitializedSymbol name)
  | none => throw (.unknownSymbol name)

def expectObject (b : BlockId) (r : Register) : BuildM Unit := do
  match ← typeOf b r with
  | .object _ => return ()
  | t => throw (.notAnObject t)

def load (b : BlockId) (place : Place) (type : ValueType) : BuildM Unit := do
  match place with
  | .var name =>
    let _ ← copy b (← readSymbol b name)
  | .field index =>
    let object ← peek b 0
    let _ ← emit b (.getField object index) type
  | .element =>
    let array ← peek b 1
    let index ← peek b 0
    let _ ← emit b (.getIndex array index) type

def store (b : BlockId) (place : Place) (value : Register) : BuildM Unit := do
  match place with
  | .var name => rebind b name value
  | .field index =>
    let object ← pop b
    let _ ← emit b (.setField object index value) (.prim .void)
  | .element =>
    match ← popMany b 2 with
    | [array, index] =>
      let _ ← emit b (.setIndex array index value) (.prim .void)
    | _ => throw (.emptyStack b)

def oneCast : ValueType → Except Fault (Option CastOp)
  | .prim .u8 => .ok none
  | .prim .u16 | .prim .u32 | .prim .u64 | .prim .s16 | .prim .s32 | .prim .s64 =>
    .ok (some .zeroExtend)
  | .prim .s8 => .ok (some .reinterpret)
  | .prim .f32 | .prim .f64 => .ok (some .unsignedToFloat)
  | t => .error (.notNumeric t)

def emitOne (b : BlockId) (type : ValueType) : BuildM Unit := do
  let one ← emit b (.literal (.u8 1)) (.prim .u8)
  match ← oneCast type with
  | none => return ()
  | some op =>
    let _ ← emit b (.cast op one) type

/-- Combine the old value of a place and the operand above it, store the result, and leave the old
or the new value in the last register. -/
def update (b : BlockId) (place : Place) (op : BinaryOp) (type : ValueType) (yieldsOld : Bool) :
    BuildM Unit := do
  match ← popMany b 2 with
  | [old, operand] =>
    let operation ← Operation.linear (.binary op) [old, operand]
    let new ← emit b operation type
    store b place new
    let _ ← copy b (if yieldsOld then old else new)
  | _ => throw (.emptyStack b)

end BlockGraph.Lowering
