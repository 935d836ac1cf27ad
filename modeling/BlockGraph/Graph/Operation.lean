import BlockGraph.Fault
import BlockGraph.Source.Literal

namespace BlockGraph

inductive Operation where
  | literal (value : Literal)
  | blockRef (target : BlockId)
  | copy (register : Register)
  | unary (op : UnaryOp) (operand : Register)
  | compare (op : CompareOp) (left right : Register)
  | numeric (op : NumericOp) (left right : Register)
  | shift (op : ShiftOp) (left right : Register)
  | concat (left right : Register)
  | identity (left right : Register)
  | getIndex (array index : Register)
  | setIndex (array index value : Register)
  | getField (object : Register) (field : Nat)
  | setField (object : Register) (field : Nat) (value : Register)
  | cast (op : CastOp) (operand : Register)
  | new (layout : LayoutId)
  | newArray (length : Register)
  | native (name : String) (arguments : List Register)
  deriving DecidableEq

structure Instruction where
  operation : Operation
  type : ValueType
  deriving DecidableEq

namespace Operation

def linear (op : LinearOp) (operands : List Register) : Except Fault Operation :=
  match op, operands with
  | .unary op, [a] => .ok (.unary op a)
  | .binary (.compare op), [a, b] => .ok (.compare op a b)
  | .binary (.numeric op), [a, b] => .ok (.numeric op a b)
  | .binary (.shift op), [a, b] => .ok (.shift op a b)
  | .binary .concat, [a, b] => .ok (.concat a b)
  | .binary .identity, [a, b] => .ok (.identity a b)
  | .binary .index, [a, b] => .ok (.getIndex a b)
  | op, operands => .error (.linearArity op.arity operands.length)

def operands : Operation → List Register
  | .literal _ | .blockRef _ | .new _ => []
  | .copy r | .unary _ r | .cast _ r | .newArray r => [r]
  | .compare _ a b | .numeric _ a b | .shift _ a b => [a, b]
  | .concat a b | .identity a b | .getIndex a b => [a, b]
  | .setIndex a i v => [a, i, v]
  | .getField o _ => [o]
  | .setField o _ v => [o, v]
  | .native _ args => args

def mapM {m : Type → Type} [Monad m] (f : Register → m Register) : Operation → m Operation
  | .literal v => pure (.literal v)
  | .blockRef b => pure (.blockRef b)
  | .copy r => return .copy (← f r)
  | .unary op r => return .unary op (← f r)
  | .compare op a b => return .compare op (← f a) (← f b)
  | .numeric op a b => return .numeric op (← f a) (← f b)
  | .shift op a b => return .shift op (← f a) (← f b)
  | .concat a b => return .concat (← f a) (← f b)
  | .identity a b => return .identity (← f a) (← f b)
  | .getIndex a i => return .getIndex (← f a) (← f i)
  | .setIndex a i v => return .setIndex (← f a) (← f i) (← f v)
  | .getField o n => return .getField (← f o) n
  | .setField o n v => return .setField (← f o) n (← f v)
  | .cast op r => return .cast op (← f r)
  | .new l => pure (.new l)
  | .newArray n => return .newArray (← f n)
  | .native n args => return .native n (← args.mapM f)

def blockRef? : Operation → Option BlockId
  | .blockRef b => some b
  | _ => none

def copy? : Operation → Option Register
  | .copy r => some r
  | _ => none

def text : Operation → String
  | .literal v => v.text
  | .blockRef b => "ref " ++ b.text
  | .copy r => r.text
  | .unary op r => op.text ++ " " ++ r.text
  | .compare op a b => a.text ++ " cmp " ++ op.text ++ " " ++ b.text
  | .numeric op a b => a.text ++ " " ++ op.text ++ " " ++ b.text
  | .shift op a b => a.text ++ " " ++ op.text ++ " " ++ b.text
  | .concat a b => "concat " ++ a.text ++ ", " ++ b.text
  | .identity a b => a.text ++ " is " ++ b.text
  | .getIndex a i => "index " ++ a.text ++ "[" ++ i.text ++ "]"
  | .setIndex a i v => "setindex " ++ a.text ++ "[" ++ i.text ++ "] = " ++ v.text
  | .getField o n => "load " ++ o.text ++ "->" ++ toString n
  | .setField o n v => "store " ++ o.text ++ "->" ++ toString n ++ " = " ++ v.text
  | .cast op r => op.text ++ " " ++ r.text
  | .new l => "new " ++ l.text
  | .newArray n => "newarray " ++ n.text
  | .native n args => "native " ++ n ++ "(" ++ Text.commaSep (args.map Register.text) ++ ")"

end Operation

end BlockGraph
