import BlockGraph.Source.Literal
import BlockGraph.Source.Operator
import BlockGraph.Source.Type

namespace BlockGraph

inductive Expr where
  | literal (value : Literal) (type : SourceType)
  | var (name : String) (type : SourceType)
  | function (id : FunctionId) (type : SourceType)
  | unary (op : UnaryOp) (operand : Expr) (type : SourceType)
  | binary (op : BinaryOp) (left right : Expr) (type : SourceType)
  | logic (op : LogicOp) (left right : Expr) (type : SourceType)
  | cast (op : CastOp) (operand : Expr) (type : SourceType)
  | field (object : Expr) (index : Nat) (type : SourceType)
  | assign (target value : Expr) (type : SourceType)
  | compound (op : CompoundOp) (target value : Expr) (type : SourceType)
  | step (op : StepOp) (target : Expr) (type : SourceType)
  | conditional (condition first second : Expr) (type : SourceType)
  | call (callee : Expr) (arguments : List Expr) (type : SourceType)
  | new (classId : ClassId) (arguments : List Expr) (type : SourceType)
  | newArray (length : Expr) (type : SourceType)
  | native (name : String) (arguments : List Expr) (type : SourceType)

namespace Expr

def type : Expr → SourceType
  | .literal _ t | .var _ t | .function _ t | .unary _ _ t | .binary _ _ _ t | .logic _ _ _ t
  | .cast _ _ t | .field _ _ t | .assign _ _ t | .compound _ _ _ t | .step _ _ t
  | .conditional _ _ _ t | .call _ _ t | .new _ _ t | .newArray _ t | .native _ _ t => t

def withType (t : SourceType) : Expr → Expr
  | .literal v _ => .literal v t
  | .var n _ => .var n t
  | .function f _ => .function f t
  | .unary op a _ => .unary op a t
  | .binary op a b _ => .binary op a b t
  | .logic op a b _ => .logic op a b t
  | .cast op a _ => .cast op a t
  | .field a i _ => .field a i t
  | .assign a b _ => .assign a b t
  | .compound op a b _ => .compound op a b t
  | .step op a _ => .step op a t
  | .conditional c a b _ => .conditional c a b t
  | .call f as _ => .call f as t
  | .new c as _ => .new c as t
  | .newArray n _ => .newArray n t
  | .native n as _ => .native n as t

def isTrue : Expr → Bool
  | .literal (.bool true) _ => true
  | _ => false

def ofU8 (v : UInt8) : Expr := .literal (.u8 v) (.prim .u8)

def ofBool (v : Bool) : Expr := .literal (.bool v) (.prim .bool)

def mkUnary (op : UnaryOp) (a : Expr) : Expr := .unary op a a.type

def mkNumeric (op : NumericOp) (a b : Expr) : Expr := .binary (.numeric op) a b a.type

def mkCompare (op : CompareOp) (a b : Expr) : Expr := .binary (.compare op) a b (.prim .bool)

def mkIndex (a i : Expr) : Expr := .binary .index a i a.type.element

def mkAssign (target value : Expr) : Expr := .assign target value target.type

def mkCompound (op : CompoundOp) (target value : Expr) : Expr :=
  .compound op target value target.type

def mkStep (op : StepOp) (target : Expr) : Expr := .step op target target.type

def mkConditional (c a b : Expr) : Expr := .conditional c a b a.type

def mkCall (callee : Expr) (arguments : List Expr) : Expr :=
  .call callee arguments callee.type.result

def mkNew (c : ClassId) (arguments : List Expr) : Expr := .new c arguments (.object c)

end Expr

end BlockGraph
