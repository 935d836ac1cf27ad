import BlockGraph.Graph.Type
import BlockGraph.Source.Operator

namespace BlockGraph

inductive Fault where
  | shapeMismatch (expected found : BlockId)
  | edgeMismatch (source : BlockId) (expected found : String)
  | missingReturnSlot (block : BlockId)
  | noSuchRegister (block : BlockId) (register : Register)
  | noSuchBlock (block : BlockId)
  | noSuchLayout (layout : LayoutId)
  | linearArity (expected found : Nat)
  | unloweredLogic (op : LogicOp)
  | unknownSymbol (name : String)
  | uninitializedSymbol (name : String)
  | duplicateSymbol (name : String)
  | emptyStack (block : BlockId)
  | noEnclosingLoop
  | unknownLabel (label : String)
  | missingReturn (function : String)
  | returnOutsideFunction
  | returnMismatch (result : ValueType)
  | invalidAssignTarget
  | terminated (block : BlockId)
  | objectCast (op : CastOp)
  | notNumeric (type : ValueType)
  | unknownFunction (function : FunctionId)
  | unknownClass (id : ClassId)
  | constructorArity (name : String) (expected found : Nat)
  | notAnObject (type : ValueType)
  | notCallable (type : ValueType)
  deriving DecidableEq

def Fault.message : Fault → String
  | .shapeMismatch a b => b.text ++ " does not have the same shape as " ++ a.text
  | .edgeMismatch b expected found =>
    "edge from " ++ b.text ++ " passes (" ++ found ++ ") to a block accepting (" ++ expected ++ ")"
  | .missingReturnSlot b => b.text ++ " has no return slot"
  | .noSuchRegister b r => b.text ++ " has no register " ++ r.text
  | .noSuchBlock b => "no such block: " ++ b.text
  | .noSuchLayout l => "no such struct: " ++ l.text
  | .linearArity expected found =>
    "linear operation expects " ++ toString expected ++ " operand(s), found " ++ toString found
  | .unloweredLogic op =>
    "logic operator '" ++ op.text ++ "' must be lowered before generating code"
  | .unknownSymbol n => "unknown symbol '" ++ n ++ "'"
  | .uninitializedSymbol n => "symbol '" ++ n ++ "' is read before it is initialized"
  | .duplicateSymbol n => "symbol '" ++ n ++ "' is already defined"
  | .emptyStack b => "operand stack of " ++ b.text ++ " is empty"
  | .noEnclosingLoop => "break or continue outside of a loop"
  | .unknownLabel l => "no enclosing loop is labeled '" ++ l ++ "'"
  | .missingReturn f => "function '" ++ f ++ "' does not return a value on every path"
  | .returnOutsideFunction => "return outside of a function"
  | .returnMismatch t => "return value does not match the result type '" ++ t.text ++ "'"
  | .invalidAssignTarget => "expression cannot be assigned to"
  | .terminated b => b.text ++ " is already terminated"
  | .objectCast op => "unsupported object cast '" ++ op.text ++ "'"
  | .notNumeric t => "type '" ++ t.text ++ "' is not numeric"
  | .unknownFunction f => "unknown function FunctionId(" ++ toString f.index ++ ")"
  | .unknownClass c => "unknown class ClassId(" ++ toString c.index ++ ")"
  | .constructorArity n expected found =>
    "constructor of '" ++ n ++ "' expects " ++ toString expected ++ " argument(s), found " ++
      toString found
  | .notAnObject t => "cannot access a field of type '" ++ t.text ++ "'"
  | .notCallable t => "type '" ++ t.text ++ "' is not callable"

inductive Diagnostic where
  /-- A variable has a value on some of the paths into a block, but not on all of them. -/
  | lossOfValue (name : String)
  | unreachableCode
  | unreachableLoopCondition
  | fault (cause : Fault)
  deriving DecidableEq

namespace Diagnostic

def isWarning : Diagnostic → Bool
  | .fault _ => false
  | _ => true

def message : Diagnostic → String
  | .lossOfValue n => "possible loss of value in variable '" ++ n ++ "'"
  | .unreachableCode => "unreachable code"
  | .unreachableLoopCondition => "loop condition is unreachable"
  | .fault f => "internal compiler error: " ++ f.message

end Diagnostic

end BlockGraph
