import BlockGraph.Graph.Violation
import BlockGraph.Text.Quoted

namespace BlockGraph

inductive Level where
  | error
  | warn
  | info
  | debug
  | trace
  deriving DecidableEq

namespace Level

def rank : Level → Nat
  | .error => 1
  | .warn => 2
  | .info => 3
  | .debug => 4
  | .trace => 5

def text : Level → String
  | .error => "ERROR"
  | .warn => "WARN"
  | .info => "INFO"
  | .debug => "DEBUG"
  | .trace => "TRACE"

end Level

inductive Event where
  | fault (cause : Fault)
  | violation (found : Violation)
  | reported (diagnostic : Diagnostic)
  | lowered (blocks layouts : Nat)
  | functionBuilt (id : FunctionId) (name : String) (entry : BlockId) (returns : LayoutId)
  | blockAdded (id : BlockId) (parameters : Nat)
  | layoutAdded (id : LayoutId) (origin : Origin)
  | functionDeclared (name : String) (entry : BlockId)
  | finished (block : BlockId)
  | copiesRemoved (count : Nat)
  | layoutDefined (id : LayoutId) (fields : List ValueType)
  | emitted (block : BlockId) (register : Register) (instruction : Instruction)
  | terminated (block : BlockId)
  | symbolDefined (name : String) (type : ValueType) (block : BlockId)
  | returned (function : String) (block : BlockId)
  | captured (block : BlockId) (values : Nat) (layout : LayoutId)
  | copiesRemovedFrom (block : BlockId) (count : Nat)
  deriving DecidableEq

def Origin.tag : Origin → String
  | .ofClass name => "Class(" ++ Text.quoted name ++ ")"
  | .ofContext => "Context"
  | .ofReturn => "Return"

namespace Event

def level : Event → Level
  | .fault _ | .violation _ => .error
  | .reported _ => .warn
  | .lowered .. | .functionBuilt .. => .info
  | .blockAdded .. | .layoutAdded .. | .functionDeclared .. | .finished _ | .copiesRemoved _ =>
    .debug
  | .layoutDefined .. | .emitted .. | .terminated _ | .symbolDefined .. | .returned ..
  | .captured .. | .copiesRemovedFrom .. => .trace

def message : Event → String
  | .fault f => (Diagnostic.fault f).message
  | .violation v => v.message
  | .reported d => d.message
  | .lowered blocks layouts =>
    "Generated " ++ toString blocks ++ " block(s) and " ++ toString layouts ++ " struct(s)"
  | .functionBuilt id name entry returns =>
    "Function FunctionId(" ++ toString id.index ++ ") '" ++ name ++ "' enters at " ++ entry.text ++
      " and returns through " ++ returns.text
  | .blockAdded id n => "Allocate " ++ id.text ++ " with " ++ toString n ++ " parameter(s)"
  | .layoutAdded id origin => "Allocate " ++ id.text ++ " for " ++ origin.tag
  | .functionDeclared name entry => "Function '" ++ name ++ "' enters at " ++ entry.text
  | .finished b => b.text ++ " is final"
  | .copiesRemoved n => "Removed " ++ toString n ++ " mirror instruction(s)"
  | .layoutDefined id fields =>
    id.text ++ " has fields [" ++ Text.commaSep (ValueType.tags fields) ++ "]"
  | .emitted b r i => b.text ++ ": " ++ r.text ++ " " ++ i.type.text ++ " := " ++ i.operation.text
  | .terminated b => b.text ++ ": terminated"
  | .symbolDefined name type b => "Define '" ++ name ++ "' as " ++ type.text ++ " in " ++ b.text
  | .returned name b => "Return from '" ++ name ++ "' in " ++ b.text
  | .captured b n l => b.text ++ " captures " ++ toString n ++ " value(s) into " ++ l.text
  | .copiesRemovedFrom b n => b.text ++ ": removed " ++ toString n ++ " mirror(s)"

end Event

end BlockGraph
