import BlockGraph.Fault
import BlockGraph.OrderedMap

namespace BlockGraph

/-- A variable. It has no register where it does not hold a value on every path. -/
structure Symbol where
  type : ValueType
  register : Option Register
  deriving DecidableEq

abbrev SymbolTable := OrderedMap String Symbol

namespace SymbolTable

def define (t : SymbolTable) (name : String) (s : Symbol) : Except Fault SymbolTable :=
  match t.insertNew name s with
  | .ok t => .ok t
  | .error _ => .error (.duplicateSymbol name)

def rebind (t : SymbolTable) (name : String) (r : Register) : Except Fault SymbolTable :=
  match t.get? name with
  | some _ => .ok (t.modify name fun s => { s with register := some r })
  | none => .error (.unknownSymbol name)

def register? (t : SymbolTable) (name : String) : Option Register :=
  (t.get? name).bind (·.register)

end SymbolTable

structure Locals where
  returnSlot : Option Register := none
  symbols : SymbolTable := ∅
  stack : List Register := []
  deriving DecidableEq

namespace Locals

/-- Every register that holds a live value: the return slot, the variables in order, and the stack
from the bottom to the top. -/
def liveRegisters (l : Locals) : List Register :=
  l.returnSlot.toList ++ l.symbols.values.filterMap (·.register) ++ l.stack

def mapM {m : Type → Type} [Monad m] (f : Register → m Register) (l : Locals) : m Locals := do
  let returnSlot ← l.returnSlot.mapM f
  let symbols ← l.symbols.mapM fun s => return { s with register := ← s.register.mapM f }
  let stack ← l.stack.mapM f
  return { returnSlot, symbols, stack }

end Locals

end BlockGraph
