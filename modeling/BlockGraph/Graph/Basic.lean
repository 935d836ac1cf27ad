import BlockGraph.Graph.Block

namespace BlockGraph

inductive Origin where
  | ofClass (name : String)
  | ofContext
  | ofReturn
  deriving DecidableEq

structure Layout where
  fields : List ValueType
  origin : Origin
  deriving DecidableEq

structure Graph where
  blocks : List Block := []
  layouts : List Layout := []
  deriving DecidableEq

namespace Graph

def block? (g : Graph) (b : BlockId) : Option Block := g.blocks[b.index]?

def block (g : Graph) (b : BlockId) : Except Fault Block :=
  match g.block? b with
  | some block => .ok block
  | none => .error (.noSuchBlock b)

def layout? (g : Graph) (l : LayoutId) : Option Layout := g.layouts[l.index]?

def layout (g : Graph) (l : LayoutId) : Except Fault Layout :=
  match g.layout? l with
  | some layout => .ok layout
  | none => .error (.noSuchLayout l)

def modifyBlock (g : Graph) (b : BlockId) (f : Block → Block) : Graph :=
  { g with blocks := g.blocks.modify b.index f }

def modifyLayout (g : Graph) (l : LayoutId) (f : Layout → Layout) : Graph :=
  { g with layouts := g.layouts.modify l.index f }

end Graph

end BlockGraph
