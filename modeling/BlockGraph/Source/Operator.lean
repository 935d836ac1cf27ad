namespace BlockGraph

inductive UnaryOp where
  | negate
  | not
  | bitNot
  deriving DecidableEq

inductive CompareOp where
  | eq
  | ne
  | gt
  | ge
  | lt
  | le
  deriving DecidableEq

inductive NumericOp where
  | add
  | bitAnd
  | bitOr
  | bitXor
  | div
  | mod
  | mul
  | sub
  deriving DecidableEq

inductive ShiftOp where
  | arithmetic
  | left
  | right
  deriving DecidableEq

/-- Short-circuiting logic. Analysis turns it into control flow. -/
inductive LogicOp where
  | and
  | or
  | xor
  deriving DecidableEq

inductive CastOp where
  | downcast
  | upcast
  | floatExtend
  | floatTruncate
  | floatToSigned
  | floatToUnsigned
  | signedToFloat
  | unsignedToFloat
  | signExtend
  | truncate
  | zeroExtend
  | reinterpret
  deriving DecidableEq

inductive BinaryOp where
  | compare (op : CompareOp)
  | numeric (op : NumericOp)
  | shift (op : ShiftOp)
  | concat
  | identity
  | index
  deriving DecidableEq

inductive CompoundOp where
  | numeric (op : NumericOp)
  | shift (op : ShiftOp)
  | concat
  deriving DecidableEq

inductive StepOp where
  | increment
  | decrement
  deriving DecidableEq

inductive LinearOp where
  | unary (op : UnaryOp)
  | binary (op : BinaryOp)
  deriving DecidableEq

def CompoundOp.toBinary : CompoundOp → BinaryOp
  | .numeric op => .numeric op
  | .shift op => .shift op
  | .concat => .concat

def StepOp.toBinary : StepOp → BinaryOp
  | .increment => .numeric .add
  | .decrement => .numeric .sub

def LinearOp.arity : LinearOp → Nat
  | .unary _ => 1
  | .binary _ => 2

def UnaryOp.text : UnaryOp → String
  | .negate => "negate"
  | .not => "not"
  | .bitNot => "bnot"

def CompareOp.text : CompareOp → String
  | .eq => "eq"
  | .ne => "ne"
  | .gt => "gt"
  | .ge => "ge"
  | .lt => "lt"
  | .le => "le"

def NumericOp.text : NumericOp → String
  | .add => "add"
  | .bitAnd => "and"
  | .bitOr => "or"
  | .bitXor => "xor"
  | .div => "div"
  | .mod => "rem"
  | .mul => "mul"
  | .sub => "sub"

def ShiftOp.text : ShiftOp → String
  | .arithmetic => "ashr"
  | .left => "shl"
  | .right => "lshr"

def LogicOp.text : LogicOp → String
  | .and => "&&"
  | .or => "||"
  | .xor => "^^"

def CastOp.text : CastOp → String
  | .downcast => "downcast"
  | .upcast => "upcast"
  | .floatExtend => "fpext"
  | .floatTruncate => "fptrunc"
  | .floatToSigned => "fptosi"
  | .floatToUnsigned => "fptoui"
  | .signedToFloat => "sitofp"
  | .unsignedToFloat => "uitofp"
  | .signExtend => "sext"
  | .truncate => "trunc"
  | .zeroExtend => "zext"
  | .reinterpret => "bitcast"

end BlockGraph
