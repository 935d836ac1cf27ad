import BlockGraph.Text.Basic

namespace BlockGraph

structure ClassId where
  index : Nat
  deriving DecidableEq

structure FunctionId where
  index : Nat
  deriving DecidableEq

inductive Primitive where
  | void
  | bool
  | u8
  | u16
  | u32
  | u64
  | s8
  | s16
  | s32
  | s64
  | f32
  | f64
  | str
  deriving DecidableEq

inductive SourceType where
  | prim (p : Primitive)
  | object (c : ClassId)
  | array (element : SourceType)
  | function (result : SourceType) (parameters : List SourceType)

def Primitive.sourceText : Primitive → String
  | .void => "void"
  | .bool => "bool"
  | .u8 => "u8"
  | .u16 => "u16"
  | .u32 => "u32"
  | .u64 => "u64"
  | .s8 => "s8"
  | .s16 => "s16"
  | .s32 => "s32"
  | .s64 => "s64"
  | .f32 => "f32"
  | .f64 => "f64"
  | .str => "string"

namespace SourceType

mutual

def text : SourceType → String
  | .prim p => p.sourceText
  | .object c => "class#" ++ toString c.index
  | .array element => element.text ++ "[]"
  | .function result parameters => result.text ++ "(" ++ Text.commaSep (texts parameters) ++ ")"

def texts : List SourceType → List String
  | [] => []
  | t :: ts => t.text :: texts ts

end

def isVoid : SourceType → Bool
  | .prim .void => true
  | _ => false

def element : SourceType → SourceType
  | .array t => t
  | t => t

def result : SourceType → SourceType
  | .function r _ => r
  | t => t

end SourceType

end BlockGraph
