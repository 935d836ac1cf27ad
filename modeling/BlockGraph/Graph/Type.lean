import BlockGraph.Graph.Id
import BlockGraph.Source.Type

namespace BlockGraph

inductive ValueType where
  | prim (p : Primitive)
  | object (layout : LayoutId)
  | array (element : ValueType)
  | blockRef (parameters : List ValueType)

namespace ValueType

mutual

def decEq : (s t : ValueType) → Decidable (s = t)
  | .prim p, .prim q =>
    if h : p = q then .isTrue (h ▸ rfl) else .isFalse fun e => by cases e; exact h rfl
  | .object l, .object k =>
    if h : l = k then .isTrue (h ▸ rfl) else .isFalse fun e => by cases e; exact h rfl
  | .array s, .array t =>
    match decEq s t with
    | .isTrue h => .isTrue (h ▸ rfl)
    | .isFalse h => .isFalse fun e => by cases e; exact h rfl
  | .blockRef ss, .blockRef ts =>
    match decEqList ss ts with
    | .isTrue h => .isTrue (h ▸ rfl)
    | .isFalse h => .isFalse fun e => by cases e; exact h rfl
  | .prim _, .object _ | .prim _, .array _ | .prim _, .blockRef _ => .isFalse nofun
  | .object _, .prim _ | .object _, .array _ | .object _, .blockRef _ => .isFalse nofun
  | .array _, .prim _ | .array _, .object _ | .array _, .blockRef _ => .isFalse nofun
  | .blockRef _, .prim _ | .blockRef _, .object _ | .blockRef _, .array _ => .isFalse nofun

def decEqList : (ss ts : List ValueType) → Decidable (ss = ts)
  | [], [] => .isTrue rfl
  | [], _ :: _ => .isFalse nofun
  | _ :: _, [] => .isFalse nofun
  | s :: ss, t :: ts =>
    match decEq s t, decEqList ss ts with
    | .isTrue h, .isTrue k => .isTrue (h ▸ k ▸ rfl)
    | .isFalse h, _ => .isFalse fun e => by cases e; exact h rfl
    | _, .isFalse k => .isFalse fun e => by cases e; exact k rfl

end

instance : DecidableEq ValueType := decEq

def isVoid : ValueType → Bool
  | .prim .void => true
  | _ => false

def object? : ValueType → Option LayoutId
  | .object l => some l
  | _ => none

def blockRef? : ValueType → Option (List ValueType)
  | .blockRef ps => some ps
  | _ => none

end ValueType

def Primitive.text : Primitive → String
  | .f32 => "fp32"
  | .f64 => "fp64"
  | p => p.sourceText

def Primitive.tag : Primitive → String
  | .void => "Void"
  | .bool => "Bool"
  | .u8 => "U8"
  | .u16 => "U16"
  | .u32 => "U32"
  | .u64 => "U64"
  | .s8 => "S8"
  | .s16 => "S16"
  | .s32 => "S32"
  | .s64 => "S64"
  | .f32 => "F32"
  | .f64 => "F64"
  | .str => "Str"

namespace ValueType

mutual

def text : ValueType → String
  | .prim p => p.text
  | .object l => l.text
  | .array element => "[" ++ element.text ++ "]"
  | .blockRef parameters => "func(" ++ Text.commaSep (texts parameters) ++ ")"

def texts : List ValueType → List String
  | [] => []
  | t :: ts => t.text :: texts ts

end

def listText (ts : List ValueType) : String := Text.commaSep (texts ts)

mutual

def tag : ValueType → String
  | .prim p => p.tag
  | .object l => "Object(StructId(" ++ toString l.index ++ "))"
  | .array element => "Array(" ++ element.tag ++ ")"
  | .blockRef parameters => "BlockRef([" ++ Text.commaSep (tags parameters) ++ "])"

def tags : List ValueType → List String
  | [] => []
  | t :: ts => t.tag :: tags ts

end

end ValueType

end BlockGraph
