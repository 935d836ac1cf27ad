import BlockGraph.Decimal.Style
import BlockGraph.Text.Quoted

namespace BlockGraph

inductive Literal where
  | bool (value : Bool)
  | u8 (value : UInt8)
  | u16 (value : UInt16)
  | u32 (value : UInt32)
  | u64 (value : UInt64)
  | s8 (value : Int8)
  | s16 (value : Int16)
  | s32 (value : Int32)
  | s64 (value : Int64)
  | f32 (bits : UInt32)
  | f64 (bits : UInt64)
  | str (value : String)
  | null
  deriving DecidableEq

def Literal.text : Literal → String
  | .bool true => "true"
  | .bool false => "false"
  | .u8 v => toString v.toNat
  | .u16 v => toString v.toNat
  | .u32 v => toString v.toNat
  | .u64 v => toString v.toNat
  | .s8 v => toString v.toInt
  | .s16 v => toString v.toInt
  | .s32 v => toString v.toInt
  | .s64 v => toString v.toInt
  | .f32 bits => Decimal.binary32.text Decimal.listing bits.toNat
  | .f64 bits => Decimal.binary64.text Decimal.listing bits.toNat
  | .str s => "string " ++ Text.quoted s
  | .null => "null"

end BlockGraph
