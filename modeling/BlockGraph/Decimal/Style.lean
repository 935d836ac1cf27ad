import BlockGraph.Decimal.Shortest

namespace BlockGraph.Decimal

/-- Numbers whose first digit stands for `10 ^ e` with `least ≤ e < below` are written without an
exponent. -/
structure Style where
  least : Int
  below : Int

def listing : Style := ⟨-4, 16⟩

def zeros (n : Nat) : List Char := List.replicate n '0'

def positional (digits : List Char) (first : Int) : List Char :=
  if first < 0 then
    '0' :: '.' :: (zeros (-first - 1).toNat ++ digits)
  else
    let whole := first.toNat + 1
    if digits.length ≤ whole then digits ++ zeros (whole - digits.length) ++ ['.', '0']
    else digits.take whole ++ '.' :: digits.drop whole

def scientific (digits : List Char) (first : Int) : List Char :=
  let mantissa := match digits with
    | d :: r :: rest => d :: '.' :: r :: rest
    | short => short
  mantissa ++ 'e' :: (toString first).toList

def Numeral.text (s : Style) (d : Numeral) : String :=
  let digits := Nat.toDigits 10 d.digits
  let first := d.exponent + (digits.length : Int) - 1
  String.ofList <|
    if s.least ≤ first ∧ first < s.below then positional digits first
    else scientific digits first

def Format.text (f : Format) (s : Style) (bits : Nat) : String :=
  let sign := if f.negative bits then "-" else ""
  match f.magnitude bits with
  | .nan => "NaN"
  | .infinite => sign ++ "inf"
  | .zero => sign ++ "0.0"
  | .finite b => sign ++ b.shortest.text s

end BlockGraph.Decimal
