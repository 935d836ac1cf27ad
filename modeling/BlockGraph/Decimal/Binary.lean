namespace BlockGraph.Decimal

structure Format where
  fraction : Nat
  exponent : Nat

def binary32 : Format := ⟨23, 8⟩

def binary64 : Format := ⟨52, 11⟩

/-- The positive number `significand * 2 ^ scale`. It is `narrow` if it is a power of two whose
neighbour below is only half as far away as the one above. -/
structure Binary where
  significand : Nat
  scale : Int
  narrow : Bool

inductive Magnitude where
  | nan
  | infinite
  | zero
  | finite (value : Binary)

namespace Format

def bias (f : Format) : Nat := Nat.pow 2 (f.exponent - 1) - 1

def negative (f : Format) (bits : Nat) : Bool :=
  bits.testBit (f.fraction + f.exponent)

def magnitude (f : Format) (bits : Nat) : Magnitude :=
  let fraction := bits % Nat.pow 2 f.fraction
  let exponent := bits / Nat.pow 2 f.fraction % Nat.pow 2 f.exponent
  if exponent = Nat.pow 2 f.exponent - 1 then
    if fraction = 0 then .infinite else .nan
  else if exponent = 0 then
    if fraction = 0 then .zero
    else .finite ⟨fraction, 1 - (f.bias : Int) - f.fraction, false⟩
  else .finite
    { significand := Nat.pow 2 f.fraction + fraction
      scale := exponent - (f.bias : Int) - f.fraction
      narrow := fraction = 0 && 1 < exponent }

end Format

end BlockGraph.Decimal
