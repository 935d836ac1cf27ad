import BlockGraph.Decimal.Binary

/-!
The shortest decimal that reads back as a given binary number. Everything is exact: a binary number
stands for the interval of reals that round to it, and a decimal is tried against the ends of that
interval.
-/

namespace BlockGraph.Decimal

def width (n : Nat) : Nat := (Nat.toDigits 10 n).length

/-- The reals that round to a binary number, in units of `1 / unit`. The ends belong to the
interval if it is `closed`. -/
structure Interval where
  low : Nat
  value : Nat
  high : Nat
  unit : Nat
  closed : Bool

def Binary.interval (b : Binary) : Interval :=
  let scale := b.scale - 2
  let up := Nat.pow 2 scale.toNat
  { low := (4 * b.significand - if b.narrow then 1 else 2) * up
    value := 4 * b.significand * up
    high := (4 * b.significand + 2) * up
    unit := Nat.pow 2 (-scale).toNat
    closed := b.significand % 2 = 0 }

namespace Interval

def exponent (i : Interval) : Int :=
  if i.unit ≤ i.value then (width (i.value / i.unit) : Int) - 1
  else -(width ((i.unit - 1) / i.value) : Int)

def scaled (i : Interval) (n d : Nat) (k : Int) : Nat × Nat :=
  (n * Nat.pow 10 (-k).toNat, d * Nat.pow 10 k.toNat * i.unit)

def contains (i : Interval) (d : Nat) (k : Int) : Bool :=
  let low := i.scaled i.low d k
  let high := i.scaled i.high d k
  if i.closed then low.1 ≤ low.2 && high.2 ≤ high.1
  else low.1 < low.2 && high.2 < high.1

def floor (i : Interval) (k : Int) : Nat :=
  i.value * Nat.pow 10 (-k).toNat / (Nat.pow 10 k.toNat * i.unit)

def upperHalf (i : Interval) (d : Nat) (k : Int) : Bool :=
  let half := i.scaled (2 * i.value) (2 * d + 1) k
  half.2 ≤ half.1

/-- Of the multiples of `10 ^ k` around the value, one in the interval; of two such the nearer, and
the upper one when both are as near. -/
def pick (i : Interval) (k : Int) : Option Nat :=
  let d := i.floor k
  match i.contains d k, i.contains (d + 1) k with
  | true, true => some (if i.upperHalf d k then d + 1 else d)
  | true, false => some d
  | false, true => some (d + 1)
  | false, false => none

end Interval

structure Numeral where
  digits : Nat
  exponent : Int

def maxDigits : Nat := 17

def Binary.shortest (b : Binary) : Numeral :=
  let i := b.interval
  let e := i.exponent
  let attempt (n : Nat) : Option Numeral :=
    let k := e - n
    (i.pick k).map fun d => if d = Nat.pow 10 (n + 1) then ⟨1, e + 1⟩ else ⟨d, k⟩
  ((List.range maxDigits).findSome? attempt).getD ⟨i.floor (e + 1 - maxDigits), e + 1 - maxDigits⟩

end BlockGraph.Decimal
