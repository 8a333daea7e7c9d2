/-! The shortest decimal of a binary number.  A positive number `m * 2 ^ q` is what every real number
in an interval around it rounds to.  On the grid of multiples of `10 ^ k`, only the two neighbours of
the number need to be looked at; the coarsest grid on which one of them lies in the interval gives
the fewest digits, and of two such neighbours the nearer is taken. -/

namespace Lisplet.Number

/-- A decimal number `digits * 10 ^ exponent`. -/
structure Decimal where
  digits : Nat
  exponent : Int
  deriving DecidableEq

/-- A positive number `mantissa * 2 ^ exponent`; `narrow` says that the next lower number of the
format is only half as far away as the next higher one. -/
structure Binary where
  mantissa : Nat
  exponent : Int
  narrow : Bool
  deriving DecidableEq

/-- Where a number lies on a grid: it is `place / unit` steps of the grid above zero, and what
rounds to it begins `below / unit` steps under it and ends `above / unit` steps over it. -/
structure Grid where
  place : Nat
  below : Nat
  above : Nat
  unit : Nat

namespace Binary

/-- The place of a number on the grid of multiples of `10 ^ k`. -/
def onGrid (b : Binary) (k : Int) : Grid :=
  let scale := Nat.pow 2 (b.exponent - 2).toNat * Nat.pow 10 (-k).toNat
  { place := 4 * b.mantissa * scale
    below := (if b.narrow then 1 else 2) * scale
    above := 2 * scale
    unit := Nat.pow 2 (2 - b.exponent).toNat * Nat.pow 10 k.toNat }

/-- The multiple `c` of the grid's step rounds to the number; the ends of the interval do when the
mantissa is even. -/
def covers (b : Binary) (g : Grid) (c : Nat) : Bool :=
  if b.mantissa % 2 == 0 then
    g.place ≤ c * g.unit + g.below && c * g.unit ≤ g.place + g.above
  else
    g.place < c * g.unit + g.below && c * g.unit < g.place + g.above

/-- The neighbour of the number on the grid of multiples of `10 ^ k` that rounds to it, the nearer
one if both do, and the upper one if both are equally near. -/
def neighbour? (b : Binary) (k : Int) : Option Decimal :=
  let g := b.onGrid k
  let low := g.place / g.unit
  match b.covers g low, b.covers g (low + 1) with
  | false, false => none
  | true, false => some ⟨low, k⟩
  | false, true => some ⟨low + 1, k⟩
  | true, true => if 2 * (g.place % g.unit) < g.unit then some ⟨low, k⟩ else some ⟨low + 1, k⟩

/-- An exponent `k` with the number at most `10 ^ k`. -/
def topExponent (b : Binary) : Int :=
  let num := b.mantissa * Nat.pow 2 b.exponent.toNat
  let den := Nat.pow 2 (-b.exponent).toNat
  if den ≤ num then (Nat.toDigits 10 (num / den)).length
  else 1 - (Nat.toDigits 10 (den / num)).length

/-- The shortest decimal that rounds to the number.  Seventeen digits always suffice, and the search
begins at most two grids above the first digit. -/
def shortest (b : Binary) : Decimal :=
  ((List.range 20).findSome? fun (i : Nat) => b.neighbour? (b.topExponent - i)).getD ⟨0, 0⟩

end Binary

end Lisplet.Number
