import Lisplet.Number.Shortest

/-! Decimal numerals: an optional sign, digits with at most one point among them, and an optional
power of ten.  A numeral denotes the nearest number of the binary format. -/

namespace Lisplet.Number

/-- The number that a run of decimal digits denotes. -/
def digitsValue (ds : List Char) : Nat :=
  ds.foldl (fun n c => 10 * n + (c.toNat - '0'.toNat)) 0

/-- A sign, if there is one, and what follows it. -/
def splitSign : List Char → Bool × List Char
  | '-' :: cs => (true, cs)
  | '+' :: cs => (false, cs)
  | cs => (false, cs)

/-- The exponent that ends a numeral: nothing, or a mark, a sign and at least one digit. -/
def exponent? : List Char → Option Int
  | [] => some 0
  | c :: cs =>
    if c == 'e' || c == 'E' then
      let (negative, ds) := splitSign cs
      if ds.isEmpty || !ds.all Char.isDigit then none
      else if negative then some (-(digitsValue ds : Int)) else some (digitsValue ds : Int)
    else none

/-- The decimal that a numeral without a sign denotes. -/
def unsigned? (cs : List Char) : Option Decimal :=
  let whole := cs.takeWhile Char.isDigit
  let (part, tail) :=
    match cs.dropWhile Char.isDigit with
    | '.' :: rest => (rest.takeWhile Char.isDigit, rest.dropWhile Char.isDigit)
    | rest => ([], rest)
  if whole.isEmpty && part.isEmpty then none
  else (exponent? tail).map fun e => ⟨digitsValue (whole ++ part), e - part.length⟩

/-- Positive infinity. -/
def infinity : Float := 1 / 0

/-- The result of no number. -/
def notANumber : Float := 0 / 0

/-- The nearest number of the binary format.  Every decimal from `10 ^ 310` on is infinite there, and
every decimal below `10 ^ (-330)` is zero. -/
def Decimal.toFloat (d : Decimal) : Float :=
  let top := (Nat.toDigits 10 d.digits).length + d.exponent
  if d.digits == 0 || top < -330 then 0
  else if 310 < top then infinity
  else Float.ofScientific d.digits (d.exponent < 0) d.exponent.natAbs

/-- The number with its sign reversed on request. -/
def signed (negative : Bool) (n : Float) : Float := if negative then -n else n

/-- The number that a numeral denotes. -/
def ofNumeral? (cs : List Char) : Option Float :=
  let (negative, cs) := splitSign cs
  (unsigned? cs).map fun d => signed negative d.toFloat

/-- The number that a numeral or one of the words for what is not finite denotes. -/
def ofText? (text : String) : Option Float :=
  let (negative, cs) := splitSign text.toList
  match unsigned? cs with
  | some d => some (signed negative d.toFloat)
  | none =>
    let word := String.ofList (cs.map Char.toLower)
    if word == "inf" || word == "infinity" then some (signed negative infinity)
    else if word == "nan" then some (signed negative notANumber)
    else none

/-- A text that begins like a number: a minus sign or none, a point or none, and a digit. -/
def looksNumeric (cs : List Char) : Bool :=
  let cs := match cs with | '-' :: rest => rest | _ => cs
  let cs := match cs with | '.' :: rest => rest | _ => cs
  match cs with
  | c :: _ => c.isDigit
  | [] => false

/-- The number that a word of the language denotes, if it denotes one. -/
def ofAtom? (cs : List Char) : Option Float :=
  if looksNumeric cs then ofNumeral? cs else none

end Lisplet.Number
