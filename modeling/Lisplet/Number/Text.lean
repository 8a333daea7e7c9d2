import Lisplet.Number.Shortest

/-! The text of a number: the shortest decimal that reads back as the number, written out in full
without a power of ten. -/

namespace Lisplet.Number

/-- The parts of a number's binary form. -/
inductive Parts where
  | nan
  | infinite (negative : Bool)
  | zero (negative : Bool)
  | finite (negative : Bool) (b : Binary)

/-- Takes the binary form of a number apart: a sign, eleven bits of exponent and fifty-two bits of
fraction. -/
def parts (n : Float) : Parts :=
  let bits := n.toBits.toNat
  let negative := bits / 0x8000000000000000 == 1
  let biased := bits / 0x10000000000000 % 0x800
  let fraction := bits % 0x10000000000000
  if biased == 0x7ff then
    if fraction == 0 then .infinite negative else .nan
  else if biased == 0 then
    if fraction == 0 then .zero negative else .finite negative ⟨fraction, -1074, false⟩
  else .finite negative
    ⟨0x10000000000000 + fraction, Int.ofNat biased - 1075, fraction == 0 && biased != 1⟩

/-- A decimal written out in full. -/
def Decimal.chars (d : Decimal) : List Char :=
  let ds := Nat.toDigits 10 d.digits
  let point := (ds.length : Int) + d.exponent
  if 0 ≤ d.exponent then ds ++ List.replicate d.exponent.toNat '0'
  else if 0 < point then ds.take point.toNat ++ '.' :: ds.drop point.toNat
  else '0' :: '.' :: List.replicate (-point).toNat '0' ++ ds

/-- A minus sign on request. -/
def signChars (negative : Bool) : List Char := if negative then ['-'] else []

/-- The text of a number with the sign of a zero kept. -/
def fullChars (n : Float) : List Char :=
  match parts n with
  | .nan => ['N', 'a', 'N']
  | .infinite negative => signChars negative ++ ['i', 'n', 'f']
  | .zero negative => signChars negative ++ ['0']
  | .finite negative b => signChars negative ++ b.shortest.chars

/-- The text of a number as a value: a zero has no sign. -/
def chars (n : Float) : List Char :=
  match parts n with
  | .zero _ => ['0']
  | _ => fullChars n

end Lisplet.Number
