import Lisplet.Value

/-! The two ways of comparing values: being the same object, and looking the same. -/

namespace Lisplet.Value

/-- The identity of a procedure. -/
def procedureId? : Value → Option Ident
  | .primitive id _ | .lambda id .. | .macroProc id .. => some id
  | _ => none

/-- Both are procedures, and the same one. -/
def sameProcedure (v w : Value) : Bool :=
  match v.procedureId?, w.procedureId? with
  | some i, some j => i == j
  | _, _ => false

/-- The same object; numbers are the same when they are equal numbers. -/
def same : Value → Value → Bool
  | .nil, .nil => true
  | .pair i _ _, .pair j _ _ => i == j
  | .symbol s, .symbol t => s.same t
  | .number x, .number y => x == y
  | .string i _, .string j _ => i == j
  | .extension i _, .extension j _ => i == j
  | v, w => v.sameProcedure w

/-- Equal in structure: pairs with equal heads and equal tails, and strings with the same text.  A
pair is equal to itself whatever it holds; procedures and extensions are equal to themselves only. -/
def equal : Value → Value → Bool
  | .nil, .nil => true
  | .pair i a b, .pair j c d => i == j || (a.equal c && b.equal d)
  | .symbol s, .symbol t => s.same t
  | .number x, .number y => x == y
  | .string _ s, .string _ t => s == t
  | .extension i _, .extension j _ => i == j
  | v, w => v.sameProcedure w

end Lisplet.Value
