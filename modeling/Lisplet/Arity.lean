/-! How many arguments a procedure takes. -/

namespace Lisplet

/-- The numbers of arguments that a procedure takes. -/
inductive Arity where
  | exactly (n : Nat)
  | atLeast (n : Nat)
  | between (low high : Nat)
  | any
  deriving DecidableEq

namespace Arity

/-- The number of arguments is admitted. -/
def admits : Arity → Nat → Bool
  | .exactly n, got => got == n
  | .atLeast n, got => n ≤ got
  | .between low high, got => low ≤ got && got ≤ high
  | .any, _ => true

/-- The numbers admitted, as an error message names them. -/
def describe : Arity → String
  | .exactly n => toString n
  | .atLeast n => "at least " ++ toString n
  | .between low high => toString low ++ " to " ++ toString high
  | .any => "any number of"

/-- The arity as a listing of procedures shows it. -/
def label : Arity → String
  | .exactly n => "Exact(" ++ toString n ++ ")"
  | .atLeast n => "AtLeast(" ++ toString n ++ ")"
  | .between low high => "Range(" ++ toString low ++ ", " ++ toString high ++ ")"
  | .any => "Any"

end Arity

end Lisplet
