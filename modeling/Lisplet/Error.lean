import Lisplet.Arity
import Lisplet.Quote

/-! What can go wrong, and the wording of it. -/

namespace Lisplet

/-- Why a text cannot be read. -/
inductive Fault where
  /-- A closing parenthesis with no list to close, after the mark named if one waits there. -/
  | strayClose (after : Option QuoteKind)
  | unterminatedString
  /-- The text ended with so many lists open. -/
  | unclosedLists (count : Nat)
  /-- The text ended after a mark with no datum to it. -/
  | danglingQuote (kind : QuoteKind)
  /-- A place where no token begins. -/
  | unreadable
  deriving DecidableEq

/-- A fault, and the number of bytes of text before the place where it was noticed. -/
structure ReadError where
  fault : Fault
  offset : Nat
  deriving DecidableEq

/-- What an argument was expected to be. -/
inductive Shape where
  | number
  | list
  | symbol
  | clause
  deriving DecidableEq

/-- Why an evaluation failed.  Values are kept in their printed form. -/
inductive EvalError where
  | notAProcedure (found : String)
  | unknownSymbol (name : String)
  | unboundUpdate (name : String)
  | arity (command : String) (expected : Arity) (got : Nat)
  | badParameter (command : String) (found : String)
  | wrongType (command : String) (expected : Shape) (found : String)
  | raised (message : String)
  deriving DecidableEq

/-- Whatever can go wrong with a text. -/
inductive Error where
  | read (e : ReadError)
  | eval (e : EvalError)
  deriving DecidableEq

/-- The wording of a fault. -/
def Fault.message : Fault → String
  | .strayClose none => "unexpected ')'"
  | .strayClose (some kind) => "unexpected ')' after '" ++ kind.mark ++ "'"
  | .unterminatedString => "unterminated string literal"
  | .unclosedLists count => toString count ++ " unclosed '('"
  | .danglingQuote kind => "nothing follows '" ++ kind.mark ++ "'"
  | .unreadable => "unreadable input"

/-- The wording of a fault with its place. -/
def ReadError.message (e : ReadError) : String :=
  e.fault.message ++ " (at offset " ++ toString e.offset ++ ")"

def Shape.describe : Shape → String
  | .number => "number"
  | .list => "list"
  | .symbol => "symbol"
  | .clause => "clause list"

/-- The wording of a failed evaluation. -/
def EvalError.message : EvalError → String
  | .notAProcedure found => "not a proc: " ++ found
  | .unknownSymbol name => "unknown symbol: " ++ name
  | .unboundUpdate name => "cannot update unbound variable: " ++ name
  | .arity command expected got =>
    command ++ ": expected " ++ expected.describe ++ " arguments, got " ++ toString got
  | .badParameter command found => command ++ ": bad parameter " ++ found
  | .wrongType command expected found =>
    command ++ ": expected " ++ expected.describe ++ ", got " ++ found
  | .raised message => message

/-- The wording of an error as a user sees it. -/
def Error.message : Error → String
  | .read e => "Parse error: " ++ e.message
  | .eval e => "Evaluation error: " ++ e.message

end Lisplet
