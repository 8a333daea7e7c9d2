import Lisplet.Number.Text
import Lisplet.Text.Quoted
import Lisplet.Value

/-! The printed form of values. -/

namespace Lisplet

/-- How a value is printed: plainly for a user, or so that it reads back. -/
inductive Style where
  | display
  | inspect
  deriving DecidableEq

/-- The printed form of an extension is up to the host program. -/
def Extension.chars (style : Style) (e : Extension) : List Char :=
  match style with
  | .display => e.display.toList
  | .inspect => e.inspect.toList

namespace Value

/-- The printed form of a procedure with the given name. -/
def procedureChars (name : String) : List Char := "#<procedure ".toList ++ name.toList ++ ['>']

mutual

/-- The printed form of a value.  A two-element list headed by a symbol with a reserved name is
printed as its mark and the datum. -/
def chars (style : Style) : Value → List Char
  | .nil => ['(', ')']
  | .pair _ (.symbol s) (.pair _ datum .nil) =>
    match QuoteKind.ofName? s.name with
    | some kind => kind.mark.toList ++ datum.chars style
    | none => '(' :: s.name.toList ++ ' ' :: datum.chars style ++ [')']
  | .pair _ head tail => '(' :: head.chars style ++ tail.tailChars style
  | .symbol s => s.name.toList
  | .number n => Number.chars n
  | .string _ text =>
    match style with
    | .display => text.toList
    | .inspect => Text.Quoted.encode text.toList
  | .extension _ e => e.chars style
  | .primitive _ p => procedureChars p.name
  | .lambda .. => procedureChars "lambda"
  | .macroProc .. => procedureChars "macro"

/-- The printed form of the rest of a list, up to the closing parenthesis. -/
def tailChars (style : Style) : Value → List Char
  | .pair _ head tail => ' ' :: head.chars style ++ tail.tailChars style
  | _ => [')']

end

/-- The printed form of a value as a string. -/
def text (style : Style) (v : Value) : String := String.ofList (v.chars style)

/-- The printed form that reads back. -/
def inspect (v : Value) : String := v.text .inspect

/-- The printed forms of some values for a user, with a blank between them. -/
def displayAll (vs : List Value) : String := " ".intercalate (vs.map (text .display))

end Value

end Lisplet
