/-! The lines of a text.  A line ends at a newline, and a carriage return right before the newline
belongs to the line's end. -/

namespace Lisplet.Text

/-- The line without the carriage return that ends it. -/
def dropReturn (line : List Char) : List Char :=
  match line.reverse with
  | '\r' :: front => front.reverse
  | _ => line

/-- The lines of a text whose first line continues the characters read so far, which stand in
reverse.  What follows the last newline is a line of its own, as it stands, unless it is empty. -/
def linesFrom (front : List Char) : List Char → List (List Char)
  | [] => if front.isEmpty then [] else [front.reverse]
  | c :: cs =>
    if c == '\n' then dropReturn front.reverse :: linesFrom [] cs else linesFrom (c :: front) cs

/-- The lines of a text. -/
def lines (cs : List Char) : List (List Char) := linesFrom [] cs

end Lisplet.Text
