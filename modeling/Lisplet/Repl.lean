import Lisplet.Session
import Lisplet.Text.Blank
import Lisplet.Text.Lines

/-! The conversation with a user who types lines.  Each line is a command, if nothing has begun that it
could belong to, or a piece of text for the session. -/

namespace Lisplet.Repl

/-- The lines that open the conversation. -/
def banner : List String :=
  ["sexpr v0.1.0", "Type expressions to evaluate them, :help for commands, Ctrl+D to exit.", ""]

def farewell : String := "Goodbye!"

/-- The lines that explain the commands and the language. -/
def help : List String :=
  ["Commands:",
   "  :help    - Show this help message",
   "  :env     - Show global bindings",
   "  :quit    - Exit the interpreter",
   "  :exit    - Exit the interpreter",
   "",
   "Syntax:",
   "  Numbers: 42, 3.14, -5, .5",
   "  Strings: \"hello\\nworld\"",
   "  Lists: (1 2 3), '(a b), nil",
   "  Quoting: 'x, `(a ,b ,@c)",
   "  Comments: ; to end of line",
   "",
   "Examples:",
   "  (+ 1 2 3)",
   "  (define square (lambda (x) (* x x)))",
   "  (square 5)",
   "  (define when (macro (c *body) `(if ,c (progn ,@body))))",
   "  ((label fact (lambda (n) (if (< n 2) 1 (* n (fact (- n 1)))))) 10)"]

/-- What a user can ask for besides evaluation. -/
inductive Command where
  | help
  | env
  | quit
  deriving DecidableEq

/-- The command that a line without the blanks at its ends gives. -/
def Command.ofText? (text : String) : Option Command :=
  if text = ":help" then some .help
  else if text = ":env" then some .env
  else if text = ":quit" ∨ text = ":exit" then some .quit
  else none

/-- Each line with a newline after it. -/
def unlines (lines : List String) : String := String.join (lines.map (· ++ "\n"))

/-- The line that shows a global binding. -/
def bindingLine (s : Session) (name : String) : Option String :=
  (s.store.scopes.get? s.global name).map fun v =>
    if v.isProcedure then "  " ++ name ++ ": " ++ v.inspect else "  " ++ name ++ " = " ++ v.inspect

/-- The lines that show the global bindings, in the order of the names. -/
def bindings (s : Session) : List String := s.names.filterMap (bindingLine s)

/-- What a line leads to: some output and the session after it, the end of the conversation, or
nothing if its evaluation was stopped. -/
inductive Reply where
  | goOn (output : String) (s : Session)
  | stop (output : String)
  | stopped (why : Stop)

/-- Feeds a line to the session.  What is printed comes before the values; an error takes the place
of all values of the line. -/
def feedLine (fuel : Nat) (s : Session) (line : List Char) : Reply :=
  match Session.feed fuel (String.ofList (line ++ ['\n'])) s with
  | .done vs s =>
    let (printed, s) := s.takePrinted
    .goOn (printed ++ unlines (vs.map Value.inspect)) s
  | .failed e s =>
    let (printed, s) := s.takePrinted
    .goOn (printed ++ unlines ["Error: " ++ e.message]) s
  | .stopped why => .stopped why

/-- The reply to a line.  A blank line is passed over. -/
def reply (fuel : Nat) (s : Session) (line : List Char) : Reply :=
  let words := Text.trim line
  if words.isEmpty then .goOn "" s
  else
    match if s.isClean then Command.ofText? (String.ofList words) else none with
    | some .help => .goOn (unlines help) s
    | some .env => .goOn (unlines (bindings s)) s
    | some .quit => .stop (unlines [farewell])
    | none => feedLine fuel s line

/-- The output for some lines, up to the end of the conversation, if no evaluation is stopped. -/
def replies (fuel : Nat) (s : Session) : List (List Char) → Option String
  | [] => some (unlines [farewell])
  | line :: lines =>
    match reply fuel s line with
    | .goOn output s => (replies fuel s lines).map (output ++ ·)
    | .stop output => some output
    | .stopped _ => none

/-- The whole output for an input. -/
def transcript (fuel : Nat) (input : String) : Option String :=
  (replies fuel .standard (Text.lines input.toList)).map (unlines banner ++ ·)

end Lisplet.Repl
