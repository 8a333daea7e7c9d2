import Lisplet.Repl

/-! The command line: a conversation on the standard input and output. -/

namespace Lisplet

/-- The depth of evaluation that a conversation allows. -/
def conversationFuel : Nat := 100000

/-- Goes on with the conversation until a command or the end of the input ends it. -/
partial def converse (input output : IO.FS.Stream) (s : Session) : IO Unit := do
  let typed ← input.getLine
  let lines := Text.lines typed.toList
  match lines with
  | [] => output.putStr (Repl.unlines [Repl.farewell])
  | line :: _ =>
    match Repl.reply conversationFuel s line with
    | .goOn text s =>
      output.putStr text
      output.flush
      converse input output s
    | .stop text => output.putStr text
    | .stopped why =>
      output.putStr (Repl.unlines ["Error: " ++ why.message])
      converse input output s.resetReader

end Lisplet

def main : IO Unit := do
  let output ← IO.getStdout
  output.putStr (Lisplet.Repl.unlines Lisplet.Repl.banner)
  output.flush
  Lisplet.converse (← IO.getStdin) output .standard
