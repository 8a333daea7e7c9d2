import Lisplet.Formals.OfValue
import Lisplet.Sequence

/-! Procedures written in the language: making them, and binding their parameters. -/

namespace Lisplet.Closure

/-- The parameter list and the body of a procedure that `command` makes from its arguments. -/
def parts (command : String) (args : Value) : Except EvalError (Formals × Value) :=
  match args with
  | .pair _ params body => (Formals.ofValue command params).map (·, body)
  | _ => .error (.arity command (.atLeast 1) 0)

/-- Binds names to arguments in order, each argument passing through `take` right before it is bound.
What is left over comes back. -/
def bindFixed (take : Value → Eval Value) (frame : FrameId) (missing : EvalError) :
    List String → List Value → Eval (List Value)
  | [], args => pure args
  | _ :: _, [] => .fail missing
  | name :: names, arg :: args => do
    let v ← take arg
    Eval.set frame name v
    bindFixed take frame missing names args

/-- Binds all parameters of a procedure that `command` made in a frame. -/
def bindAll (take : Value → Eval Value) (frame : FrameId) (command : String) (formals : Formals)
    (args : List Value) : Eval Unit := do
  let wrong := .arity command formals.arity args.length
  let extra ← bindFixed take frame wrong formals.fixed args
  match formals.rest with
  | some name => do
    let vs ← takeAll take extra
    let v ← Eval.list vs
    Eval.set frame name v
  | none => if extra.isEmpty then return () else .fail wrong

/-- Calls a procedure that closes over `home`: its arguments are evaluated where it is called. -/
def callLambda (ev : Evaluation) (env : FrameId) (formals : Formals) (body : Value) (home : FrameId)
    (args : List Value) : Eval Value := do
  let frame ← Eval.derive home
  bindAll (ev env) frame "lambda" formals args
  evalBody ev frame body.elements

/-- Calls a procedure that replaces its call: its body sees the arguments as written and the frame
of the call, and what it gives is evaluated there. -/
def callMacro (ev : Evaluation) (env : FrameId) (formals : Formals) (body : Value)
    (args : List Value) : Eval Value := do
  let frame ← Eval.derive env
  bindAll pure frame "macro" formals args
  let expansion ← evalBody ev frame body.elements
  ev env expansion

end Lisplet.Closure
