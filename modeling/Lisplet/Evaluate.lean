import Lisplet.Closure
import Lisplet.Operation
import Lisplet.SpecialForm
import Lisplet.Template

/-! The evaluation rule.  A list is a call: its head is evaluated and must give a procedure, which is
given the rest of the list as written.  Symbols mean what they are bound to, except for the reserved
symbol `quote`; everything else means itself. -/

namespace Lisplet

/-- Runs a standard procedure on the arguments of a call. -/
def Builtin.invoke (k : Keywords) (ev : Evaluation) (env : FrameId) (b : Builtin)
    (args : List Value) : Eval Value :=
  if b.arity.admits args.length then
    match b with
    | .form f => f.run k ev env args
    | .operation o => do
      let vs ← takeAll (ev env) args
      o.apply k vs
  else .fail (.arity b.name b.arity args.length)

/-- Runs a primitive procedure on the arguments of a call. -/
def Primitive.call (k : Keywords) (ev : Evaluation) (env : FrameId) (p : Primitive) (args : Value) :
    Eval Value :=
  match p with
  | .quote =>
    match args.elements with
    | [v] => pure v
    | other => .fail (.arity p.name (.exactly 1) other.length)
  | .quasiquote =>
    match args.elements with
    | [template] => Template.fill k ev env template
    | other => .fail (.arity p.name (.exactly 1) other.length)
  | .lambda =>
    match Closure.parts p.name args with
    | .ok (formals, body) => Eval.fresh fun id => .lambda id formals body env
    | .error e => .fail e
  | .macroMaker =>
    match Closure.parts p.name args with
    | .ok (formals, body) => Eval.fresh fun id => .macroProc id formals body
    | .error e => .fail e
  | .builtin b => b.invoke k ev env args.elements
  | .host _ code => k.hosts code ev env args

/-- Calls a procedure from a frame with the arguments as written. -/
def call (k : Keywords) (ev : Evaluation) (env : FrameId) (procedure args : Value) : Eval Value :=
  match procedure with
  | .primitive _ p => p.call k ev env args
  | .lambda _ formals body home => Closure.callLambda ev env formals body home args.elements
  | .macroProc _ formals body => Closure.callMacro ev env formals body args.elements
  | v => .fail (.notAProcedure v.inspect)

/-- One step of evaluation, in which `ev` evaluates the expressions inside. -/
def evalStep (k : Keywords) (ev : Evaluation) (env : FrameId) (expr : Value) : Eval Value :=
  match expr with
  | .pair _ head args => do
    let procedure ← ev env head
    call k ev env procedure args
  | .symbol s =>
    if s.same k.quotes.quote then pure k.quoteProcedure
    else do
      match ← Eval.find? env s.name with
      | some v => return v
      | none => .fail (.unknownSymbol s.name)
  | v => pure v

/-- Evaluates an expression in a frame, to a depth of at most `fuel` expressions inside each
other. -/
def eval (k : Keywords) (fuel : Nat) (env : FrameId) (expr : Value) : Eval Value :=
  match fuel with
  | 0 => .stop .fuel
  | fuel + 1 => evalStep k (eval k fuel) env expr

/-- Calls a procedure with arguments that are evaluated already. -/
def apply (k : Keywords) (fuel : Nat) (env : FrameId) (procedure : Value) (args : List Value) :
    Eval Value :=
  applyValues k (eval k fuel) env procedure args

end Lisplet
