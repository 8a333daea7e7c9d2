import Lisplet.Keywords
import Lisplet.Value.Print

/-! What the special forms do with their arguments, which they are given as written. -/

namespace Lisplet

/-- Calls a procedure with arguments that are evaluated already, which are quoted so that evaluating
them gives them back.  The call is written down and evaluated, since it is by evaluating it that its
depth is counted; what stands at its head means itself, so this is the call of the procedure. -/
def applyValues (k : Keywords) (ev : Evaluation) (env : FrameId) (procedure : Value)
    (vs : List Value) : Eval Value :=
  if procedure.isProcedure then do
    let forms ← takeAll (fun v => Eval.list [.symbol k.quotes.quote, v]) vs
    let form ← Eval.list (procedure :: forms)
    ev env form
  else .fail (.notAProcedure procedure.inspect)

namespace SpecialForm

/-- The name that a special form is given. -/
def nameArg (f : SpecialForm) (v : Value) : Eval String :=
  match v.symbol? with
  | some s => pure s.name
  | none => .fail (.wrongType f.name .symbol v.inspect)

/-- The body of the first clause whose test is true.  A clause without a body gives the value of its
test. -/
def runClauses (ev : Evaluation) (env : FrameId) : List Value → Eval Value
  | [] => pure .nil
  | .pair _ test body :: clauses => do
    let v ← ev env test
    if v.isTrue then
      if body.isNil then return v else evalBody ev env body.elements
    else runClauses ev env clauses
  | clause :: _ => .fail (.wrongType SpecialForm.cond.name .clause clause.inspect)

/-- Runs a special form in a frame. -/
def run (k : Keywords) (ev : Evaluation) (env : FrameId) (f : SpecialForm) (args : List Value) :
    Eval Value :=
  match f, args with
  | .define, [name, expr] => do
    let key ← nameArg f name
    let v ← ev env expr
    Eval.set env key v
    return name
  | .assign, [name, expr] => do
    let key ← nameArg f name
    let v ← ev env expr
    if ← Eval.assign env key v then return v else .fail (.unboundUpdate key)
  | .choose, [test, yes] => do
    if (← ev env test).isTrue then ev env yes else return .nil
  | .choose, [test, yes, no] => do
    if (← ev env test).isTrue then ev env yes else ev env no
  | .cond, clauses => runClauses ev env clauses
  | .progn, exprs => evalBody ev env exprs
  | .conj, exprs => evalConj ev env (k.truth true) exprs
  | .disj, exprs => evalDisj ev env exprs
  | .label, [name, expr] => do
    let key ← nameArg f name
    let frame ← Eval.derive env
    let v ← ev frame expr
    Eval.set frame key v
    return v
  | .apply, [procedure, list] => do
    let procedure ← ev env procedure
    let list ← ev env list
    if list.isList then applyValues k ev env procedure list.elements
    else .fail (.wrongType f.name .list list.inspect)
  | .eval, [expr] => do
    let form ← ev env expr
    ev env form
  | f, args => .fail (.arity f.name f.arity args.length)

end SpecialForm

end Lisplet
