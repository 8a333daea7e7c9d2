import Lisplet.Store

/-! Evaluation from outside: procedures of the host program, and several expressions in a row.  `ev`
is the evaluation of one expression in a frame. -/

namespace Lisplet

/-- Evaluates an expression in a frame. -/
abbrev Evaluation := FrameId → Value → Eval Value

/-- The code of a procedure of the host program, which is given the evaluation, the frame of the call
and the arguments as written. -/
abbrev Host := Evaluation → FrameId → Value → Eval Value

/-- Gives the arguments back as written. -/
def Host.echo : Host := fun _ _ args => pure args

/-- The value of the last of some expressions, which are evaluated in order; `nil` if there are
none. -/
def evalBody (ev : Evaluation) (env : FrameId) : List Value → Eval Value
  | [] => pure .nil
  | [e] => ev env e
  | e :: es => do
    let _ ← ev env e
    evalBody ev env es

/-- The values that `take` gives for some values, in order. -/
def takeAll (take : Value → Eval Value) : List Value → Eval (List Value)
  | [] => pure []
  | v :: vs => do
    let w ← take v
    let ws ← takeAll take vs
    return w :: ws

/-- The first value that is not true, or else the last; `last` if there are no expressions. -/
def evalConj (ev : Evaluation) (env : FrameId) (last : Value) : List Value → Eval Value
  | [] => pure last
  | e :: es => do
    let v ← ev env e
    if v.isTrue then evalConj ev env v es else return v

/-- The first value that is true; `nil` if there is none. -/
def evalDisj (ev : Evaluation) (env : FrameId) : List Value → Eval Value
  | [] => pure .nil
  | e :: es => do
    let v ← ev env e
    if v.isTrue then return v else evalDisj ev env es

end Lisplet
