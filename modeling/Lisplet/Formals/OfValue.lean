import Lisplet.Error
import Lisplet.Value.Print

/-! Parameter lists as they are written: a list of symbols in which the last may be a star and a name,
for the list of all further arguments.  No name is bound twice. -/

namespace Lisplet.Formals

/-- A parameter: the name it binds, and whether it takes all further arguments. -/
structure Parameter where
  name : String
  isRest : Bool

/-- A star alone is a name like any other. -/
def Parameter.ofName (name : String) : Parameter :=
  match name.toList with
  | '*' :: c :: cs => ⟨String.ofList (c :: cs), true⟩
  | _ => ⟨name, false⟩

/-- Adds the parameters to a list that is valid so far, or finds the first that cannot follow. -/
def extend (f : Formals) : List Value → Except Value Formals
  | [] => .ok f
  | v :: vs =>
    match v.symbol? with
    | none => .error v
    | some s =>
      let p := Parameter.ofName s.name
      if f.rest.isSome || f.fixed.contains p.name then .error v
      else if p.isRest then extend { f with rest := some p.name } vs
      else extend { f with fixed := f.fixed ++ [p.name] } vs

/-- The parameter list that a value stands for, for a procedure that `command` makes. -/
def ofValue (command : String) (v : Value) : Except EvalError Formals :=
  if v.isList then
    match extend ⟨[], none⟩ v.elements with
    | .ok f => .ok f
    | .error found => .error (.badParameter command found.inspect)
  else .error (.badParameter command v.inspect)

end Lisplet.Formals
