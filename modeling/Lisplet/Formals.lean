import Lisplet.Arity

/-! Parameter lists: names that take one argument each, and perhaps a last name that takes the list
of all the others. -/

namespace Lisplet

/-- A parameter list: the names that take one argument each, and the name that takes the rest. -/
structure Formals where
  fixed : List String
  rest : Option String
  deriving DecidableEq

/-- The numbers of arguments that a parameter list takes. -/
def Formals.arity (f : Formals) : Arity :=
  match f.rest with
  | some _ => .atLeast f.fixed.length
  | none => .exactly f.fixed.length

/-- All the names that a parameter list binds, in order. -/
def Formals.names (f : Formals) : List String := f.fixed ++ f.rest.toList

end Lisplet
