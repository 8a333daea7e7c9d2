import Lisplet.Arity

/-! The names of the standard procedures: operations, whose arguments are evaluated before they run,
and special forms, which are given their arguments as written. -/

namespace Lisplet

/-- A relation between neighbouring numbers. -/
inductive Comparison where
  | equal
  | less
  | greater
  | lessEqual
  | greaterEqual
  deriving DecidableEq

/-- A question about the type of a value. -/
inductive Predicate where
  | null
  | atom
  | pair
  | symbol
  | number
  | string
  | procedure
  deriving DecidableEq

/-- The standard procedures whose arguments are evaluated first. -/
inductive Operation where
  | add
  | subtract
  | multiply
  | divide
  | compare (relation : Comparison)
  | car
  | cdr
  | cons
  | list
  | length
  | same
  | equal
  | test (question : Predicate)
  | negate
  | print
  | raise
  deriving DecidableEq

/-- The standard procedures that are given their arguments as written. -/
inductive SpecialForm where
  | define
  | assign
  | choose
  | cond
  | progn
  | conj
  | disj
  | label
  | apply
  | eval
  deriving DecidableEq

/-- A standard procedure. -/
inductive Builtin where
  | form (f : SpecialForm)
  | operation (o : Operation)
  deriving DecidableEq

def Comparison.name : Comparison → String
  | .equal => "="
  | .less => "<"
  | .greater => ">"
  | .lessEqual => "<="
  | .greaterEqual => ">="

def Predicate.name : Predicate → String
  | .null => "null?"
  | .atom => "atom?"
  | .pair => "pair?"
  | .symbol => "symbol?"
  | .number => "number?"
  | .string => "string?"
  | .procedure => "procedure?"

def Operation.name : Operation → String
  | .add => "+"
  | .subtract => "-"
  | .multiply => "*"
  | .divide => "/"
  | .compare relation => relation.name
  | .car => "car"
  | .cdr => "cdr"
  | .cons => "cons"
  | .list => "list"
  | .length => "length"
  | .same => "eq?"
  | .equal => "equal?"
  | .test question => question.name
  | .negate => "not"
  | .print => "print"
  | .raise => "error"

def Operation.arity : Operation → Arity
  | .add | .multiply | .list | .print | .raise => .any
  | .subtract | .divide => .atLeast 1
  | .compare _ => .atLeast 2
  | .cons | .same | .equal => .exactly 2
  | .car | .cdr | .length | .test _ | .negate => .exactly 1

def SpecialForm.name : SpecialForm → String
  | .define => "define"
  | .assign => "set!"
  | .choose => "if"
  | .cond => "cond"
  | .progn => "progn"
  | .conj => "and"
  | .disj => "or"
  | .label => "label"
  | .apply => "apply"
  | .eval => "eval"

def SpecialForm.arity : SpecialForm → Arity
  | .define | .assign | .label | .apply => .exactly 2
  | .choose => .between 2 3
  | .cond | .progn | .conj | .disj => .any
  | .eval => .exactly 1

namespace Builtin

/-- The name a standard procedure is bound under. -/
def name : Builtin → String
  | .form f => f.name
  | .operation o => o.name

def arity : Builtin → Arity
  | .form f => f.arity
  | .operation o => o.arity

def isForm : Builtin → Bool
  | .form _ => true
  | .operation _ => false

/-- The standard procedures in the order of the listing. -/
def all : List Builtin :=
  ([.define, .assign, .choose, .cond, .progn, .conj, .disj, .label, .apply, .eval].map .form) ++
  ([.add, .subtract, .multiply, .divide,
    .compare .equal, .compare .less, .compare .greater, .compare .lessEqual, .compare .greaterEqual,
    .car, .cdr, .cons, .list, .length, .same, .equal,
    .test .null, .test .atom, .test .pair, .test .symbol, .test .number, .test .string,
    .test .procedure, .negate, .print, .raise].map .operation)

/-- The standard procedure of a name. -/
def ofName? (text : String) : Option Builtin := all.find? fun b => b.name == text

theorem mem_all (b : Builtin) : b ∈ all := by
  rcases b with f | o
  · cases f <;> decide
  · cases o with
    | compare c => cases c <;> decide
    | test p => cases p <;> decide
    | _ => decide

/-- No two standard procedures have the same name. -/
theorem nodup_names : (all.map name).Nodup := by
  decide

/-- The line of the listing for a standard procedure. -/
def describe (b : Builtin) : String :=
  "BuiltinOp \x7b id: \"" ++ b.name ++ "\", op_kind: " ++
    (if b.isForm then "SpecialForm" else "Function") ++ "(<fn>), arity: " ++ b.arity.label ++ " \x7d"

end Builtin

end Lisplet
