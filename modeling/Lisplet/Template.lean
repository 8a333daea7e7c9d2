import Lisplet.Keywords

/-! Quasiquote templates.  A hole of a template is an element headed by `unquote` or
`unquote-splicing`; its argument is evaluated and takes its place.  Elements headed by `quote` are
left alone, and every other list inside the template is a template too. -/

namespace Lisplet.Template

/-- What an element of a template is. -/
inductive Part where
  /-- Stays as it is. -/
  | plain
  /-- A hole that the value of its argument fills. -/
  | hole (args : List Value)
  /-- A hole that the elements of the value of its argument fill. -/
  | splice (args : List Value)
  /-- A list that is searched for holes. -/
  | inner

/-- Tells what an element is by its head. -/
def part (k : Keywords) (element : Value) : Part :=
  match element with
  | .pair _ _ args =>
    if element.isForm k.quotes.quote then .plain
    else if element.isForm k.quotes.unquote then .hole args.elements
    else if element.isForm k.quotes.unquoteSplicing then .splice args.elements
    else .inner
  | _ => .plain

/-- The value that fills a hole of the given kind, which must have one argument. -/
def fillHole (ev : Evaluation) (env : FrameId) (kind : QuoteKind) (args : List Value) :
    Eval Value :=
  match args with
  | [v] => ev env v
  | _ => .fail (.arity kind.name (.exactly 1) args.length)

/-- The elements of the value of a splicing hole; a value that is no list stands for itself. -/
def spliced (v : Value) : List Value := if v.isList then v.elements else [v]

/-- The elements that take the place of the elements of a list. -/
def items (k : Keywords) (ev : Evaluation) (env : FrameId) : Value → Eval (List Value)
  | .pair _ element rest => do
    let here ←
      match part k element with
      | .plain => pure [element]
      | .hole args => do
        let v ← fillHole ev env .unquote args
        pure [v]
      | .splice args => do
        let v ← fillHole ev env .unquoteSplicing args
        pure (spliced v)
      | .inner => do
        let vs ← items k ev env element
        let v ← Eval.list vs
        pure [v]
    let others ← items k ev env rest
    pure (here ++ others)
  | _ => pure []

/-- The value of a template. -/
def fill (k : Keywords) (ev : Evaluation) (env : FrameId) (template : Value) : Eval Value :=
  match template with
  | .pair _ _ args =>
    if template.isForm k.quotes.unquote then fillHole ev env .unquote args.elements
    else do
      let vs ← items k ev env template
      Eval.list vs
  | v => pure v

end Lisplet.Template
