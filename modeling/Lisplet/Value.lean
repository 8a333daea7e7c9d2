import Lisplet.Builtin
import Lisplet.Formals
import Lisplet.Ident
import Lisplet.Quote

/-! Values.  The empty list is `nil`, and a list is `nil` or a chain of pairs that ends in it.  Pairs,
strings, extensions and procedures carry their identity; numbers and symbols have none beyond what
they are. -/

namespace Lisplet

/-- A frame of variable bindings, by its place in the scopes. -/
abbrev FrameId := Nat

/-- A leaf value that a host program adds: the name of its type, and what it prints for a user and
in a form that tells it apart. -/
structure Extension where
  kind : String
  display : String
  inspect : String
  deriving DecidableEq

/-- The procedures that are not written in the language itself. -/
inductive Primitive where
  /-- Gives its one argument as written. -/
  | quote
  /-- Makes a procedure that evaluates its arguments and closes over the place of its definition. -/
  | lambda
  /-- Makes a procedure that replaces its call. -/
  | macroMaker
  /-- Fills in a template. -/
  | quasiquote
  /-- A standard procedure. -/
  | builtin (b : Builtin)
  /-- A procedure of the host program, by the number of its code. -/
  | host (name : String) (code : Nat)
  deriving DecidableEq

/-- A value of the language, which is also what a program is made of. -/
inductive Value where
  | nil
  | pair (id : Ident) (head tail : Value)
  | symbol (s : Symbol)
  | number (n : Float)
  | string (id : Ident) (text : String)
  | extension (id : Ident) (e : Extension)
  | primitive (id : Ident) (p : Primitive)
  /-- A procedure that runs `body` in a frame derived from `home`. -/
  | lambda (id : Ident) (formals : Formals) (body : Value) (home : FrameId)
  /-- A procedure that runs `body` on its arguments as written and then evaluates what comes out. -/
  | macroProc (id : Ident) (formals : Formals) (body : Value)
  deriving DecidableEq

/-- The name of a primitive procedure. -/
def Primitive.name : Primitive → String
  | .quote => "quote"
  | .lambda => "lambda"
  | .macroMaker => "macro"
  | .quasiquote => "quasiquote"
  | .builtin b => b.name
  | .host name _ => name

namespace Value

instance : Inhabited Value := ⟨.nil⟩

def isNil : Value → Bool
  | .nil => true
  | _ => false

def isPair : Value → Bool
  | .pair .. => true
  | _ => false

/-- Pairs and `nil` are lists. -/
def isList : Value → Bool
  | .nil | .pair .. => true
  | _ => false

/-- Everything but a pair is an atom. -/
def isAtom (v : Value) : Bool := !v.isPair

/-- Everything but `nil` is true. -/
def isTrue (v : Value) : Bool := !v.isNil

def head? : Value → Option Value
  | .pair _ head _ => some head
  | _ => none

def tail? : Value → Option Value
  | .pair _ _ tail => some tail
  | _ => none

def symbol? : Value → Option Symbol
  | .symbol s => some s
  | _ => none

def number? : Value → Option Float
  | .number n => some n
  | _ => none

def string? : Value → Option String
  | .string _ text => some text
  | _ => none

def extension? : Value → Option Extension
  | .extension _ e => some e
  | _ => none

/-- The name of a procedure: its own for a primitive one, and the word that made it otherwise. -/
def procedureName? : Value → Option String
  | .primitive _ p => some p.name
  | .lambda .. => some "lambda"
  | .macroProc .. => some "macro"
  | _ => none

def isProcedure (v : Value) : Bool := v.procedureName?.isSome

/-- The name of the type of a value. -/
def typeName : Value → String
  | .nil => "nil"
  | .pair .. => "pair"
  | .symbol _ => "symbol"
  | .number _ => "number"
  | .string .. => "string"
  | .extension _ e => e.kind
  | .primitive .. | .lambda .. | .macroProc .. => "procedure"

/-- The elements of a list; an atom has none. -/
def elements : Value → List Value
  | .pair _ head tail => head :: tail.elements
  | _ => []

/-- The number of elements of a list. -/
def length (v : Value) : Nat := v.elements.length

/-- A list headed by the given symbol. -/
def isForm (v : Value) (s : Symbol) : Bool :=
  match v with
  | .pair _ (.symbol head) _ => head.same s
  | _ => false

/-- The kind and the datum of a two-element list headed by a symbol with a reserved name. -/
def quoteForm? : Value → Option (QuoteKind × Value)
  | .pair _ (.symbol s) (.pair _ datum .nil) => (QuoteKind.ofName? s.name).map (·, datum)
  | _ => none

/-- A pair with the next identity of the supply.  Its tail must be a list, and with any other tail
there is no pair. -/
def cons? (head tail : Value) (s : Supply) : Option (Value × Supply) :=
  if tail.isList then some (.pair s.ident head tail, s.rest) else none

/-- The list of `items` followed by the elements of `tail`, made from its end. -/
def ofList? (items : List Value) (tail : Value) (s : Supply) : Option (Value × Supply) :=
  match items with
  | [] => some (tail, s)
  | v :: vs => do
    let (rest, s) ← ofList? vs tail s
    cons? v rest s

theorem cons?_of_isList {tail : Value} (h : tail.isList = true) (head : Value) (s : Supply) :
    cons? head tail s = some (.pair s.ident head tail, s.rest) := if_pos h

/-- On a tail that is a list every pair is made on a list. -/
theorem exists_ofList? {tail : Value} (h : tail.isList = true) (items : List Value) (s : Supply) :
    ∃ v s', ofList? items tail s = some (v, s') ∧ v.isList = true := by
  induction items with
  | nil => exact ⟨tail, s, rfl, h⟩
  | cons v vs ih =>
    obtain ⟨rest, s', hrest, hlist⟩ := ih
    refine ⟨.pair s'.ident v rest, s'.rest, ?_, rfl⟩
    rw [ofList?, hrest]
    exact cons?_of_isList hlist v s'

/-- The list of `items`.  It is made with the same checks, which it passes. -/
def list (items : List Value) (s : Supply) : Value × Supply :=
  (ofList? items .nil s).get (by
    obtain ⟨v, s', h, -⟩ := exists_ofList? (show nil.isList = true from rfl) items s
    rw [h]
    rfl)

theorem ofList?_nil (items : List Value) (s : Supply) : ofList? items .nil s = some (list items s) :=
  (Option.some_get _).symm

@[simp] theorem list_nil (s : Supply) : list [] s = (.nil, s) := rfl

@[simp] theorem list_cons (v : Value) (vs : List Value) (s : Supply) :
    list (v :: vs) s = (.pair (list vs s).2.ident v (list vs s).1, (list vs s).2.rest) := by
  obtain ⟨rest, s', hrest, hlist⟩ := exists_ofList? (show nil.isList = true from rfl) vs s
  have hvs : list vs s = (rest, s') := Option.some.inj ((ofList?_nil vs s).symm.trans hrest)
  refine Option.some.inj ((ofList?_nil (v :: vs) s).symm.trans ?_)
  rw [ofList?, hrest, hvs]
  exact cons?_of_isList hlist v s'

@[simp] theorem elements_nil : Value.nil.elements = [] := rfl

@[simp] theorem elements_pair (id : Ident) (head tail : Value) :
    (Value.pair id head tail).elements = head :: tail.elements := rfl

@[simp] theorem elements_list (items : List Value) (s : Supply) :
    (list items s).1.elements = items := by
  induction items with
  | nil => rfl
  | cons v vs ih => simp only [list_cons, elements_pair, ih]

theorem isList_list (items : List Value) (s : Supply) : (list items s).1.isList = true := by
  cases items with
  | nil => rfl
  | cons v vs => rw [list_cons]; rfl

/-- A list takes one identity for each of its pairs. -/
theorem list_snd (items : List Value) (s : Supply) :
    (list items s).2 = { s with next := s.next + items.length } := by
  induction items with
  | nil => rfl
  | cons v vs ih => simp [ih, Supply.rest, Nat.add_assoc]

/-- The two-element list of a symbol and a datum. -/
def wrap (s : Symbol) (datum : Value) (supply : Supply) : Value × Supply :=
  list [.symbol s, datum] supply

end Value

end Lisplet
