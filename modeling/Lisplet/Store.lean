import Lisplet.Error
import Lisplet.Outcome
import Lisplet.Scopes

/-! What an evaluation can change: the bindings of the frames, the supply of identities, and the text
printed so far. -/

namespace Lisplet

/-- The part of a session that evaluation changes. -/
structure Store where
  scopes : Scopes
  supply : Supply
  printed : String

/-- A computation of the evaluator. -/
abbrev Eval := Run Store EvalError

namespace Store

/-- A store with no frames that has printed nothing. -/
def empty (supply : Supply) : Store := ⟨.empty, supply, ""⟩

/-- Builds a value with the store's supply. -/
def build (make : Supply → Value × Supply) (s : Store) : Value × Store :=
  let (v, supply) := make s.supply
  (v, { s with supply })

end Store

namespace Eval

/-- Builds a value with identities of its own. -/
def build (make : Supply → Value × Supply) : Eval Value := .change (Store.build make)

/-- Builds a value whose pairs are checked.  An assertion that fails stops the evaluation. -/
def build? (make : Supply → Option (Value × Supply)) : Eval Value := fun s =>
  match make s.supply with
  | some (v, supply) => .done v { s with supply }
  | none => .stopped .badTail

/-- A new list of the given elements. -/
def list (items : List Value) : Eval Value := build? (Value.ofList? items .nil)

/-- A new pair. -/
def cons (head tail : Value) : Eval Value := build? (Value.cons? head tail)

/-- A value made with one new identity. -/
def fresh (make : Ident → Value) : Eval Value := build fun supply => (make supply.ident, supply.rest)

/-- A new frame without bindings inside the given one. -/
def derive (f : FrameId) : Eval FrameId := .change fun s =>
  let (g, scopes) := s.scopes.derive f
  (g, { s with scopes })

/-- What a name means in a frame. -/
def find? (f : FrameId) (name : String) : Eval (Option Value) := .look fun s => s.scopes.find? f name

/-- Binds a name in a frame. -/
def set (f : FrameId) (name : String) (v : Value) : Eval Unit := .change fun s =>
  ((), { s with scopes := s.scopes.set f name v })

/-- Binds a name anew where it is bound, and says whether it was bound at all. -/
def assign (f : FrameId) (name : String) (v : Value) : Eval Bool := .change fun s =>
  match s.scopes.assign? f name v with
  | some scopes => (true, { s with scopes })
  | none => (false, s)

/-- Prints a text. -/
def print (text : String) : Eval Unit := .change fun s => ((), { s with printed := s.printed ++ text })

/-- A list is always made. -/
theorem list_eq_build (items : List Value) : list items = build (Value.list items) := by
  funext s
  simp only [list, build?, Value.ofList?_nil]
  rfl

/-- A pair is made if its tail is a list. -/
theorem cons_eq_fresh (head : Value) {tail : Value} (h : tail.isList = true) :
    cons head tail = fresh fun id => .pair id head tail := by
  funext s
  simp only [cons, build?, Value.cons?_of_isList h]
  rfl

end Eval

end Lisplet
