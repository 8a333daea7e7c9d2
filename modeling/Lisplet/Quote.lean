import Lisplet.Symbol

/-! Quote forms.  Each of the four marks in front of a datum abbreviates a two-element list headed by
a reserved symbol. -/

namespace Lisplet

/-- The four kinds of quote form. -/
inductive QuoteKind where
  | quote
  | quasiquote
  | unquote
  | unquoteSplicing
  deriving DecidableEq

namespace QuoteKind

/-- The kinds in the order in which their symbols are interned. -/
def all : List QuoteKind := [.quote, .quasiquote, .unquote, .unquoteSplicing]

/-- The mark that stands in front of the datum. -/
def mark : QuoteKind → String
  | .quote => "'"
  | .quasiquote => "`"
  | .unquote => ","
  | .unquoteSplicing => ",@"

/-- The name of the reserved symbol that heads the list. -/
def name : QuoteKind → String
  | .quote => "quote"
  | .quasiquote => "quasiquote"
  | .unquote => "unquote"
  | .unquoteSplicing => "unquote-splicing"

/-- The kind with the given mark. -/
def ofMark? (text : String) : Option QuoteKind := all.find? fun k => k.mark == text

/-- The kind with the given symbol name. -/
def ofName? (text : String) : Option QuoteKind := all.find? fun k => k.name == text

@[simp] theorem ofMark?_mark (k : QuoteKind) : ofMark? k.mark = some k := by
  cases k <;> decide

@[simp] theorem ofName?_name (k : QuoteKind) : ofName? k.name = some k := by
  cases k <;> decide

theorem name_of_ofName? {text : String} {k : QuoteKind} (h : ofName? text = some k) :
    k.name = text := by
  simpa using List.find?_some h

end QuoteKind

/-- The four reserved symbols of one table. -/
structure QuoteSymbols where
  quote : Symbol
  quasiquote : Symbol
  unquote : Symbol
  unquoteSplicing : Symbol

namespace QuoteSymbols

/-- Interns the reserved names, in the order in which the kinds are listed. -/
def intern (t : SymbolTable) : QuoteSymbols × SymbolTable :=
  let (quote, t) := t.intern QuoteKind.quote.name
  let (quasiquote, t) := t.intern QuoteKind.quasiquote.name
  let (unquote, t) := t.intern QuoteKind.unquote.name
  let (unquoteSplicing, t) := t.intern QuoteKind.unquoteSplicing.name
  (⟨quote, quasiquote, unquote, unquoteSplicing⟩, t)

/-- The reserved symbol of a kind. -/
def get (q : QuoteSymbols) : QuoteKind → Symbol
  | .quote => q.quote
  | .quasiquote => q.quasiquote
  | .unquote => q.unquote
  | .unquoteSplicing => q.unquoteSplicing

end QuoteSymbols

end Lisplet
