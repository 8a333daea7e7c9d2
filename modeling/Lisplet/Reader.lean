import Lisplet.Error
import Lisplet.Number.Numeral
import Lisplet.Token.Scan
import Lisplet.Value

/-! The reader's state, and what one token does to it.  The open lists and the quote marks that wait
for their datum stand on a stack, innermost first. -/

namespace Lisplet

/-- Claims atoms for a host program: how the value that an atom stands for is made, with identities
of the reader's supply where it needs new ones, or nothing. -/
abbrev Factory := String → Option (Supply → Value × Supply)

/-- Claims the atoms that begin with `lead` and go on.  The rest of the atom is the text of a string
if `kind` is `string`, stands for the empty list if it is `nil`, and else names an extension. -/
def Factory.ofLead (lead kind : String) : Factory := fun text =>
  let name := text.toList.drop lead.length
  if lead.toList.isPrefixOf text.toList && !name.isEmpty then
    if kind = "string" then some fun s => (.string s.ident (String.ofList name), s.rest)
    else if kind = "nil" then some fun s => (.nil, s)
    else
      let shown := String.ofList name
      some fun s => (.extension s.ident ⟨kind, shown, "#<" ++ kind ++ " " ++ shown ++ ">"⟩, s.rest)
  else none

/-- Something that has begun and waits for more. -/
inductive Context where
  /-- An open list with its elements so far, the last one first. -/
  | list (items : List Value)
  /-- A quote mark that waits for its datum. -/
  | quote (kind : QuoteKind)

/-- What was left unread at the end of the text. -/
inductive Pending where
  /-- An atom, a comma or a comment that may go on. -/
  | token
  /-- A quoted text that has not ended. -/
  | string
  deriving DecidableEq

/-- A reader between two tokens.  `failed` stays set once a token was refused. -/
structure Reader where
  stack : List Context
  pending : Option Pending
  failed : Bool
  table : SymbolTable
  quotes : QuoteSymbols
  supply : Supply
  factories : List Factory

/-- What a token led to. -/
inductive Accepted where
  /-- The token cannot stand here. -/
  | refused (fault : Fault) (r : Reader)
  /-- More tokens are needed. -/
  | ongoing (r : Reader)
  /-- The token completed a datum that stands in no other. -/
  | datum (v : Value) (r : Reader)

namespace Reader

/-- A reader that interns into the given table, which gets the reserved symbols, and takes its
identities from the given supply. -/
def ofTable (table : SymbolTable) (supply : Supply) : Reader :=
  let (quotes, table) := QuoteSymbols.intern table
  { stack := [], pending := none, failed := false, table, quotes, supply, factories := [] }

/-- Adds a factory, which is asked after those added before it. -/
def register (r : Reader) (f : Factory) : Reader := { r with factories := r.factories ++ [f] }

/-- Nothing has begun, nothing is held back and nothing has gone wrong. -/
def isClean (r : Reader) : Bool := r.stack.isEmpty && r.pending.isNone && !r.failed

/-- Forgets what has begun and what has gone wrong. -/
def reset (r : Reader) : Reader := { r with stack := [], pending := none, failed := false }

/-- The number of open lists. -/
def openLists (r : Reader) : Nat :=
  r.stack.countP fun
    | .list _ => true
    | .quote _ => false

/-- Puts a datum where it belongs: it is wrapped for each quote mark that waits for it and then added
to the innermost open list.  With no list open the datum is complete. -/
def place (quotes : QuoteSymbols) (datum : Value) (supply : Supply) :
    List Context → Option Value × List Context × Supply
  | [] => (some datum, [], supply)
  | .list items :: stack => (none, .list (datum :: items) :: stack, supply)
  | .quote kind :: stack =>
    let (form, supply) := Value.wrap (quotes.get kind) datum supply
    place quotes form supply stack

/-- The reader after a datum. -/
def attach (r : Reader) (datum : Value) : Accepted :=
  match place r.quotes datum r.supply r.stack with
  | (some v, stack, supply) => .datum v { r with stack, supply }
  | (none, stack, supply) => .ongoing { r with stack, supply }

/-- The value of an atom: what the first factory that claims it makes, else a number if it denotes
one, else a symbol. -/
def atom (r : Reader) (text : String) : Value × Reader :=
  match r.factories.findSome? (· text) with
  | some make =>
    let (v, supply) := make r.supply
    (v, { r with supply })
  | none =>
    match Number.ofAtom? text.toList with
    | some n => (.number n, r)
    | none =>
      let (s, table) := r.table.intern text
      (.symbol s, { r with table })

/-- The reader after a token.  A closing parenthesis after a quote mark uses up the mark. -/
def accept (r : Reader) : Token → Accepted
  | .openList => .ongoing { r with stack := .list [] :: r.stack }
  | .quote kind => .ongoing { r with stack := .quote kind :: r.stack }
  | .string text => { r with supply := r.supply.rest }.attach (.string r.supply.ident text)
  | .atom text => let (v, r) := r.atom text; r.attach v
  | .closeList =>
    match r.stack with
    | .list items :: stack =>
      let (v, supply) := Value.list items.reverse r.supply
      { r with stack, supply }.attach v
    | .quote kind :: stack => .refused (.strayClose (some kind)) { r with stack, failed := true }
    | [] => .refused (.strayClose none) { r with failed := true }

end Reader

end Lisplet
