import Lisplet.Sequence

/-! What an evaluator knows apart from bindings: the symbols that it tells by identity, the procedure
behind `quote`, and the code of the host program's procedures. -/

namespace Lisplet

structure Keywords where
  quotes : QuoteSymbols
  /-- The symbol for true. -/
  t : Symbol
  /-- The identity of the procedure behind `quote`. -/
  quoteId : Ident
  /-- The code of the host program's procedures, by its number. -/
  hosts : Nat → Host

namespace Keywords

/-- Interns the reserved symbols and the symbol for true. -/
def intern (table : SymbolTable) (supply : Supply) (hosts : Nat → Host) :
    Keywords × SymbolTable × Supply :=
  let (quotes, table) := QuoteSymbols.intern table
  let (t, table) := table.intern "t"
  (⟨quotes, t, supply.ident, hosts⟩, table, supply.rest)

/-- What the reserved symbol `quote` means, whatever is bound. -/
def quoteProcedure (k : Keywords) : Value := .primitive k.quoteId .quote

/-- The value of a condition. -/
def truth (k : Keywords) (condition : Bool) : Value := if condition then .symbol k.t else .nil

end Keywords

end Lisplet
