import Lisplet.Proofs.Session.Contents
import Lisplet.Proofs.Session.Pieces
import Lisplet.Proofs.Value.Printed

/-! Symbols by identity and by name.  All symbols in a session are those that its table has under
their names, so two of them are the same exactly if they have the same name, and a quote form is
recognised by the name of its head exactly when it is recognised by the head's identity. -/

namespace Lisplet

theorem SymbolTable.same_iff_name {t : SymbolTable} {a b : Symbol}
    (ha : t.lookup a.name = some a) (hb : t.lookup b.name = some b) :
    a.same b = true ↔ a.name = b.name := by
  constructor
  · intro h
    rw [eq_of_same ha hb h]
  · intro h
    rw [h, hb] at ha
    obtain rfl := Option.some.inj ha
    simp [Symbol.same]

namespace Value

/-- A value that is no symbol, or the symbol that the table has under its name. -/
def Native (t : SymbolTable) (v : Value) : Prop := ∀ s, v = .symbol s → t.lookup s.name = some s

theorem invariant_native : Invariant Native where
  later ht h s hs := ht _ _ (h s hs)
  symbol h s' hs' := Value.symbol.inj hs' ▸ h
  pair _ _ hs := nomatch hs
  leaf _ hsymbol s hs := by
    rw [hs] at hsymbol
    cases hsymbol

/-- If the head of a quote form and the reserved symbols are those of one table, the form is
recognised by identity. -/
theorem quoteForm?_eq_some_iff {t : SymbolTable} {quotes : QuoteSymbols}
    (hquotes : ∀ kind, t.lookup kind.name = some (quotes.get kind)) {v : Value}
    (hv : v.All (Native t)) (kind : QuoteKind) (x : Value) :
    v.quoteForm? = some (kind, x) ↔
      v.isForm (quotes.get kind) = true ∧ ∃ i head j, v = .pair i head (.pair j x .nil) := by
  have hreserved : t.lookup (quotes.get kind).name = some (quotes.get kind) := by
    rw [SymbolTable.name_of_lookup (hquotes kind), hquotes kind]
  have hname : (quotes.get kind).name = kind.name := SymbolTable.name_of_lookup (hquotes kind)
  constructor
  · intro h
    obtain ⟨i, s, j, rfl, hs⟩ := quoteForm?_eq_some h
    have hhead : t.lookup s.name = some s := (all_pair_iff.1 hv).2.1.self s rfl
    refine ⟨(SymbolTable.same_iff_name hhead hreserved).2 ?_, i, .symbol s, j, rfl⟩
    rw [hname, QuoteKind.name_of_ofName? hs]
  · rintro ⟨hform, i, head, j, rfl⟩
    cases head with
    | symbol s =>
      have hhead : t.lookup s.name = some s := (all_pair_iff.1 hv).2.1.self s rfl
      have hs : s.name = kind.name := by
        rw [(SymbolTable.same_iff_name hhead hreserved).1 hform, hname]
      simp [quoteForm?, hs]
    | _ => cases hform

end Value

namespace Session

/-- In a session whose factories make symbols of its own table only, in every state: the reader and
the evaluator hold the same reserved symbols; any two symbols in the session are the same exactly if
they have the same name; and what is recognised as a quote form by the name of its head, as in
printing, are the two-element lists that are recognised by identity, as in evaluation. -/
theorem same_iff_name_eq {vs : List Value} {s : Session}
    (h : Reached (fun s f => f.Makes (Value.All (Value.Native s.reader.table))) vs s) :
    (∀ kind, s.reader.quotes.get kind = s.keywords.quotes.get kind) ∧
      (∀ a b, Occurs vs s (.symbol a) → Occurs vs s (.symbol b) →
        (a.same b = true ↔ a.name = b.name)) ∧
      ∀ v, Occurs vs s v → ∀ kind x, v.quoteForm? = some (kind, x) ↔
        v.isForm (s.keywords.quotes.get kind) = true ∧
          ∃ i head j, v = .pair i head (.pair j x .nil) := by
  have hholds := h.holds Value.invariant_native
  refine ⟨fun kind => ?_, fun a b ha hb => ?_, fun v hv => ?_⟩
  · have hlookup := (hholds.reader.reserved kind).symm.trans (hholds.keywords.reserved kind)
    exact Option.some.inj hlookup
  · exact SymbolTable.same_iff_name ((hholds.occurs ha).self a rfl) ((hholds.occurs hb).self b rfl)
  · exact Value.quoteForm?_eq_some_iff hholds.keywords.reserved (hholds.occurs hv)

/-- A session with a factory for strings, in which a macro has given a list with a quote form in it,
and a list with such a form has begun. -/
theorem same_iff_name_eq_expanded :
    ∃ vs s, Reached (fun s f => f.Makes (Value.All (Value.Native s.reader.table))) vs s ∧
      vs.map Value.inspect = ["m", "('z y)"] ∧ s.reader.openLists = 1 ∧
      (∀ kind, s.reader.quotes.get kind = s.keywords.quotes.get kind) ∧
      (∀ a b, Occurs vs s (.symbol a) → Occurs vs s (.symbol b) →
        (a.same b = true ↔ a.name = b.name)) ∧
      ∀ v, Occurs vs s v → ∀ kind x, v.quoteForm? = some (kind, x) ↔
        v.isForm (s.keywords.quotes.get kind) = true ∧
          ∃ i head j, v = .pair i head (.pair j x .nil) := by
  have hfed : ((feed 9 "(define m (macro (x) `(quote (,x y)))) (m 'z) ($y 'z "
      (standard.register (Factory.ofLead "$" "string"))).result?.any fun result =>
        result.1.map Value.inspect == ["m", "('z y)"] && result.2.reader.openLists == 1) = true := by
    decide +kernel
  obtain ⟨⟨vs, s⟩, hresult, hstate⟩ := (Option.any_eq_true _ _).1 hfed
  have hfactory := Factory.ofLead_makes Value.invariant_native standard.reader.table "$" "string"
  have hreached : Reached (fun s f => f.Makes (Value.All (Value.Native s.reader.table))) vs s :=
    .done (.register .standard _ hfactory) 9 (.feed _) (Outcome.eq_done_of_result? hresult)
  obtain ⟨hvalues, hopen⟩ := Bool.and_eq_true_iff.1 hstate
  exact ⟨vs, s, hreached, by simpa using hvalues, by simpa using hopen, same_iff_name_eq hreached⟩

end Session

end Lisplet
