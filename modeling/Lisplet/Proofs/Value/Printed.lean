import Lisplet.Proofs.Number.Text
import Lisplet.Proofs.Token.Written
import Lisplet.Value.Print

/-! The tokens of a printed value.  Where a value is made of lists, strings, numbers and symbols that
can be read, its printed form is the tokens that one expects, in whatever text it stands, but for one
case: a comma in front of a symbol that begins with an at sign is read as the longer mark. -/

namespace Lisplet

open Token

/-- The name is read as a symbol: it is one atom, and not a number. -/
def Symbol.Readable (name : String) : Prop :=
  name ≠ "" ∧ (∀ c ∈ name.toList, isDelimiter c = false) ∧ Number.ofAtom? name.toList = none

instance (name : String) : Decidable (Symbol.Readable name) :=
  decidable_of_iff
    (name ≠ "" ∧ name.toList.any isDelimiter = false ∧ (Number.ofAtom? name.toList).isNone = true)
    (by simp [Symbol.Readable])

namespace Value

/-- A value made of lists, strings, numbers, and symbols of a table that can be read. -/
def Plain (t : SymbolTable) : Value → Prop
  | .nil => True
  | .pair _ head tail => head.Plain t ∧ tail.Plain t ∧ tail.isList = true
  | .symbol s => t.lookup s.name = some s ∧ Symbol.Readable s.name
  | .number n => Number.isNan n = false
  | .string .. => True
  | _ => False

instance decidablePlain (t : SymbolTable) : (v : Value) → Decidable (v.Plain t)
  | .nil | .string .. => Decidable.isTrue trivial
  | .pair _ head tail =>
    have := decidablePlain t head
    have := decidablePlain t tail
    inferInstanceAs (Decidable (_ ∧ _ ∧ _))
  | .symbol _ => inferInstanceAs (Decidable (_ ∧ _))
  | .number _ => inferInstanceAs (Decidable (_ = _))
  | .extension .. | .primitive .. | .lambda .. | .macroProc .. => Decidable.isFalse id

/-- The tokens of a mark in front of a datum whose own tokens are given.  A comma takes the at sign
with which a symbol begins. -/
def markTokens (kind : QuoteKind) (datum : Value) (ts : List Token) : List Token :=
  match kind, datum with
  | .unquote, .symbol s =>
    match s.name.toList with
    | ['@'] => [.quote .unquoteSplicing]
    | '@' :: rest => [.quote .unquoteSplicing, .atom (String.ofList rest)]
    | _ => .quote kind :: ts
  | kind, _ => .quote kind :: ts

mutual

/-- The tokens of the printed form. -/
def tokens : Value → List Token
  | .nil => [.openList, .closeList]
  | .pair _ (.symbol s) (.pair _ datum .nil) =>
    match QuoteKind.ofName? s.name with
    | some kind => markTokens kind datum datum.tokens
    | none => .openList :: .atom s.name :: datum.tokens ++ [.closeList]
  | .pair _ head tail => .openList :: head.tokens ++ tail.tailTokens
  | .symbol s => [.atom s.name]
  | .number n => [.atom (String.ofList (Number.chars n))]
  | .string _ text => [.string text]
  | _ => []

/-- The tokens of the printed form of the rest of a list. -/
def tailTokens : Value → List Token
  | .pair _ head tail => head.tokens ++ tail.tailTokens
  | _ => [.closeList]

end

theorem markTokens_of_ne {kind : QuoteKind} {datum : Value} {ts : List Token}
    (h : ∀ s rest, kind = .unquote → datum = .symbol s → s.name.toList ≠ '@' :: rest) :
    markTokens kind datum ts = .quote kind :: ts := by
  unfold markTokens
  split
  · next s =>
    split
    · next hname => exact absurd hname (h s [] rfl rfl)
    · next rest _ hname => exact absurd hname (h s rest rfl rfl)
    · rfl
  · rfl

/-! ### The cases of the printed form -/

theorem quoteForm?_eq_some {v datum : Value} {kind : QuoteKind}
    (h : v.quoteForm? = some (kind, datum)) :
    ∃ i s j, v = .pair i (.symbol s) (.pair j datum .nil) ∧ QuoteKind.ofName? s.name = some kind := by
  unfold quoteForm? at h
  split at h
  · obtain ⟨k, hk, he⟩ := Option.map_eq_some_iff.1 h
    obtain ⟨rfl, rfl⟩ := Prod.mk.inj he
    exact ⟨_, _, _, rfl, hk⟩
  · cases h

/-- The way a value is printed is a way to prove things of values: a leaf, a quote form, and a list
with its elements one after the other. -/
theorem printed_induction {P Q : Value → Prop} (leaf : ∀ v, v.isPair = false → P v)
    (quoted : ∀ i s j datum kind, QuoteKind.ofName? s.name = some kind → P datum →
      P (.pair i (.symbol s) (.pair j datum .nil)))
    (list : ∀ i head tail, (pair i head tail).quoteForm? = none → P head → Q tail →
      P (.pair i head tail))
    (last : ∀ v, v.isPair = false → Q v)
    (more : ∀ i head tail, P head → Q tail → Q (.pair i head tail)) (v : Value) : P v ∧ Q v := by
  -- The datum of a quote form is the head of its tail, so the head is carried along.
  suffices h : P v ∧ Q v ∧ ∀ i head tail, v = .pair i head tail → P head from ⟨h.1, h.2.1⟩
  induction v with
  | pair i head tail ihHead ihTail =>
    refine ⟨?_, more i head tail ihHead.1 ihTail.2.1, ?_⟩
    · cases hform : (pair i head tail).quoteForm? with
      | none => exact list i head tail hform ihHead.1 ihTail.2.1
      | some form =>
        obtain ⟨kind, datum⟩ := form
        obtain ⟨i', s, j, he, hkind⟩ := quoteForm?_eq_some hform
        obtain ⟨rfl, rfl, rfl⟩ := Value.pair.inj he
        exact quoted i s j datum kind hkind (ihTail.2.2 j datum .nil rfl)
    · intro i' head' tail' he
      obtain ⟨rfl, rfl, rfl⟩ := Value.pair.inj he
      exact ihHead.1
  | _ => exact ⟨leaf _ rfl, last _ rfl, fun _ _ _ he => nomatch he⟩

section

variable {style : Style} {i j : Ident} {s : Symbol} {datum head tail : Value} {kind : QuoteKind}

theorem chars_quoted (h : QuoteKind.ofName? s.name = some kind) :
    (pair i (.symbol s) (.pair j datum .nil)).chars style =
      kind.mark.toList ++ datum.chars style := by
  simp only [chars, h]

theorem tokens_quoted (h : QuoteKind.ofName? s.name = some kind) :
    (pair i (.symbol s) (.pair j datum .nil)).tokens = markTokens kind datum datum.tokens := by
  simp only [tokens, h]

theorem quoteForm?_eq_none (h : (pair i head tail).quoteForm? = none) :
    (∃ s j datum, head = .symbol s ∧ tail = .pair j datum .nil ∧
        QuoteKind.ofName? s.name = none) ∨
      ∀ s j datum, head = .symbol s → tail = .pair j datum .nil → False := by
  by_cases hshape : ∃ s j datum, head = .symbol s ∧ tail = .pair j datum .nil
  · obtain ⟨s, j, datum, rfl, rfl⟩ := hshape
    exact .inl ⟨s, j, datum, rfl, rfl, by simpa [quoteForm?] using h⟩
  · exact .inr fun s j datum hs ht => hshape ⟨s, j, datum, hs, ht⟩

theorem chars_list (h : (pair i head tail).quoteForm? = none) :
    (pair i head tail).chars style = '(' :: head.chars style ++ tail.tailChars style := by
  rcases quoteForm?_eq_none h with ⟨s, j, datum, rfl, rfl, hname⟩ | hshape
  · simp [chars, tailChars, hname]
  · rw [chars]
    exact hshape

theorem tokens_list (h : (pair i head tail).quoteForm? = none) :
    (pair i head tail).tokens = .openList :: (pair i head tail).tailTokens := by
  rcases quoteForm?_eq_none h with ⟨s, j, datum, rfl, rfl, hname⟩ | hshape
  · simp [tokens, tailTokens, hname]
  · rw [tokens, tailTokens, List.cons_append]
    exact hshape

end

/-! ### Lexing the printed form -/

theorem tailChars_delimited (style : Style) (v : Value) (k : List Char) :
    Delimited (v.tailChars style ++ k) := by
  cases v <;> simp [tailChars, Delimited, isDelimiter, isSpace]

/-- Only a symbol is printed with an at sign in front. -/
theorem chars_head {t : SymbolTable} {v : Value} (h : v.Plain t) :
    ∃ c cs, v.chars .inspect = c :: cs ∧
      (c = '@' → ∃ s, v = .symbol s ∧ s.name.toList = '@' :: cs) := by
  cases v with
  | nil => exact ⟨'(', [')'], rfl, fun hc => absurd hc (by decide)⟩
  | pair i head tail =>
    cases hform : (pair i head tail).quoteForm? with
    | none => exact ⟨'(', _, chars_list hform, fun hc => absurd hc (by decide)⟩
    | some form =>
      obtain ⟨kind, datum⟩ := form
      obtain ⟨i', s, j, he, hkind⟩ := quoteForm?_eq_some hform
      obtain ⟨c, cs, hmark, hc⟩ : ∃ c cs, kind.mark.toList = c :: cs ∧ c ≠ '@' := by
        cases kind with
        | quote => exact ⟨'\x27', [], by decide, by decide⟩
        | quasiquote => exact ⟨'\x60', [], by decide, by decide⟩
        | unquote => exact ⟨',', [], by decide, by decide⟩
        | unquoteSplicing => exact ⟨',', ['@'], by decide, by decide⟩
      rw [he, chars_quoted hkind, hmark]
      exact ⟨c, cs ++ datum.chars .inspect, rfl, fun hat => absurd hat hc⟩
  | symbol s =>
    obtain ⟨-, hne, -⟩ := h
    obtain ⟨c, cs, hcs⟩ := List.exists_cons_of_ne_nil
      (show s.name.toList ≠ [] by simpa using hne)
    exact ⟨c, cs, hcs, fun hc => ⟨s, rfl, hc ▸ hcs⟩⟩
  | number n =>
    obtain ⟨c, cs, hcs, hc⟩ := Number.chars_cons h
    exact ⟨c, cs, hcs, fun hat => absurd hat hc⟩
  | string id text => exact ⟨'\x22', _, rfl, fun hc => absurd hc (by decide)⟩
  | _ => exact h.elim

/-- A mark and a datum are their tokens, one after the other, or the longer mark and what it leaves
of a symbol. -/
theorem lexes_quoted {t : SymbolTable} {datum : Value} (h : datum.Plain t) (kind : QuoteKind)
    {k : List Char} (hk : Delimited k) (hdatum : Lexes (datum.chars .inspect) datum.tokens k) :
    Lexes (kind.mark.toList ++ datum.chars .inspect) (markTokens kind datum datum.tokens) k := by
  obtain ⟨c, cs, hchars, hat⟩ := chars_head h
  by_cases hglued : kind = .unquote ∧ c = '@'
  · -- The comma takes the at sign, and what is left of the symbol is an atom, unless nothing is.
    obtain ⟨rfl, rfl⟩ := hglued
    obtain ⟨s, rfl, hname⟩ := hat rfl
    have hmark : Lexes [',', '@'] [.quote .unquoteSplicing] (cs ++ k) :=
      lexes_mark .unquoteSplicing (cs ++ k) nofun
    rw [hchars, show QuoteKind.unquote.mark.toList = [','] by decide]
    cases cs with
    | nil => simpa [markTokens, hname] using hmark
    | cons d cs =>
      have hplain : ∀ x ∈ d :: cs, isDelimiter x = false := fun x hx =>
        h.2.2.1 x (hname ▸ List.mem_cons_of_mem '@' hx)
      have hatom := lexes_atom (List.cons_ne_nil d cs) hplain hk
      simpa [markTokens, hname] using hmark.append hatom
  · have hfree : ∀ s rest, kind = .unquote → datum = .symbol s → s.name.toList ≠ '@' :: rest := by
      rintro s rest hkind rfl hrest
      obtain ⟨rfl, -⟩ := List.cons.inj (hchars.symm.trans hrest)
      exact hglued ⟨hkind, rfl⟩
    rw [markTokens_of_ne hfree]
    refine (lexes_mark kind _ fun hkind hhead => hglued ⟨hkind, ?_⟩).append hdatum
    simpa [hchars] using hhead

/-- Reading a printed value finds its tokens. -/
theorem lexes_chars_and_tail (t : SymbolTable) (v : Value) :
    (v.Plain t → ∀ k, Delimited k → Lexes (v.chars .inspect) v.tokens k) ∧
      (v.Plain t → v.isList = true → ∀ k, Lexes (v.tailChars .inspect) v.tailTokens k) := by
  refine printed_induction
    (P := fun v => v.Plain t → ∀ k, Delimited k → Lexes (v.chars .inspect) v.tokens k)
    (Q := fun v => v.Plain t → v.isList = true → ∀ k, Lexes (v.tailChars .inspect) v.tailTokens k)
    ?_ ?_ ?_ ?_ ?_ v
  · intro v hpair h k hk
    cases v with
    | nil => exact (lexes_open (')' :: k)).append (lexes_close k)
    | pair => cases hpair
    | symbol s =>
      have hatom := lexes_atom (by simpa using h.2.1) h.2.2.1 hk
      simpa [chars, tokens] using hatom
    | number n =>
      obtain ⟨c, cs, hcs, -⟩ := Number.chars_cons h
      have hne : Number.chars n ≠ [] := hcs ▸ List.cons_ne_nil c cs
      exact lexes_atom hne (Number.chars_plain h) hk
    | string id text => exact lexes_string text k
    | _ => exact h.elim
  · intro i s j datum kind hkind ih h k hk
    rw [chars_quoted hkind, tokens_quoted hkind]
    exact lexes_quoted h.2.1.1 kind hk (ih h.2.1.1 k hk)
  · intro i head tail hform ihHead ihTail h k hk
    obtain ⟨hhead, htail, hlist⟩ := h
    rw [chars_list hform, tokens_list hform]
    have hlexHead := ihHead hhead _ (tailChars_delimited .inspect tail k)
    exact ((lexes_open _).append hlexHead).append (ihTail htail hlist k)
  · intro v hpair h hlist k
    cases v with
    | nil => exact lexes_close k
    | pair => cases hpair
    | _ => cases hlist
  · intro i head tail ihHead ihTail h _ k
    obtain ⟨hhead, htail, hlist⟩ := h
    have hlexHead := ihHead hhead _ (tailChars_delimited .inspect tail k)
    exact ((lexes_space _).append hlexHead).append (ihTail htail hlist k)

/-- The tokens of a printed value. -/
theorem sequence_inspect {t : SymbolTable} {v : Value} (h : v.Plain t) :
    (sequence v.inspect.toList).tokens = v.tokens ∧ (sequence v.inspect.toList).open? = none := by
  have hlex := (lexes_chars_and_tail t v).1 h [] (by simp [Delimited])
  simpa [Lexes, inspect, text, sequence_eq [], scan, skipGap, Tokenised.tokens] using hlex

end Value

end Lisplet
