import Lisplet.Proofs.Reader.Growth
import Lisplet.Proofs.Value.Printed
import Lisplet.Value.Equal

/-! The datums inside a value.  Every splicing mark that is read becomes a splicing form of the datum
that comes out, and the printed form of a value has one such mark too many for each comma that takes
the at sign of a symbol.  So a value with such a comma cannot be equal to what its printed form reads
as. -/

namespace Lisplet

open Token Grammar

namespace Value

/-- The elements of a value and, at any depth, the elements of those. -/
def inner : Value → List Value
  | .pair _ head tail => head :: head.inner ++ tail.inner
  | _ => []

/-- The datums in a value: the value itself and its elements at any depth. -/
def data (v : Value) : List Value := v :: v.inner

/-- An infinite number. -/
def isInfinite : Value → Bool
  | .number n => Number.isInfinite n
  | _ => false

/-- A two-element list of the symbol `unquote` and a symbol that begins with an at sign. -/
def isGlued : Value → Bool
  | .pair _ (.symbol s) (.pair _ (.symbol x) .nil) =>
    s.name == "unquote" && x.name.toList.head? == some '@'
  | _ => false

/-- A two-element list headed by the symbol `unquote-splicing`. -/
def isSplice : Value → Bool
  | .pair _ (.symbol s) (.pair _ _ .nil) => s.name == "unquote-splicing"
  | _ => false

theorem data_quoted (i j : Ident) (s : Symbol) (datum : Value) :
    (pair i (.symbol s) (.pair j datum .nil)).data =
      .pair i (.symbol s) (.pair j datum .nil) :: .symbol s :: datum.data := by
  simp [data, inner]

theorem inner_list (vs : List Value) (s : Supply) :
    (list vs s).1.inner = vs.flatMap data := by
  induction vs with
  | nil => rfl
  | cons v vs ih => simp only [list_cons, inner, ih, List.flatMap_cons, data]

section

variable {i : Ident} {s : Symbol} {datum head tail : Value} {kind : QuoteKind}

theorem isSplice_quoted (i j : Ident) (h : QuoteKind.ofName? s.name = some kind) :
    (pair i (.symbol s) (.pair j datum .nil)).isSplice = (kind == .unquoteSplicing) := by
  simp only [isSplice, ← QuoteKind.name_of_ofName? h]
  cases kind <;> decide

theorem isGlued_quoted (i j : Ident) (h : QuoteKind.ofName? s.name = some kind) :
    (pair i (.symbol s) (.pair j datum .nil)).isGlued = true ↔
      kind = .unquote ∧ ∃ x rest, datum = .symbol x ∧ x.name.toList = '@' :: rest := by
  have hkind : (s.name == "unquote") = (kind == .unquote) := by
    rw [← QuoteKind.name_of_ofName? h]
    cases kind <;> decide
  cases datum with
  | symbol x => simp [isGlued, hkind, List.head?_eq_some_iff]
  | _ => simp [isGlued]

theorem not_isSplice_list (h : (pair i head tail).quoteForm? = none) :
    (pair i head tail).isSplice = false := by
  rcases quoteForm?_eq_none h with ⟨s, j, datum, rfl, rfl, hname⟩ | hshape
  · rw [isSplice, beq_eq_false_iff_ne]
    intro hs
    rw [hs] at hname
    exact absurd hname (by decide)
  · unfold isSplice
    split
    · next heq =>
      obtain ⟨-, rfl, rfl⟩ := Value.pair.inj heq
      exact (hshape _ _ _ rfl rfl).elim
    · rfl

theorem not_isGlued_list (h : (pair i head tail).quoteForm? = none) :
    (pair i head tail).isGlued = false := by
  rcases quoteForm?_eq_none h with ⟨s, j, datum, rfl, rfl, hname⟩ | hshape
  · have hs : s.name ≠ "unquote" := fun hs => absurd (hs ▸ hname) (by decide)
    cases datum <;> simp [isGlued, hs]
  · unfold isGlued
    split
    · next heq =>
      obtain ⟨-, rfl, rfl⟩ := Value.pair.inj heq
      exact (hshape _ _ _ rfl rfl).elim
    · rfl

end

/-! ### Splicing marks -/

/-- The printed form has a splicing mark for each splicing form and one for each comma that takes an
at sign. -/
def Tallies (v : Value) : Prop :=
  v.tokens.count (.quote .unquoteSplicing) = v.data.countP isSplice + v.data.countP isGlued

/-- The same for the rest of a list. -/
def TailTallies (v : Value) : Prop :=
  v.tailTokens.count (.quote .unquoteSplicing) =
    v.inner.countP isSplice + v.inner.countP isGlued

theorem tallies_leaf {v : Value} (hleaf : v.isPair = false) : v.Tallies := by
  cases v with
  | pair => cases hleaf
  | _ => simp [Tallies, tokens, data, inner, isSplice, isGlued]

theorem Tallies.quoted {i j : Ident} {s : Symbol} {datum : Value} {kind : QuoteKind}
    (hkind : QuoteKind.ofName? s.name = some kind) (hdatum : datum.Tallies) :
    (pair i (.symbol s) (.pair j datum .nil)).Tallies := by
  have hsymbol : ∀ x, (symbol x).isSplice = false ∧ (symbol x).isGlued = false :=
    fun _ => ⟨rfl, rfl⟩
  have hsplice := @isSplice_quoted s datum kind i j hkind
  have hglued := @isGlued_quoted s datum kind i j hkind
  rw [Tallies, tokens_quoted hkind, data_quoted]
  by_cases hg : (pair i (.symbol s) (.pair j datum .nil)).isGlued = true
  · obtain ⟨rfl, x, rest, rfl, hx⟩ := hglued.1 hg
    have hleft : (markTokens .unquote (.symbol x) (symbol x).tokens).count
        (.quote .unquoteSplicing) = 1 := by
      cases rest <;> simp [markTokens, hx]
    rw [hleft]
    simp only [data, inner, List.countP_cons, hg, hsplice, hsymbol]
    rfl
  · have hfree : ∀ x rest, kind = .unquote → datum = .symbol x → x.name.toList ≠ '@' :: rest :=
      fun x rest hk hx hname => hg (hglued.2 ⟨hk, x, rest, hx, hname⟩)
    rw [markTokens_of_ne hfree, List.count_cons, hdatum]
    simp only [List.countP_cons, hg, hsplice, hsymbol, beq_iff_eq]
    cases kind <;> simp
    omega

theorem tailTallies_leaf {v : Value} (hleaf : v.isPair = false) : v.TailTallies := by
  cases v with
  | pair => cases hleaf
  | _ => rfl

theorem TailTallies.cons {i : Ident} {head tail : Value} (hhead : head.Tallies)
    (htail : tail.TailTallies) : (pair i head tail).TailTallies := by
  rw [TailTallies, tailTokens, List.count_append, hhead, htail, inner, ← data]
  simp only [List.countP_append]
  omega

theorem TailTallies.list {i : Ident} {head tail : Value}
    (hform : (pair i head tail).quoteForm? = none) (h : (pair i head tail).TailTallies) :
    (pair i head tail).Tallies := by
  rw [Tallies, tokens_list hform, List.count_cons, h, data]
  simp [not_isSplice_list hform, not_isGlued_list hform]

theorem tallies_and_tail (v : Value) : v.Tallies ∧ v.TailTallies := by
  refine printed_induction (P := Tallies) (Q := TailTallies) ?_ ?_ ?_ ?_ ?_ v
  · exact fun v => tallies_leaf
  · exact fun i s j datum kind => Tallies.quoted
  · exact fun i head tail hform hhead htail => (TailTallies.cons hhead htail).list hform
  · exact fun v => tailTallies_leaf
  · exact fun i head tail => TailTallies.cons

/-! ### Equal values -/

/-- What equal values look like. -/
theorem equal_cases {v w : Value} (h : v.equal w = true) :
    (v = .nil ∧ w = .nil) ∨
      (∃ i a b j c d, v = .pair i a b ∧ w = .pair j c d ∧
        (i = j ∨ a.equal c = true ∧ b.equal d = true)) ∨
      (∃ s t, v = .symbol s ∧ w = .symbol t ∧ s.same t = true) ∨
      (v.isList = false ∧ w.isList = false) ∧ v.symbol? = none ∧ w.symbol? = none := by
  cases v with
  | nil =>
    cases w with
    | nil => exact .inl ⟨rfl, rfl⟩
    | _ => cases h
  | pair i a b =>
    cases w with
    | pair j c d =>
      refine .inr (.inl ⟨i, a, b, j, c, d, rfl, rfl, ?_⟩)
      simpa [equal] using h
    | _ => cases h
  | symbol s =>
    cases w with
    | symbol t => exact .inr (.inr (.inl ⟨s, t, rfl, rfl, h⟩))
    | _ => cases h
  | _ =>
    cases w with
    | nil | pair | symbol => cases h
    | _ => exact .inr (.inr (.inr ⟨⟨rfl, rfl⟩, rfl, rfl⟩))

theorem of_not_isList {v : Value} (h : v.isList = false) :
    v.isNil = false ∧ v.tail? = none ∧ v.inner = [] ∧ v.isSplice = false := by
  cases v with
  | nil | pair => cases h
  | _ => exact ⟨rfl, rfl, rfl, rfl⟩

theorem equal_pair_iff {i j : Ident} {a b c d : Value} (h : i ≠ j) :
    (pair i a b).equal (.pair j c d) = true ↔ a.equal c = true ∧ b.equal d = true := by
  simp [equal, h]

/-- The values share no pair, and their symbols are those of one table. -/
structure Apart (t : SymbolTable) (v w : Value) : Prop where
  pairs : ∀ i ∈ v.pairIds, i ∉ w.pairIds
  left : ∀ s ∈ v.symbols, t.lookup s.name = some s
  right : ∀ s ∈ w.symbols, t.lookup s.name = some s

theorem Apart.pair {t : SymbolTable} {i j : Ident} {a b c d : Value}
    (h : Apart t (.pair i a b) (.pair j c d)) : i ≠ j ∧ Apart t a c ∧ Apart t b d := by
  obtain ⟨hpairs, hleft, hright⟩ := h
  simp only [pairIds, symbols, List.cons_append, List.mem_cons, List.mem_append] at hpairs hleft hright
  refine ⟨fun hij => hpairs i (.inl rfl) (.inl hij), ⟨?_, ?_, ?_⟩, ⟨?_, ?_, ?_⟩⟩
  · exact fun x ha hc => hpairs x (.inr (.inl ha)) (.inr (.inl hc))
  · exact fun s hs => hleft s (.inl hs)
  · exact fun s hs => hright s (.inl hs)
  · exact fun x hb hd => hpairs x (.inr (.inr hb)) (.inr (.inr hd))
  · exact fun s hs => hleft s (.inr hs)
  · exact fun s hs => hright s (.inr hs)

theorem isSplice_pair (i : Ident) (head tail : Value) :
    (pair i head tail).isSplice =
      (head.symbol?.any (·.name == "unquote-splicing") && tail.tail?.any isNil) := by
  unfold isSplice
  split
  · next heq =>
    obtain ⟨-, rfl, rfl⟩ := Value.pair.inj heq
    simp [symbol?, tail?, isNil]
  · next hshape =>
    cases head with
    | symbol s =>
      cases tail with
      | pair j datum rest =>
        cases rest with
        | nil => exact (hshape i s j datum rfl).elim
        | _ => simp [tail?, isNil]
      | _ => simp [tail?]
    | _ => simp [symbol?]

theorem symbol?_of_equal {t : SymbolTable} {v w : Value} (hvw : Apart t v w)
    (h : v.equal w = true) : v.symbol? = w.symbol? := by
  rcases equal_cases h with ⟨rfl, rfl⟩ | ⟨i, a, b, j, c, d, rfl, rfl, -⟩ | ⟨x, y, rfl, rfl, hsame⟩ |
    ⟨-, hv, hw⟩
  · rfl
  · rfl
  · have hx := hvw.left x (by simp [symbols])
    have hy := hvw.right y (by simp [symbols])
    rw [SymbolTable.eq_of_same hx hy hsame]
  · rw [hv, hw]

theorem isNil_of_equal {v w : Value} (h : v.equal w = true) : v.isNil = w.isNil := by
  rcases equal_cases h with ⟨rfl, rfl⟩ | ⟨i, a, b, j, c, d, rfl, rfl, -⟩ | ⟨x, y, rfl, rfl, hsame⟩ |
    ⟨⟨hv, hw⟩, -⟩
  · rfl
  · rfl
  · rfl
  · rw [(of_not_isList hv).1, (of_not_isList hw).1]

theorem tail?_of_equal {t : SymbolTable} {v w : Value} (hvw : Apart t v w)
    (h : v.equal w = true) : v.tail?.any isNil = w.tail?.any isNil := by
  rcases equal_cases h with ⟨rfl, rfl⟩ | ⟨i, a, b, j, c, d, rfl, rfl, hij⟩ | ⟨x, y, rfl, rfl, hsame⟩ |
    ⟨⟨hv, hw⟩, -⟩
  · rfl
  · have hbd := (hij.resolve_left hvw.pair.1).2
    simpa [tail?] using isNil_of_equal hbd
  · rfl
  · rw [(of_not_isList hv).2.1, (of_not_isList hw).2.1]

/-- Equal values that share no pair have the same splicing forms. -/
theorem splices_of_equal {t : SymbolTable} {v w : Value} (hvw : Apart t v w)
    (h : v.equal w = true) :
    v.isSplice = w.isSplice ∧ v.inner.countP isSplice = w.inner.countP isSplice := by
  induction v generalizing w with
  | pair i a b ihHead ihTail =>
    rcases equal_cases h with ⟨hv, -⟩ | ⟨_, _, _, j, c, d, hv, rfl, hij⟩ | ⟨_, _, hv, -⟩ | ⟨⟨hv, -⟩, -⟩
    · cases hv
    · obtain ⟨rfl, rfl, rfl⟩ := Value.pair.inj hv
      obtain ⟨hne, hhead, htail⟩ := hvw.pair
      obtain ⟨hac, hbd⟩ := hij.resolve_left hne
      obtain ⟨hsplice, hcount⟩ := ihHead hhead hac
      constructor
      · rw [isSplice_pair, isSplice_pair, symbol?_of_equal hhead hac, tail?_of_equal htail hbd]
      · simp only [inner, List.cons_append, List.countP_cons, List.countP_append, hsplice, hcount,
          (ihTail htail hbd).2]
    · cases hv
    · cases hv
  | _ =>
    rcases equal_cases h with ⟨hv, rfl⟩ | ⟨_, _, _, _, _, _, hv, -⟩ | ⟨_, _, hv, rfl, -⟩ | ⟨⟨-, hw⟩, -⟩
    · exact ⟨rfl, rfl⟩
    · cases hv
    · exact ⟨rfl, rfl⟩
    · obtain ⟨-, -, hinner, hsplice⟩ := of_not_isList hw
      rw [hinner, hsplice]
      exact ⟨rfl, rfl⟩

end Value

namespace Grammar

mutual

/-- Every splicing mark becomes a splicing form. -/
theorem Datum.count_le {r r' : Reader} {ts : List Token} {w : Value}
    (hq : ∀ kind, (r.quotes.get kind).name = kind.name) :
    Datum r ts w r' → ts.count (.quote .unquoteSplicing) ≤ w.data.countP Value.isSplice
  | .atom _ text => by simp
  | .string _ _ => by simp
  | .list items value => by
    have hitems := items.count_le hq
    obtain rfl := congrArg Prod.fst value
    rw [Value.data, Value.inner_list]
    simp only [List.cons_append, List.count_cons, List.count_append, List.countP_cons,
      List.count_nil, beq_iff_eq, reduceCtorEq, if_false]
    omega
  | @Datum.quote _ r' _ v _ _ kind datum value => by
    have hdatum := datum.count_le hq
    have hname : QuoteKind.ofName? (r'.quotes.get kind).name = some kind := by
      rw [datum.frame, hq kind, QuoteKind.ofName?_name]
    obtain rfl := (Prod.mk.inj value).1
    simp only [Value.data, Value.inner, List.count_cons, List.countP_cons, List.countP_append,
      List.cons_append, List.nil_append, List.countP_nil, Value.isSplice_quoted _ _ hname,
      beq_iff_eq, Token.quote.injEq] at hdatum ⊢
    omega

theorem Series.count_le {r r' : Reader} {ts : List Token} {vs : List Value}
    (hq : ∀ kind, (r.quotes.get kind).name = kind.name) :
    Series r ts vs r' →
      ts.count (.quote .unquoteSplicing) ≤ (vs.flatMap Value.data).countP Value.isSplice
  | .nil _ => by simp
  | .cons head tail => by
    have hhead := head.count_le hq
    have htail := tail.count_le (by rw [head.frame]; exact hq)
    rw [List.count_append, List.flatMap_cons, List.countP_append]
    omega

end

end Grammar

end Lisplet
