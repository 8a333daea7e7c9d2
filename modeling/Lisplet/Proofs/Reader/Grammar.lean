import Lisplet.Proofs.Reader.Step

/-! The grammar of datums.  `Datum` and `Series` read tokens by recursive descent, `Opens` says what a
run of tokens has completed and what it leaves open, and `run` gives the tokens to the reader one by
one.  The two agree: `run_eq_some_iff`. -/

namespace Lisplet

/-- The datums that a token completed, and the reader after it; nothing if the token was refused. -/
def Accepted.taken : Accepted → Option (List Value × Reader)
  | .refused _ _ => none
  | .ongoing r => some ([], r)
  | .datum v r => some ([v], r)

/-- Gives tokens to a reader: the datums they complete, and the reader after them, unless one of them
is refused. -/
def Reader.run (r : Reader) : List Token → Option (List Value × Reader)
  | [] => some ([], r)
  | t :: ts =>
    (r.accept t).taken.bind fun (vs, r) => (r.run ts).map fun (ws, r) => (vs ++ ws, r)

namespace Grammar

mutual

/-- The tokens are one datum: an atom, a string, a list, or a quote mark with its datum.  The readers
before and after stand for the symbols and the identities taken; their stack plays no part. -/
inductive Datum : Reader → List Token → Value → Reader → Prop
  | atom (r : Reader) (text : String) :
      Datum r [.atom text] (r.atom text).1 (r.atom text).2
  | string (r : Reader) (text : String) :
      Datum r [.string text] (.string r.supply.ident text) { r with supply := r.supply.rest }
  | list {r r' : Reader} {ts : List Token} {vs : List Value} {v : Value} {s : Supply}
      (items : Series r ts vs r') (value : Value.list vs r'.supply = (v, s)) :
      Datum r (.openList :: ts ++ [.closeList]) v { r' with supply := s }
  | quote {r r' : Reader} {ts : List Token} {v w : Value} {s : Supply} (kind : QuoteKind)
      (datum : Datum r ts v r') (value : Value.wrap (r'.quotes.get kind) v r'.supply = (w, s)) :
      Datum r (.quote kind :: ts) w { r' with supply := s }

/-- The tokens are datums one after the other. -/
inductive Series : Reader → List Token → List Value → Reader → Prop
  | nil (r : Reader) : Series r [] [] r
  | cons {r r' r'' : Reader} {ts us : List Token} {v : Value} {vs : List Value}
      (head : Datum r ts v r') (tail : Series r' us vs r'') : Series r (ts ++ us) (v :: vs) r''

end

/-- The tokens are datums and then, one inside the other, lists and quote marks that are still open,
each list with the datums read in it so far. -/
inductive Opens (r₀ : Reader) : List Token → List Value → List Context → Reader → Prop
  | nothing {ts : List Token} {vs : List Value} {r : Reader} (datums : Series r₀ ts vs r) :
      Opens r₀ ts vs [] r
  | list {ts us : List Token} {vs ws : List Value} {stack : List Context} {r r' : Reader}
      (outer : Opens r₀ ts vs stack r) (items : Series r us ws r') :
      Opens r₀ (ts ++ .openList :: us) vs (.list ws.reverse :: stack) r'
  | quote {ts : List Token} {vs : List Value} {stack : List Context} {r : Reader}
      (kind : QuoteKind) (outer : Opens r₀ ts vs stack r) :
      Opens r₀ (ts ++ [.quote kind]) vs (.quote kind :: stack) r

theorem Series.single {r r' : Reader} {ts : List Token} {v : Value} (h : Datum r ts v r') :
    Series r ts [v] r' := by
  simpa using Series.cons h (.nil r')

theorem Series.datum {r r' : Reader} {ts : List Token} {v : Value} (h : Series r ts [v] r') :
    Datum r ts v r' := by
  cases h with
  | cons head tail =>
    cases tail with
    | nil _ => simpa using head

theorem Series.append {r r' r'' : Reader} {ts us : List Token} {vs ws : List Value} :
    Series r ts vs r' → Series r' us ws r'' → Series r (ts ++ us) (vs ++ ws) r''
  | .nil _, h => h
  | .cons head tail, h => by
    rw [List.append_assoc]
    exact .cons head (tail.append h)

theorem Opens.series {r₀ r : Reader} {ts : List Token} {vs : List Value}
    (h : Opens r₀ ts vs [] r) : Series r₀ ts vs r := by
  cases h with
  | nothing datums => exact datums

theorem atom_frame (r : Reader) (text : String) :
    (r.atom text).2 =
      { r with table := (r.atom text).2.table, supply := (r.atom text).2.supply } := by
  simp only [Reader.atom]
  split
  · rfl
  · split <;> rfl

mutual

/-- Reading a datum changes nothing in the reader but its table and its supply. -/
theorem Datum.frame {r r' : Reader} {ts : List Token} {v : Value} :
    Datum r ts v r' → r' = { r with table := r'.table, supply := r'.supply }
  | .atom _ text => atom_frame r text
  | .string _ _ => rfl
  | .list items _ => by rw [items.frame]
  | .quote _ datum _ => by rw [datum.frame]

theorem Series.frame {r r' : Reader} {ts : List Token} {vs : List Value} :
    Series r ts vs r' → r' = { r with table := r'.table, supply := r'.supply }
  | .nil _ => rfl
  | .cons head tail => by rw [tail.frame, head.frame]

end

theorem Opens.frame {r₀ r : Reader} {ts : List Token} {vs : List Value} {stack : List Context}
    (h : Opens r₀ ts vs stack r) : r = { r₀ with table := r.table, supply := r.supply } := by
  induction h with
  | nothing datums => exact datums.frame
  | list outer items ih => rw [items.frame, ih]
  | quote kind outer ih => exact ih

end Grammar

namespace Reader

open Grammar

theorem run_cons {r r' : Reader} {t : Token} {vs : List Value}
    (h : (r.accept t).taken = some (vs, r')) (ts : List Token) :
    r.run (t :: ts) = (r'.run ts).map fun (ws, r) => (vs ++ ws, r) := by
  rw [run, h]
  rfl

theorem run_cons_refused {r : Reader} {t : Token} (h : (r.accept t).taken = none)
    (ts : List Token) : r.run (t :: ts) = none := by
  rw [run, h]
  rfl

/-- If some tokens are accepted, the first is and then the others are. -/
theorem run_cons_eq_some {r r' : Reader} {t : Token} {ts : List Token} {vs : List Value}
    (h : r.run (t :: ts) = some (vs, r')) :
    ∃ vs₁ r₁ vs₂, (r.accept t).taken = some (vs₁, r₁) ∧ r₁.run ts = some (vs₂, r') ∧
      vs = vs₁ ++ vs₂ := by
  cases hacc : (r.accept t).taken with
  | none =>
    rw [run_cons_refused hacc] at h
    cases h
  | some first =>
    obtain ⟨vs₁, r₁⟩ := first
    rw [run_cons hacc] at h
    obtain ⟨⟨vs₂, r₂⟩, hrun, he⟩ := Option.map_eq_some_iff.1 h
    obtain ⟨rfl, rfl⟩ := Prod.mk.inj he
    exact ⟨vs₁, r₁, vs₂, rfl, hrun, rfl⟩

theorem run_append {r r' : Reader} {ts : List Token} {vs : List Value}
    (h : r.run ts = some (vs, r')) (us : List Token) :
    r.run (ts ++ us) = (r'.run us).map fun (ws, r) => (vs ++ ws, r) := by
  induction ts generalizing r vs with
  | nil =>
    obtain ⟨rfl, rfl⟩ := Prod.mk.inj (Option.some.inj h)
    simp
  | cons t ts ih =>
    obtain ⟨vs₁, r₁, vs₂, hacc, hrun, rfl⟩ := run_cons_eq_some h
    rw [List.cons_append, run_cons hacc, ih hrun]
    cases r'.run us <;> simp

/-! ### From the grammar to the reader -/

theorem atom_setStack (r : Reader) (stack : List Context) (text : String) :
    { r with stack }.atom text = ((r.atom text).1, { (r.atom text).2 with stack }) := by
  simp only [atom]
  split
  · rfl
  · split <;> rfl

theorem attach_nil (r : Reader) (v : Value) :
    { r with stack := [] }.attach v = .datum v { r with stack := [] } := rfl

theorem attach_list (r : Reader) (v : Value) (items : List Value) (stack : List Context) :
    { r with stack := .list items :: stack }.attach v =
      .ongoing { r with stack := .list (v :: items) :: stack } := rfl

theorem attach_quote {r : Reader} {v w : Value} {s : Supply} {kind : QuoteKind}
    (h : Value.wrap (r.quotes.get kind) v r.supply = (w, s)) (stack : List Context) :
    { r with stack := .quote kind :: stack }.attach v =
      { r with stack, supply := s }.attach w := by
  simp only [attach, place, h]

theorem run_single (r : Reader) (t : Token) : r.run [t] = (r.accept t).taken := by
  cases h : (r.accept t).taken with
  | none => exact run_cons_refused h []
  | some first =>
    rw [run_cons h]
    simp [run]

mutual

/-- The tokens of a datum do to the reader what its value does. -/
theorem run_datum {r r' : Reader} {ts : List Token} {v : Value} :
    Datum r ts v r' → ∀ stack, { r with stack }.run ts = ({ r' with stack }.attach v).taken
  | .atom _ text, stack => by
    rw [run_single]
    simp only [accept, atom_setStack]
  | .string _ text, stack => by
    rw [run_single]
    rfl
  | .list items value, stack => by
    have hopen : ({ r with stack }.accept .openList).taken =
        some ([], { r with stack := .list [] :: stack }) := rfl
    rw [List.cons_append, run_cons hopen, run_append (run_items items [] stack), run_single]
    simp [accept, value]
  | .quote kind datum value, stack => by
    have hquote : ({ r with stack }.accept (.quote kind)).taken =
        some ([], { r with stack := .quote kind :: stack }) := rfl
    rw [run_cons hquote, run_datum datum, attach_quote value]
    simp

theorem run_items {r r' : Reader} {ts : List Token} {vs : List Value} :
    Series r ts vs r' → ∀ items stack, { r with stack := .list items :: stack }.run ts =
      some ([], { r' with stack := .list (vs.reverse ++ items) :: stack })
  | .nil _, items, stack => rfl
  | .cons head tail, items, stack => by
    have hhead := run_datum head (.list items :: stack)
    rw [attach_list] at hhead
    rw [run_append hhead, run_items tail]
    simp

end

theorem run_series {r r' : Reader} {ts : List Token} {vs : List Value} :
    Series r ts vs r' → { r with stack := [] }.run ts = some (vs, { r' with stack := [] })
  | .nil _ => rfl
  | .cons head tail => by
    have hhead := run_datum head []
    rw [attach_nil] at hhead
    rw [run_append hhead, run_series tail]
    rfl

/-- What the tokens complete and leave open by the grammar, the reader completes and leaves open. -/
theorem run_opens {r₀ r : Reader} {ts : List Token} {vs : List Value} {stack : List Context}
    (h : Opens r₀ ts vs stack r) :
    { r₀ with stack := [] }.run ts = some (vs, { r with stack }) := by
  induction h with
  | nothing datums => exact run_series datums
  | @list ts us vs ws stack r r' outer items ih =>
    have hopen : ({ r with stack }.accept .openList).taken =
        some ([], { r with stack := .list [] :: stack }) := rfl
    rw [run_append ih, run_cons hopen, run_items items]
    simp
  | @quote ts vs stack r kind outer ih =>
    have hquote : ({ r with stack }.accept (.quote kind)).taken =
        some ([], { r with stack := .quote kind :: stack }) := rfl
    rw [run_append ih, run_single, hquote]
    simp

end Reader

/-! ### From the reader to the grammar -/

namespace Grammar

/-- A datum goes where the tokens before it left something open. -/
theorem Opens.attach {r₀ r r' r₁ : Reader} {ts us : List Token} {vs ws : List Value} {v : Value}
    {stack : List Context} (h : Opens r₀ ts vs stack r) (d : Datum r us v r')
    (ha : ({ r' with stack }.attach v).taken = some (ws, r₁)) :
    ∃ stack' r'', r₁ = { r'' with stack := stack' } ∧
      Opens r₀ (ts ++ us) (vs ++ ws) stack' r'' := by
  induction h generalizing us v r' with
  | nothing datums =>
    rw [Reader.attach_nil] at ha
    obtain ⟨rfl, rfl⟩ := Prod.mk.inj (Option.some.inj ha)
    exact ⟨[], r', rfl, .nothing (datums.append (.single d))⟩
  | @list ts us₀ vs items stack r r₂ outer series ih =>
    rw [Reader.attach_list] at ha
    obtain ⟨rfl, rfl⟩ := Prod.mk.inj (Option.some.inj ha)
    refine ⟨.list (v :: items.reverse) :: stack, r', rfl, ?_⟩
    have hopens := Opens.list outer (series.append (.single d))
    simpa using hopens
  | @quote ts vs stack r kind outer ih =>
    rcases hw : Value.wrap (r'.quotes.get kind) v r'.supply with ⟨w, s⟩
    rw [Reader.attach_quote hw] at ha
    rw [List.append_assoc]
    exact ih (.quote kind d hw) ha

/-- A token that is not refused keeps what the tokens complete and leave open in step with the
reader. -/
theorem Opens.step {r₀ r r₁ : Reader} {ts : List Token} {vs ws : List Value} {t : Token}
    {stack : List Context} (h : Opens r₀ ts vs stack r)
    (ha : ({ r with stack }.accept t).taken = some (ws, r₁)) :
    ∃ stack' r', r₁ = { r' with stack := stack' } ∧
      Opens r₀ (ts ++ [t]) (vs ++ ws) stack' r' := by
  cases t with
  | openList =>
    obtain ⟨rfl, rfl⟩ := Prod.mk.inj (Option.some.inj ha)
    exact ⟨.list [] :: stack, r, rfl, by simpa using Opens.list h (.nil r)⟩
  | quote kind =>
    obtain ⟨rfl, rfl⟩ := Prod.mk.inj (Option.some.inj ha)
    exact ⟨.quote kind :: stack, r, rfl, by simpa using Opens.quote kind h⟩
  | string text => exact h.attach (.string r text) ha
  | atom text =>
    simp only [Reader.accept, Reader.atom_setStack] at ha
    exact h.attach (.atom r text) ha
  | closeList =>
    cases h with
    | nothing datums => cases ha
    | quote kind outer => cases ha
    | @list _ _ _ items _ _ _ outer series =>
      rcases hv : Value.list items r.supply with ⟨v, s⟩
      simp only [Reader.accept, List.reverse_reverse, hv] at ha
      have hattach := outer.attach (.list series hv) ha
      simpa using hattach

/-- The reader leaves open what the tokens leave open by the grammar. -/
theorem Opens.run {r₀ r r₁ : Reader} {ts us : List Token} {vs ws : List Value}
    {stack : List Context} (h : Opens r₀ ts vs stack r)
    (hrun : { r with stack }.run us = some (ws, r₁)) :
    ∃ stack' r', r₁ = { r' with stack := stack' } ∧
      Opens r₀ (ts ++ us) (vs ++ ws) stack' r' := by
  induction us generalizing ts vs ws stack r with
  | nil =>
    obtain ⟨rfl, rfl⟩ := Prod.mk.inj (Option.some.inj hrun)
    exact ⟨stack, r, rfl, by simpa using h⟩
  | cons t us ih =>
    obtain ⟨vs₁, r₂, vs₂, hacc, hrest, rfl⟩ := Reader.run_cons_eq_some hrun
    obtain ⟨stack', r', rfl, hstep⟩ := h.step hacc
    have hopens := ih hstep hrest
    simpa using hopens

end Grammar

theorem Reader.setStack_nil {r : Reader} (h : r.stack = []) : { r with stack := [] } = r := by
  cases r
  cases h
  rfl

/-- A reader that stands in nothing accepts exactly the tokens that complete some datums and leave
something open, and its stack holds what they leave open. -/
theorem Reader.run_eq_some_iff {r r₁ : Reader} (hr : r.stack = []) {ts : List Token}
    {vs : List Value} :
    r.run ts = some (vs, r₁) ↔
      ∃ stack r', r₁ = { r' with stack } ∧ Grammar.Opens r ts vs stack r' := by
  constructor
  · intro hrun
    rw [← setStack_nil hr] at hrun
    exact Grammar.Opens.run (.nothing (.nil r)) hrun
  · rintro ⟨stack, r', rfl, hopens⟩
    exact setStack_nil hr ▸ run_opens hopens

end Lisplet
