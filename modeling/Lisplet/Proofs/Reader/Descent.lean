import Lisplet.Proofs.Reader.Grammar
import Lisplet.Proofs.Reader.Pieces
import Lisplet.Proofs.Token.Sequence

/-! Reading a whole text agrees with the grammar.  A text is read if its tokens are datums.  Otherwise
`Fails` says what is wrong with it: a parenthesis that closes no list comes first, then a quoted text
without an end, then the innermost thing that the tokens leave open. -/

namespace Lisplet

open Token Grammar

/-! ### Reading tokens -/

namespace Reader

theorem taken_eq_none {r : Reader} {t : Token} (h : (r.accept t).taken = none) :
    ∃ fault r', r.accept t = .refused fault r' := by
  cases hacc : r.accept t with
  | refused fault r' => exact ⟨fault, r', rfl⟩
  | ongoing r' => rw [hacc] at h; cases h
  | datum v r' => rw [hacc] at h; cases h

theorem attach_ne_refused (r r' : Reader) (v : Value) (fault : Fault) :
    r.attach v ≠ .refused fault r' := by
  simp only [attach]
  split <;> simp

/-- Only a closing parenthesis is ever refused, and only where the innermost thing that is open is
not a list. -/
theorem accept_eq_refused_iff {r r' : Reader} {t : Token} {fault : Fault} :
    r.accept t = .refused fault r' ↔
      ∃ kind?, t = .closeList ∧ r.stack.head? = Option.map Context.quote kind? ∧
        fault = .strayClose kind? ∧ r' = { r with stack := r.stack.tail, failed := true } := by
  constructor
  · intro h
    cases t with
    | openList => cases h
    | quote kind => cases h
    | string text => exact absurd h (attach_ne_refused _ _ _ _)
    | atom text => exact absurd h (attach_ne_refused _ _ _ _)
    | closeList =>
      rcases r with ⟨_ | ⟨_ | kind, stack⟩⟩
      · obtain ⟨rfl, rfl⟩ := Accepted.refused.inj h
        exact ⟨none, rfl, rfl, rfl, rfl⟩
      · exact absurd h (attach_ne_refused _ _ _ _)
      · obtain ⟨rfl, rfl⟩ := Accepted.refused.inj h
        exact ⟨some kind, rfl, rfl, rfl, rfl⟩
  · rintro ⟨kind?, rfl, hhead, rfl, rfl⟩
    rcases r with ⟨_ | ⟨_ | kind, stack⟩⟩ <;> cases kind? <;> cases hhead <;> rfl

theorem taken_pending {r r' : Reader} {t : Token} {vs : List Value}
    (h : (r.accept t).taken = some (vs, r')) : r'.pending = r.pending := by
  have hkeep := accept_pending r t
  cases hacc : r.accept t with
  | refused fault r₁ => rw [hacc] at h; cases h
  | ongoing r₁ | datum v r₁ =>
    rw [hacc] at h hkeep
    obtain ⟨rfl, rfl⟩ := Prod.mk.inj (Option.some.inj h)
    exact hkeep

/-- A token that is not refused adds its datums to those of the rest of the text. -/
theorem readMany_of_taken {r r' : Reader} (hp : r.pending = none) {cs here rest : List Char}
    {t : Token} {vs : List Value} (hscan : scan true cs = .found t here rest)
    (hacc : (r.accept t).taken = some (vs, r')) :
    r.readMany true cs =
      { r'.readMany true rest with values := vs ++ (r'.readMany true rest).values } := by
  have hp' := (taken_pending hacc).trans hp
  cases h : r.accept t with
  | refused fault r₁ => rw [h] at hacc; cases hacc
  | ongoing r₁ =>
    rw [h] at hacc
    obtain ⟨rfl, rfl⟩ := Prod.mk.inj (Option.some.inj hacc)
    have hread : r.readChars true cs = r₁.readChars true rest := by
      rw [readChars_eq_readFrom hp, readChars_eq_readFrom hp', readFrom_eq, hscan]
      simp only [h]
    rw [readMany_eq, hread, ← readMany_eq, List.nil_append]
  | datum v r₁ =>
    rw [h] at hacc
    obtain ⟨rfl, rfl⟩ := Prod.mk.inj (Option.some.inj hacc)
    have hread : r.readChars true cs = ⟨r₁, rest, .ok (some v)⟩ := by
      rw [readChars_eq_readFrom hp, readFrom_eq, hscan]
      simp only [h]
    rw [readMany_eq, hread]
    rfl

/-- A text of which a token is refused is read up to that token. -/
theorem readMany_of_refused {r r₁ r' : Reader} (hp : r.pending = none) {cs : List Char}
    {before after : List Placed} {p : Placed} {vs : List Value} {fault : Fault}
    (hplaced : (sequence cs).placed = before ++ p :: after)
    (hrun : r.run (before.map Placed.token) = some (vs, r₁))
    (hacc : r₁.accept p.token = .refused fault r') :
    r.readMany true cs = ⟨vs, r', p.here, some fault⟩ := by
  fun_induction sequence cs generalizing r before vs with
  | case1 cs t here rest hscan more =>
    rename_i ih
    cases before with
    | nil =>
      obtain ⟨rfl, -⟩ := List.cons.inj hplaced
      obtain ⟨rfl, rfl⟩ := Prod.mk.inj (Option.some.inj hrun)
      rw [readMany_eq, readChars_eq_readFrom hp, readFrom_eq, hscan]
      simp only [hacc]
    | cons q before =>
      obtain ⟨rfl, hmore⟩ := List.cons.inj hplaced
      rw [List.map_cons] at hrun
      obtain ⟨vs₁, r₂, vs₂, htaken, hrest, rfl⟩ := run_cons_eq_some hrun
      rw [readMany_of_taken hp hscan htaken, ih ((taken_pending htaken).trans hp) hmore hrest]
  | case2 => simp at hplaced
  | case3 => simp at hplaced

/-- A text of which no token is refused is read to its end. -/
theorem readMany_of_run {r r' : Reader} (hp : r.pending = none) {cs : List Char}
    {vs : List Value} (hrun : r.run (sequence cs).tokens = some (vs, r')) :
    r.readMany true cs =
      match (sequence cs).open? with
      | some here => ⟨vs, { r' with pending := some .string }, here, none⟩
      | none => ⟨vs, r', [], none⟩ := by
  fun_induction sequence cs generalizing r vs with
  | case1 cs t here rest hscan more =>
    rename_i ih
    change r.run (t :: (sequence rest).tokens) = _ at hrun
    obtain ⟨vs₁, r₂, vs₂, htaken, hrest, rfl⟩ := run_cons_eq_some hrun
    rw [readMany_of_taken hp hscan htaken, ih ((taken_pending htaken).trans hp) hrest]
    cases (sequence rest).open? <;> rfl
  | case2 cs here hscan =>
    obtain ⟨rfl, rfl⟩ := Prod.mk.inj (Option.some.inj hrun)
    rw [readMany_eq, readChars_eq_readFrom hp, readFrom_eq, hscan]
  | case3 cs hfound hopen =>
    obtain ⟨rfl, rfl⟩ := Prod.mk.inj (Option.some.inj hrun)
    -- A complete text holds nothing back, so no token and no open quote means that it is at its end.
    have hscan : scan true cs = .finished := by
      cases h : scan true cs with
      | finished => rfl
      | held here => exact absurd h (scan_true_ne_held cs here)
      | openString here => exact absurd h (hopen here)
      | unreadable here => exact absurd h (scan_ne_unreadable true cs here)
      | found t here rest => exact absurd h (hfound t here rest)
    rw [readMany_eq, readChars_eq_readFrom hp, readFrom_eq, hscan]

/-- Tokens are all accepted, or there is a first one that is refused. -/
theorem run_eq_none {r : Reader} {placed : List Placed}
    (h : r.run (placed.map Placed.token) = none) :
    ∃ before p after vs r₁ fault r', placed = before ++ p :: after ∧
      r.run (before.map Placed.token) = some (vs, r₁) ∧
      r₁.accept p.token = .refused fault r' := by
  induction placed generalizing r with
  | nil => cases h
  | cons p placed ih =>
    cases hacc : (r.accept p.token).taken with
    | none =>
      obtain ⟨fault, r', hrefused⟩ := taken_eq_none hacc
      exact ⟨[], p, placed, [], r, fault, r', rfl, rfl, hrefused⟩
    | some first =>
      obtain ⟨vs, r₁⟩ := first
      rw [List.map_cons, run_cons hacc, Option.map_eq_none_iff] at h
      obtain ⟨before, q, after, ws, r₂, fault, r', rfl, hrun, hrefused⟩ := ih h
      refine ⟨p :: before, q, after, vs ++ ws, r₂, fault, r', rfl, ?_, hrefused⟩
      rw [List.map_cons, run_cons hacc, hrun]
      rfl

end Reader

/-! ### What is wrong with a text -/

namespace Grammar

/-- The closing parenthesis that begins `here` is the first that closes no list: nothing is open
before it, or the innermost thing open there is the quote mark named. -/
def StrayClose (r : Reader) (placed : List Placed) (kind? : Option QuoteKind)
    (here : List Char) : Prop :=
  ∃ before after vs stack r', placed = before ++ ⟨.closeList, here⟩ :: after ∧
    Opens r (before.map Placed.token) vs stack r' ∧ stack.head? = kind?.map Context.quote

/-- Why a text cannot be read, and the number of bytes before the place where that shows. -/
inductive Fails (r : Reader) (cs : List Char) : ReadError → Prop
  | strayClose {kind? : Option QuoteKind} {front here : List Char} (offset : cs = front ++ here)
      (close : StrayClose r (sequence cs).placed kind? here) :
      Fails r cs ⟨.strayClose kind?, utf8Length front⟩
  | unterminatedString {front here : List Char} (offset : cs = front ++ here)
      (clear : ∀ kind? place, ¬ StrayClose r (sequence cs).placed kind? place)
      (ends : (sequence cs).open? = some here) :
      Fails r cs ⟨.unterminatedString, utf8Length front⟩
  | unclosedLists {vs items : List Value} {stack : List Context} {r' : Reader}
      (clear : ∀ kind? place, ¬ StrayClose r (sequence cs).placed kind? place)
      (ends : (sequence cs).open? = none)
      (opens : Opens r (sequence cs).tokens vs (.list items :: stack) r') :
      Fails r cs ⟨.unclosedLists { r' with stack := .list items :: stack }.openLists,
        utf8Length cs⟩
  | danglingQuote {vs : List Value} {stack : List Context} {r' : Reader} {kind : QuoteKind}
      (clear : ∀ kind? place, ¬ StrayClose r (sequence cs).placed kind? place)
      (ends : (sequence cs).open? = none)
      (opens : Opens r (sequence cs).tokens vs (.quote kind :: stack) r') :
      Fails r cs ⟨.danglingQuote kind, utf8Length cs⟩

theorem StrayClose.suffix {r : Reader} {cs here : List Char} {kind? : Option QuoteKind}
    (h : StrayClose r (sequence cs).placed kind? here) : ∃ front, cs = front ++ here := by
  obtain ⟨before, after, _, _, _, hplaced, -⟩ := h
  obtain ⟨front, hfront⟩ := (sequence_suffix cs).1 ⟨.closeList, here⟩ (by simp [hplaced])
  exact ⟨front, hfront.symm⟩

/-- Tokens that complete datums and leave something open have no stray parenthesis among them. -/
theorem Opens.not_strayClose {r r' : Reader} (hr : r.stack = []) {placed : List Placed}
    {vs : List Value} {stack : List Context} {kind? : Option QuoteKind} {here : List Char}
    (h : Opens r (placed.map Placed.token) vs stack r') : ¬ StrayClose r placed kind? here := by
  rintro ⟨before, after, ws, stack₁, r₁, rfl, hbefore, hhead⟩
  have hall := (Reader.run_eq_some_iff hr).2 ⟨stack, r', rfl, h⟩
  have hrun := (Reader.run_eq_some_iff hr).2 ⟨stack₁, r₁, rfl, hbefore⟩
  have hrefused : { r₁ with stack := stack₁ }.accept .closeList = _ :=
    Reader.accept_eq_refused_iff.2 ⟨kind?, rfl, hhead, rfl, rfl⟩
  rw [List.map_append, Reader.run_append hrun, List.map_cons,
    Reader.run_cons_refused (by rw [hrefused]; rfl)] at hall
  cases hall

/-- Every run of tokens has a stray parenthesis or completes datums and leaves something open. -/
theorem strayClose_or_opens {r : Reader} (hr : r.stack = []) (placed : List Placed) :
    (∃ kind? here, StrayClose r placed kind? here) ∨
      ∃ vs stack r', Opens r (placed.map Placed.token) vs stack r' := by
  cases hrun : r.run (placed.map Placed.token) with
  | none =>
    obtain ⟨before, ⟨t, here⟩, after, vs, r₁, fault, r', rfl, hbefore, hrefused⟩ :=
      Reader.run_eq_none hrun
    obtain ⟨kind?, rfl, hhead, -, -⟩ := Reader.accept_eq_refused_iff.1 hrefused
    obtain ⟨stack, r₂, rfl, hopens⟩ := (Reader.run_eq_some_iff hr).1 hbefore
    exact .inl ⟨kind?, here, before, after, vs, stack, r₂, rfl, hopens, hhead⟩
  | some all =>
    obtain ⟨vs, r₁⟩ := all
    obtain ⟨stack, r', -, hopens⟩ := (Reader.run_eq_some_iff hr).1 hrun
    exact .inr ⟨vs, stack, r', hopens⟩

end Grammar

namespace Reader

variable {r : Reader}

theorem readAll_of_fault {text : String} {datums : Datums} {fault : Fault}
    (h : r.readMany true text.toList = datums) (hfault : datums.fault? = some fault) :
    r.readAll text =
      (.error ⟨fault, utf8Length text.toList - utf8Length datums.rest⟩, datums.reader) := by
  simp only [readAll, h, hfault, Stream.moveTo, Stream.ofText, Nat.zero_add]

theorem readAll_of_end {text : String} {datums : Datums}
    (h : r.readMany true text.toList = datums) (hfault : datums.fault? = none) :
    r.readAll text =
      match datums.reader.missing? with
      | some fault =>
        (.error ⟨fault, utf8Length text.toList - utf8Length datums.rest⟩, datums.reader)
      | none => (.ok datums.values, datums.reader) := by
  simp only [readAll, h, hfault, finish, finishAt, Stream.moveTo, Stream.ofText, Nat.zero_add]
  cases datums.reader.missing? <;> rfl

theorem utf8Length_sub_of_eq {cs front here : List Char} (h : cs = front ++ here) :
    utf8Length cs - utf8Length here = utf8Length front := by
  rw [h, utf8Length_append]
  omega

section

variable (hr : r.stack = []) (hp : r.pending = none) {text : String}
include hr hp

theorem readAll_of_strayClose {kind? : Option QuoteKind} {front here : List Char}
    (offset : text.toList = front ++ here)
    (close : StrayClose r (sequence text.toList).placed kind? here) :
    (r.readAll text).1 = .error ⟨.strayClose kind?, utf8Length front⟩ := by
  obtain ⟨before, after, vs, stack, r', hplaced, hopens, hhead⟩ := close
  have hrun := (run_eq_some_iff hr).2 ⟨stack, r', rfl, hopens⟩
  have hrefused : { r' with stack }.accept .closeList = _ :=
    accept_eq_refused_iff.2 ⟨kind?, rfl, hhead, rfl, rfl⟩
  have hread := readMany_of_refused hp hplaced hrun hrefused
  rw [readAll_of_fault hread rfl]
  simp only [utf8Length_sub_of_eq offset]

theorem readAll_of_open {here front : List Char} {vs : List Value} {stack : List Context}
    {r' : Reader} (offset : text.toList = front ++ here)
    (opens : Opens r (sequence text.toList).tokens vs stack r')
    (ends : (sequence text.toList).open? = some here) :
    (r.readAll text).1 = .error ⟨.unterminatedString, utf8Length front⟩ := by
  have hread := readMany_of_run hp ((run_eq_some_iff hr).2 ⟨stack, r', rfl, opens⟩)
  rw [ends] at hread
  rw [readAll_of_end hread rfl]
  simp only [missing?, if_true, utf8Length_sub_of_eq offset]

theorem readAll_of_opens {vs : List Value} {stack : List Context} {r' : Reader}
    (opens : Opens r (sequence text.toList).tokens vs stack r')
    (ends : (sequence text.toList).open? = none) :
    r.readAll text =
      match stack with
      | [] => (.ok vs, r')
      | .list items :: stack =>
        (.error ⟨.unclosedLists { r' with stack := .list items :: stack }.openLists,
          utf8Length text.toList⟩, { r' with stack := .list items :: stack })
      | .quote kind :: stack =>
        (.error ⟨.danglingQuote kind, utf8Length text.toList⟩,
          { r' with stack := .quote kind :: stack }) := by
  have hread := readMany_of_run hp ((run_eq_some_iff hr).2 ⟨stack, r', rfl, opens⟩)
  have hp' : r'.pending = none := by rw [opens.frame]; exact hp
  have hr' : r'.stack = [] := by rw [opens.frame]; exact hr
  rw [ends] at hread
  rw [readAll_of_end hread rfl]
  match stack with
  | [] =>
    simp only [setStack_nil hr']
    simp [missing?, hp', hr']
  | .list items :: stack => simp [missing?, hp', utf8Length]
  | .quote kind :: stack => simp [missing?, hp', utf8Length]

/-- A text is read, and its tokens are datums, or it is not, and something is wrong with it. -/
theorem readAll_cases (text : String) :
    (∃ vs r', r.readAll text = (.ok vs, r') ∧ (sequence text.toList).open? = none ∧
        Series r (sequence text.toList).tokens vs r') ∨
      ∃ e, (r.readAll text).1 = .error e ∧ Fails r text.toList e := by
  rcases strayClose_or_opens hr (sequence text.toList).placed with
    ⟨kind?, here, close⟩ | ⟨vs, stack, r', opens⟩
  · obtain ⟨front, offset⟩ := close.suffix
    exact .inr ⟨_, readAll_of_strayClose hr hp offset close, .strayClose offset close⟩
  · have clear : ∀ kind? place, ¬ StrayClose r (sequence text.toList).placed kind? place :=
      fun kind? place => opens.not_strayClose hr
    cases ends : (sequence text.toList).open? with
    | some here =>
      obtain ⟨front, offset⟩ := (sequence_suffix text.toList).2 here ends
      exact .inr ⟨_, readAll_of_open hr hp offset.symm opens ends,
        .unterminatedString offset.symm clear ends⟩
    | none =>
      have hall := readAll_of_opens hr hp opens ends
      match stack with
      | [] => exact .inl ⟨vs, r', hall, rfl, opens.series⟩
      | .list items :: stack =>
        exact .inr ⟨_, congrArg Prod.fst hall, .unclosedLists clear ends opens⟩
      | .quote kind :: stack =>
        exact .inr ⟨_, congrArg Prod.fst hall, .danglingQuote clear ends opens⟩

/-- A text is read exactly if it is tokenised completely and its tokens are datums. -/
theorem readAll_eq_ok_iff {vs : List Value} {r' : Reader} :
    r.readAll text = (.ok vs, r') ↔
      (sequence text.toList).open? = none ∧ Series r (sequence text.toList).tokens vs r' := by
  constructor
  · intro hok
    rcases readAll_cases hr hp text with ⟨ws, r₁, hread, hseries⟩ | ⟨e, herror, -⟩
    · rw [hok] at hread
      obtain ⟨hvs, rfl⟩ := Prod.mk.inj hread
      obtain rfl := Except.ok.inj hvs
      exact hseries
    · rw [hok] at herror
      cases herror
  · rintro ⟨ends, datums⟩
    exact readAll_of_opens hr hp (.nothing datums) ends

/-- A text fails to be read exactly as the grammar says. -/
theorem readAll_eq_error_iff {e : ReadError} :
    (r.readAll text).1 = .error e ↔ Fails r text.toList e := by
  constructor
  · intro herror
    rcases readAll_cases hr hp text with ⟨vs, r', hread, -⟩ | ⟨e', herror', hfails⟩
    · rw [hread] at herror
      cases herror
    · rw [herror] at herror'
      obtain rfl := Except.error.inj herror'
      exact hfails
  · rintro (⟨offset, close⟩ | ⟨offset, clear, ends⟩ | ⟨clear, ends, opens⟩ | ⟨clear, ends, opens⟩)
    · exact readAll_of_strayClose hr hp offset close
    · rcases strayClose_or_opens hr (sequence text.toList).placed with
        ⟨kind?, here, close⟩ | ⟨vs, stack, r', opens⟩
      · exact absurd close (clear kind? here)
      · exact readAll_of_open hr hp offset opens ends
    · rw [readAll_of_opens hr hp opens ends]
    · rw [readAll_of_opens hr hp opens ends]

end

/-- A fresh reader, with whatever factories, reads a text to the datums that the grammar finds in its
tokens, if the text is tokenised completely and its tokens are datums.  Every other text fails for
the one reason that `Fails` gives, at the place it gives; no place in a text is unreadable. -/
theorem readAll_iff_grammar (table : SymbolTable) (supply : Supply) (factories : List Factory)
    (text : String) :
    let r := { Reader.ofTable table supply with factories }
    (∀ vs r', r.readAll text = (.ok vs, r') ↔
      (sequence text.toList).open? = none ∧ Series r (sequence text.toList).tokens vs r') ∧
    (∀ e, (r.readAll text).1 = .error e ↔ Fails r text.toList e) ∧
    ∀ offset, (r.readAll text).1 ≠ .error ⟨.unreadable, offset⟩ := by
  intro r
  refine ⟨fun vs r' => readAll_eq_ok_iff rfl rfl, fun e => readAll_eq_error_iff rfl rfl, ?_⟩
  intro offset herror
  cases (readAll_eq_error_iff rfl rfl).1 herror

end Reader

end Lisplet
