import Lisplet.Proofs.Reader.Descent
import Lisplet.Proofs.Token.Layout

/-! Layout does not matter to the reader.  What a complete text is read as is decided by its tokens
alone, so all layouts of the same tokens are read as the same datums or fail for the same reason. -/

namespace Lisplet.Reader

open Token

variable {r : Reader}

/-- A text whose tokens are not all accepted fails as every text with these tokens does. -/
theorem readMany_of_run_eq_none (hp : r.pending = none) {ts : List Token} (h : r.run ts = none) :
    ∃ vs r' fault, ∀ cs, (sequence cs).tokens = ts →
      ∃ here, r.readMany true cs = ⟨vs, r', here, some fault⟩ := by
  have hplaced : (ts.map (⟨·, []⟩ : Token → Placed)).map Placed.token = ts := by
    simp [Function.comp_def]
  rw [← hplaced] at h
  obtain ⟨before, p, after, vs, r₁, fault, r', hsplit, hrun, hrefused⟩ := run_eq_none h
  rw [hsplit, List.map_append, List.map_cons] at hplaced
  refine ⟨vs, r', fault, fun cs htokens => ?_⟩
  rw [Tokenised.tokens, ← hplaced] at htokens
  obtain ⟨before', rest, hcs, hbefore, hrest⟩ := List.map_eq_append_iff.1 htokens
  obtain ⟨q, after', rfl, hq, -⟩ := List.map_eq_cons_iff.1 hrest
  rw [← hbefore] at hrun
  rw [← hq] at hrefused
  exact ⟨q.here, readMany_of_refused hp hcs hrun hrefused⟩

/-- Two complete texts with the same tokens, neither of which ends in a quoted text, are read alike:
all that can differ is the place of an error. -/
theorem readAll_congr (hp : r.pending = none) {text text' : String}
    (htokens : (sequence text.toList).tokens = (sequence text'.toList).tokens)
    (hopen : (sequence text.toList).open? = none) (hopen' : (sequence text'.toList).open? = none) :
    (r.readAll text).1.mapError ReadError.fault = (r.readAll text').1.mapError ReadError.fault ∧
      (r.readAll text).2 = (r.readAll text').2 := by
  cases hrun : r.run (sequence text.toList).tokens with
  | none =>
    obtain ⟨vs, r', fault, hread⟩ := readMany_of_run_eq_none hp hrun
    obtain ⟨here, hhere⟩ := hread text.toList rfl
    obtain ⟨here', hhere'⟩ := hread text'.toList htokens.symm
    rw [readAll_of_fault hhere rfl, readAll_of_fault hhere' rfl]
    exact ⟨rfl, rfl⟩
  | some all =>
    obtain ⟨vs, r'⟩ := all
    have hread := readMany_of_run hp hrun
    have hread' := readMany_of_run hp (htokens ▸ hrun)
    rw [hopen] at hread
    rw [hopen'] at hread'
    rw [readAll_of_end hread rfl, readAll_of_end hread' rfl]
    cases r'.missing? with
    | none => exact ⟨rfl, rfl⟩
    | some fault => exact ⟨rfl, rfl⟩

/-- A fresh reader, with whatever factories, reads a text that is laid out from tokens, in whatever
way, as it reads the same tokens with a single space between them: it gives the same datums, or
fails for the same reason, and is left in the same state with the same symbols. -/
theorem readAll_layout (table : SymbolTable) (supply : Supply) (factories : List Factory)
    (l : Layout) :
    let r := { Reader.ofTable table supply with factories }
    let spaced := String.ofList ([' '].intercalate (l.tokens.map spelling))
    (r.readAll (String.ofList l.chars)).1.mapError ReadError.fault =
        (r.readAll spaced).1.mapError ReadError.fault ∧
      (r.readAll (String.ofList l.chars)).2 = (r.readAll spaced).2 := by
  intro r spaced
  have hspelt : ∀ t ∈ l.tokens, t.Spelt := List.forall_mem_map.2 l.spelt
  obtain ⟨htokens, hopen⟩ := l.sequence_chars
  obtain ⟨htokens', hopen'⟩ := (Layout.spaced l.tokens hspelt).sequence_chars
  rw [Layout.tokens_spaced] at htokens'
  rw [Layout.chars_spaced] at htokens' hopen'
  refine readAll_congr rfl ?_ ?_ ?_
  · rw [String.toList_ofList, String.toList_ofList, htokens, htokens']
  · rw [String.toList_ofList, hopen]
  · rw [String.toList_ofList, hopen']

end Lisplet.Reader
