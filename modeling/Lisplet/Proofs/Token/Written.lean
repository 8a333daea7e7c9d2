import Lisplet.Proofs.Token.Sequence

/-! Tokens as they are written.  `Lexes piece ts k` says that a piece of text in front of `k` is the
tokens `ts` and leaves `k` as it is; a longer text is put together from such pieces. -/

namespace Lisplet.Token

/-- In front of `k`, the piece is the tokens. -/
def Lexes (piece : List Char) (ts : List Token) (k : List Char) : Prop :=
  (sequence (piece ++ k)).tokens = ts ++ (sequence k).tokens ∧
    (sequence (piece ++ k)).open? = (sequence k).open?

/-- An atom ends before the text. -/
def Delimited (k : List Char) : Prop := ∀ c ∈ k.head?, isDelimiter c = true

theorem Lexes.append {p q k : List Char} {ts us : List Token} (hp : Lexes p ts (q ++ k))
    (hq : Lexes q us k) : Lexes (p ++ q) (ts ++ us) k := by
  simp only [Lexes, List.append_assoc] at hp hq ⊢
  exact ⟨by rw [hp.1, hq.1], by rw [hp.2, hq.2]⟩

theorem scan_of_lexeme {c : Char} {cs rest : List Char} {t : Token} (hspace : isSpace c = false)
    (hc : c ≠ ';') (h : lexeme (c :: cs) = .token t rest) :
    scan true (c :: cs) = .found t (c :: cs) rest := by
  simp [scan, skipGap, hspace, hc, h]

theorem lexes_of_lexeme {c : Char} {cs k : List Char} {t : Token} (hspace : isSpace c = false)
    (hc : c ≠ ';') (h : lexeme (c :: cs ++ k) = .token t k) : Lexes (c :: cs) [t] k := by
  rw [List.cons_append] at h
  have hseq := sequence_eq (c :: (cs ++ k))
  rw [scan_of_lexeme hspace hc h] at hseq
  simp only [Lexes, List.cons_append, hseq, Tokenised.tokens, List.map_cons, List.nil_append,
    and_self]

theorem lexes_space (k : List Char) : Lexes [' '] [] k := by
  have hscan : scan true (' ' :: k) = scan true k := scan_congr rfl
  have hseq := sequence_eq (' ' :: k)
  rw [hscan, ← sequence_eq] at hseq
  simp only [Lexes, List.singleton_append, hseq, List.nil_append, and_self]

theorem lexes_open (k : List Char) : Lexes ['('] [.openList] k :=
  lexes_of_lexeme (by decide) (by decide) rfl

theorem lexes_close (k : List Char) : Lexes [')'] [.closeList] k :=
  lexes_of_lexeme (by decide) (by decide) rfl

/-- A mark is its token, whatever follows it, but for a comma in front of an at sign. -/
theorem lexes_mark (kind : QuoteKind) (k : List Char)
    (h : kind = .unquote → k.head? ≠ some '@') : Lexes kind.mark.toList [.quote kind] k := by
  cases kind with
  | quote => exact lexes_of_lexeme (by decide) (by decide) rfl
  | quasiquote => exact lexes_of_lexeme (by decide) (by decide) rfl
  | unquoteSplicing => exact lexes_of_lexeme (by decide) (by decide) rfl
  | unquote =>
    rw [show QuoteKind.unquote.mark.toList = [','] by decide]
    refine lexes_of_lexeme (by decide) (by decide) ?_
    cases k with
    | nil => rfl
    | cons c k =>
      have hc : c ≠ '@' := by simpa using h rfl
      simp [lexeme, commaLexeme, hc]

theorem lexes_string (text : String) (k : List Char) :
    Lexes (Text.Quoted.encode text.toList) [.string text] k := by
  refine lexes_of_lexeme (by decide) (by decide) ?_
  simp [lexeme, stringLexeme, Text.Quoted.decode?_encode]

theorem takeWhile_plain {cs k : List Char} (hplain : ∀ c ∈ cs, isDelimiter c = false)
    (hk : Delimited k) :
    (cs ++ k).takeWhile (!isDelimiter ·) = cs ∧ (cs ++ k).dropWhile (!isDelimiter ·) = k := by
  have hall : ∀ c ∈ cs, (!isDelimiter c) = true := by simpa using hplain
  rw [List.takeWhile_append_of_pos hall, List.dropWhile_append_of_pos hall]
  cases k with
  | nil => simp
  | cons c k =>
    have hc : isDelimiter c = true := hk c rfl
    simp [hc]

/-- A run of characters that delimit nothing is one atom. -/
theorem lexes_atom {cs k : List Char} (hne : cs ≠ [])
    (hplain : ∀ c ∈ cs, isDelimiter c = false) (hk : Delimited k) :
    Lexes cs [.atom (String.ofList cs)] k := by
  obtain ⟨c, cs, rfl⟩ := List.exists_cons_of_ne_nil hne
  have hc := hplain c List.mem_cons_self
  have hrest := takeWhile_plain (fun d hd => hplain d (List.mem_cons_of_mem c hd)) hk
  have hfree := hc
  simp only [isDelimiter, Bool.or_eq_false_iff, beq_eq_false_iff_ne] at hfree
  obtain ⟨⟨⟨⟨⟨⟨⟨hspace, hopen⟩, hclose⟩, hquote⟩, hback⟩, hcomma⟩, hstring⟩, hsemi⟩ := hfree
  refine lexes_of_lexeme hspace hsemi ?_
  simp [lexeme, hc, hopen, hclose, hquote, hback, hcomma, hstring, hrest.1, hrest.2]

end Lisplet.Token
