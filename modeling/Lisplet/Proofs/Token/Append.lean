import Lisplet.Token.Scan

/-! Scanning a text that goes on.  A token that is found before the text has ended is found wherever
the text goes on, and what is held back is scanned again together with the text that follows it, so
that `scan_append` gives the next token of `cs ++ ds` from the outcome of scanning `cs` alone. -/

namespace Lisplet

namespace Text.Quoted

/-- A quoted text that has ended does not change when more text follows. -/
theorem decode?_append {cs text rest : List Char} (ds : List Char)
    (h : decode? cs = some (text, rest)) : decode? (cs ++ ds) = some (text, rest ++ ds) := by
  fun_induction decode? cs generalizing text with
  | case1 => simp at h
  | case2 c cs ih =>
    obtain ⟨⟨inner, rest'⟩, hr, he⟩ := Option.map_eq_some_iff.1 h
    simp only [Prod.mk.injEq] at he
    obtain ⟨rfl, rfl⟩ := he
    simp [decode?, ih hr]
  | case3 => simp_all [decode?]
  | case4 => simp at h
  | case5 c cs hesc hq hb ih =>
    obtain ⟨⟨inner, rest'⟩, hr, he⟩ := Option.map_eq_some_iff.1 h
    simp only [Prod.mk.injEq] at he
    obtain ⟨rfl, rfl⟩ := he
    simp [decode?, hq, hb, ih hr]

end Text.Quoted

namespace Token

/-! ### Gaps -/

/-- A comment that the text ends in began before the text, or begins with its semicolon and has not
ended since. -/
theorem skipGap_eq_comment {comment : Option (List Char)} {cs start : List Char}
    (h : skipGap comment cs = .comment start) :
    (comment = some start ∧ ∀ c ∈ cs, endsComment c = false) ∨
      ∃ body, start = ';' :: body ∧ ∀ c ∈ body, endsComment c = false := by
  fun_induction skipGap comment cs with
  | case1 => simp at h
  | case2 => simp_all
  | case3 c cs hspace ih =>
    rcases ih h with ⟨hn, -⟩ | hb
    · cases hn
    · exact .inr hb
  | case4 cs hspace ih =>
    rcases ih h with ⟨hs, hends⟩ | hb
    · exact .inr ⟨cs, (Option.some.inj hs).symm, hends⟩
    · exact .inr hb
  | case5 => simp at h
  | case6 c cs s hend ih =>
    rcases ih h with ⟨hn, -⟩ | hb
    · cases hn
    · exact .inr hb
  | case7 c cs s hend ih =>
    rcases ih h with ⟨hs, hends⟩ | hb
    · exact .inl ⟨hs, by simpa [hend] using hends⟩
    · exact .inr hb

/-- Inside a comment, a text in which it does not end is passed over. -/
theorem skipGap_inside {body : List Char} (start ds : List Char)
    (h : ∀ c ∈ body, endsComment c = false) :
    skipGap (some start) (body ++ ds) = skipGap (some start) ds := by
  induction body with
  | nil => rfl
  | cons c body ih =>
    rw [List.cons_append, skipGap]
    simp only [h c (by simp), Bool.false_eq_true, if_false]
    exact ih fun d hd => h d (by simp [hd])

/-- A comment that the text ends in is skipped again from its semicolon on. -/
theorem skipGap_restart {cs start : List Char} (ds : List Char)
    (h : skipGap none cs = .comment start) :
    skipGap none (start ++ ds) = skipGap (some (start ++ ds)) ds := by
  rcases skipGap_eq_comment h with ⟨hn, -⟩ | ⟨body, rfl, hends⟩
  · cases hn
  · rw [List.cons_append, skipGap]
    simp only [show isSpace ';' = false by decide, Bool.false_eq_true, if_false, if_true]
    exact skipGap_inside _ ds hends

/-- Skipping spaces and comments of a text that goes on. -/
theorem skipGap_append (comment : Option (List Char)) (cs ds : List Char) :
    skipGap (comment.map (· ++ ds)) (cs ++ ds) =
      match skipGap comment cs with
      | .before [] => skipGap none ds
      | .before (c :: here) => .before (c :: here ++ ds)
      | .comment start => skipGap (some (start ++ ds)) ds := by
  fun_induction skipGap comment cs with
  | case1 => rfl
  | case2 => rfl
  | case3 c cs hspace ih => simpa [skipGap, hspace] using ih
  | case4 cs hspace ih => simpa [skipGap, hspace] using ih
  | case5 c cs hspace hc => simp [skipGap, hspace, hc]
  | case6 c cs start hend ih => simpa [skipGap, hend] using ih
  | case7 c cs start hend ih => simpa [skipGap, hend] using ih

/-- What stands after the spaces and comments is neither a space nor the start of a comment. -/
theorem skipGap_before_cons {comment : Option (List Char)} {cs here : List Char} {c : Char}
    (h : skipGap comment cs = .before (c :: here)) : isSpace c = false ∧ c ≠ ';' := by
  fun_induction skipGap comment cs with
  | case1 => simp at h
  | case2 => simp at h
  | case3 d cs hspace ih => exact ih h
  | case4 cs hspace ih => exact ih h
  | case5 d cs hspace hd => simp_all
  | case6 d cs start hend ih => exact ih h
  | case7 d cs start hend ih => exact ih h

/-! ### Tokens -/

/-- A token begins wherever no space and no comment does. -/
theorem lexeme_ne_unreadable {c : Char} {cs : List Char} (hspace : isSpace c = false)
    (hc : c ≠ ';') : lexeme (c :: cs) ≠ .unreadable := by
  simp only [lexeme]
  repeat' split
  case _ => simp
  case _ => simp
  case _ => simp
  case _ => simp
  case _ =>
    cases cs with
    | nil => simp [commaLexeme]
    | cons d ds => simp only [commaLexeme]; split <;> simp
  case _ => simp only [stringLexeme]; split <;> simp
  case _ => simp_all [isDelimiter]
  case _ => simp

/-- Every text has a next token, is inside a quoted text, or has no more tokens. -/
theorem scan_ne_unreadable (final : Bool) (cs here : List Char) :
    scan final cs ≠ .unreadable here := by
  intro h
  simp only [scan] at h
  split at h
  · split at h <;> simp at h
  · simp at h
  · next c rest hgap =>
    obtain ⟨hspace, hc⟩ := skipGap_before_cons hgap
    split at h
    · split at h <;> simp at h
    · simp at h
    · next hlex => exact lexeme_ne_unreadable hspace hc hlex

theorem commaLexeme_append {cs rest : List Char} {t : Token} (ds : List Char)
    (h : commaLexeme cs = .token t rest) (hgrow : (rest.isEmpty && mayGrow t) = false) :
    commaLexeme (cs ++ ds) = .token t (rest ++ ds) := by
  cases cs with
  | nil =>
    simp only [commaLexeme, Lexeme.token.injEq] at h
    obtain ⟨rfl, rfl⟩ := h
    simp [mayGrow] at hgrow
  | cons c cs =>
    simp only [commaLexeme, List.cons_append] at h ⊢
    split at h
    · next hc =>
      obtain ⟨rfl, rfl⟩ := Lexeme.token.inj h
      simp [hc]
    · next hc =>
      obtain ⟨rfl, rfl⟩ := Lexeme.token.inj h
      simp [hc]

theorem stringLexeme_append {cs rest : List Char} {t : Token} (ds : List Char)
    (h : stringLexeme cs = .token t rest) : stringLexeme (cs ++ ds) = .token t (rest ++ ds) := by
  simp only [stringLexeme] at h ⊢
  split at h
  · next text rest' hd =>
    simp only [Lexeme.token.injEq] at h
    obtain ⟨rfl, rfl⟩ := h
    rw [Text.Quoted.decode?_append ds hd]
  · simp at h

/-- A run that has ended does not change when more text follows. -/
theorem takeWhile_append_of_rest {p : Char → Bool} {cs : List Char} (ds : List Char)
    (h : (cs.dropWhile p).isEmpty = false) : (cs ++ ds).takeWhile p = cs.takeWhile p := by
  have hlen := congrArg List.length (List.takeWhile_append_dropWhile (p := p) (l := cs))
  have hpos : 0 < (cs.dropWhile p).length := by
    simpa [List.length_pos_iff] using h
  rw [List.length_append] at hlen
  rw [List.takeWhile_append, if_neg (by omega)]

/-- A token that has ended does not change when more text follows. -/
theorem lexeme_append {cs rest : List Char} {t : Token} (ds : List Char)
    (h : lexeme cs = .token t rest) (hgrow : (rest.isEmpty && mayGrow t) = false) :
    lexeme (cs ++ ds) = .token t (rest ++ ds) := by
  cases cs with
  | nil => simp [lexeme] at h
  | cons c cs =>
    simp only [lexeme, List.cons_append] at h ⊢
    repeat' split at h
    case _ hc | _ hc | _ hc | _ hc =>
      obtain ⟨rfl, rfl⟩ := Lexeme.token.inj h
      subst hc
      rfl
    case _ hc =>
      simp only [*, if_true]
      exact commaLexeme_append ds h hgrow
    case _ hc =>
      simp only [*, if_true]
      exact stringLexeme_append ds h
    case _ hc => simp at h
    case _ hc =>
      obtain ⟨rfl, rfl⟩ := Lexeme.token.inj h
      have hends : (cs.dropWhile (!isDelimiter ·)).isEmpty = false := by
        simpa [mayGrow] using hgrow
      simp only [*, if_false]
      rw [takeWhile_append_of_rest ds hends, List.dropWhile_append, hends]
      rfl

/-! ### Scanning -/

/-- Scanning after spaces and comments gives what scanning with them gives. -/
theorem scan_congr {final : Bool} {cs ds : List Char} (h : skipGap none cs = skipGap none ds) :
    scan final cs = scan final ds := by
  simp only [scan, h]

/-- The next token of a text that goes on.  A token that was found stays what it is; what was held
back is scanned again from where it begins. -/
theorem scan_append (final : Bool) (cs ds : List Char) :
    scan final (cs ++ ds) =
      match scan false cs with
      | .finished => scan final ds
      | .held here => scan final (here ++ ds)
      | .openString here => scan final (here ++ ds)
      | .unreadable here => .unreadable (here ++ ds)
      | .found t here rest => .found t (here ++ ds) (rest ++ ds) := by
  have happ := skipGap_append none cs ds
  rw [Option.map_none] at happ
  match hgap : skipGap none cs with
  | .comment start =>
    rw [hgap] at happ
    have hscan : scan false cs = .held start := by simp [scan, hgap]
    rw [hscan]
    exact scan_congr (happ.trans (skipGap_restart ds hgap).symm)
  | .before [] =>
    rw [hgap] at happ
    have hscan : scan false cs = .finished := by simp [scan, hgap]
    rw [hscan]
    exact scan_congr happ
  | .before (c :: here) =>
    rw [hgap] at happ
    -- Scanning `c :: here` again skips nothing.
    have hstay : skipGap none (c :: here ++ ds) = .before (c :: here ++ ds) := by
      obtain ⟨hspace, hc⟩ := skipGap_before_cons hgap
      simp [skipGap, hspace, hc]
    have hagain : scan final (cs ++ ds) = scan final (c :: here ++ ds) :=
      scan_congr (happ.trans hstay.symm)
    cases hlex : lexeme (c :: here) with
    | openString =>
      have hscan : scan false cs = .openString (c :: here) := by simp [scan, hgap, hlex]
      rw [hscan, hagain]
    | unreadable =>
      obtain ⟨hspace, hc⟩ := skipGap_before_cons hgap
      exact absurd hlex (lexeme_ne_unreadable hspace hc)
    | token t rest =>
      by_cases hgrow : (rest.isEmpty && mayGrow t) = true
      · have hscan : scan false cs = .held (c :: here) := by
          simp only [scan, hgap, hlex, Bool.not_false, Bool.true_and, hgrow, if_true]
        rw [hscan, hagain]
      · have hscan : scan false cs = .found t (c :: here) rest := by
          simp only [scan, hgap, hlex, Bool.not_false, Bool.true_and, hgrow, if_false,
            Bool.false_eq_true]
        have hmore := lexeme_append ds hlex (by simpa using hgrow)
        have hgrow' : (!final && (rest ++ ds).isEmpty && mayGrow t) = false := by
          cases rest <;> simp_all
        rw [hscan]
        simp only [scan, happ, List.cons_append] at hmore ⊢
        simp only [hmore, hgrow', Bool.false_eq_true, if_false]

end Token

end Lisplet
