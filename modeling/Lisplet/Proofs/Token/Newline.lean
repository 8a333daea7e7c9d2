import Lisplet.Proofs.Token.Sequence

/-! Texts that end with a newline.  A newline ends whatever the end of a complete text ends.  So one
more at the end of a complete text changes none of its tokens, and of a text that ends with one
nothing is held back but a quoted text. -/

namespace Lisplet

theorem Text.Quoted.decode?_newline {cs : List Char} (h : decode? cs = none) :
    decode? (cs ++ ['\n']) = none := by
  fun_induction decode? cs with
  | case1 => rfl
  | case2 c cs ih => simpa [decode?] using ih (by simpa using h)
  | case3 => cases h
  | case4 cs hesc hq =>
    cases cs with
    | nil => rfl
    | cons d ds => exact absurd rfl (hesc d ds rfl)
  | case5 c cs hesc hq hb ih => simpa [decode?, hq, hb] using ih (by simpa using h)

namespace Token

theorem takeWhile_newline (cs : List Char) :
    (cs ++ ['\n']).takeWhile (!isDelimiter ·) = cs.takeWhile (!isDelimiter ·) ∧
      (cs ++ ['\n']).dropWhile (!isDelimiter ·) = cs.dropWhile (!isDelimiter ·) ++ ['\n'] := by
  induction cs with
  | nil => decide
  | cons c cs ih =>
    by_cases hc : isDelimiter c = true
    · simp [hc]
    · simp [hc, ih]

/-- What stands at the beginning of a text when a newline is added at its end. -/
def Lexeme.newline : Lexeme → Lexeme
  | .token t rest => .token t (rest ++ ['\n'])
  | .openString => .openString
  | .unreadable => .unreadable

theorem commaLexeme_newline (cs : List Char) :
    commaLexeme (cs ++ ['\n']) = (commaLexeme cs).newline := by
  cases cs with
  | nil => rfl
  | cons c cs =>
    by_cases hc : c = '@'
    · simp [commaLexeme, Lexeme.newline, hc]
    · simp [commaLexeme, Lexeme.newline, hc]

theorem stringLexeme_newline (cs : List Char) :
    stringLexeme (cs ++ ['\n']) = (stringLexeme cs).newline := by
  cases hd : Text.Quoted.decode? cs with
  | none => simp only [stringLexeme, hd, Text.Quoted.decode?_newline hd, Lexeme.newline]
  | some decoded =>
    obtain ⟨text, rest⟩ := decoded
    simp only [stringLexeme, hd, Text.Quoted.decode?_append _ hd, Lexeme.newline]

theorem lexeme_newline (c : Char) (cs : List Char) :
    lexeme (c :: cs ++ ['\n']) = (lexeme (c :: cs)).newline := by
  by_cases hcomma : c = ','
  · subst hcomma
    exact commaLexeme_newline cs
  by_cases hstring : c = '\x22'
  · subst hstring
    exact stringLexeme_newline cs
  obtain ⟨htake, hdrop⟩ := takeWhile_newline cs
  simp only [List.cons_append, lexeme, hcomma, hstring, if_false, htake, hdrop]
  repeat' split
  all_goals rfl

/-- The next token of a text when a newline is added at its end, whether or not more text follows
that: it is the next token of the text taken as complete. -/
theorem scan_newline (final : Bool) (cs : List Char) :
    scan final (cs ++ ['\n']) =
      match scan true cs with
      | .finished => .finished
      | .held here => .held here
      | .openString here => .openString (here ++ ['\n'])
      | .unreadable here => .unreadable (here ++ ['\n'])
      | .found t here rest => .found t (here ++ ['\n']) (rest ++ ['\n']) := by
  have happ := skipGap_append none cs ['\n']
  rw [Option.map_none] at happ
  match hgap : skipGap none cs with
  | .comment start =>
    rw [hgap] at happ
    have hend : skipGap (some (start ++ ['\n'])) ['\n'] = .before [] := rfl
    simp only [scan, happ, hend, hgap, if_true]
  | .before [] =>
    rw [hgap] at happ
    have hend : skipGap none ['\n'] = .before [] := rfl
    simp only [scan, happ, hend, hgap]
  | .before (c :: here) =>
    rw [hgap] at happ
    have hlex := lexeme_newline c here
    rw [List.cons_append] at hlex
    simp only [scan, happ, List.cons_append, hlex, hgap]
    cases lexeme (c :: here) with
    | token t rest => simp [Lexeme.newline]
    | openString => rfl
    | unreadable => rfl

/-- Nothing but a quoted text is held back of a text that ends with a newline. -/
theorem scan_ne_held_of_newline (final : Bool) (cs here : List Char) :
    scan final (cs ++ ['\n']) ≠ .held here := by
  rw [scan_newline]
  cases h : scan true cs with
  | held place => exact absurd h (scan_true_ne_held cs place)
  | _ => simp

/-- A newline at the end of a text changes no token. -/
theorem sequence_newline (cs : List Char) :
    (sequence (cs ++ ['\n'])).tokens = (sequence cs).tokens ∧
      (sequence (cs ++ ['\n'])).open? = (sequence cs).open?.map (· ++ ['\n']) := by
  have hscan := scan_newline true cs
  fun_induction sequence cs with
  | case1 cs t here rest h more ih =>
    obtain ⟨htokens, hopen⟩ := ih (scan_newline true rest)
    rw [h] at hscan
    rw [sequence_eq, hscan]
    exact ⟨congrArg (List.cons t) htokens, hopen⟩
  | case2 cs here h =>
    rw [h] at hscan
    rw [sequence_eq, hscan]
    exact ⟨rfl, rfl⟩
  | case3 cs hfound hopen =>
    rw [sequence_eq, hscan]
    cases h : scan true cs with
    | found t here rest => exact absurd h (hfound t here rest)
    | openString here => exact absurd h (hopen here)
    | _ => exact ⟨rfl, rfl⟩

theorem scan_spaces (final : Bool) {cs : List Char} (h : ∀ c ∈ cs, isSpace c = true) :
    scan final cs = .finished := by
  have hgap : skipGap none cs = .before [] := by
    induction cs with
    | nil => rfl
    | cons c cs ih =>
      obtain ⟨hc, hcs⟩ := List.forall_mem_cons.1 h
      simp only [skipGap, hc, if_true, ih hcs]
  simp only [scan, hgap]

end Token

end Lisplet
