import Lisplet.Text.Quoted
import Lisplet.Token

/-! Finding the next token of a text that may not have arrived in full. -/

namespace Lisplet.Token

/-- Where the spaces and comments before the next token end. -/
inductive Gap where
  /-- What is left, which is nothing or begins with neither a space nor a comment. -/
  | before (rest : List Char)
  /-- The text ends inside the comment that begins `rest`. -/
  | comment (rest : List Char)

/-- Skips spaces and comments.  Inside a comment, `comment` is the text from its semicolon on. -/
def skipGap (comment : Option (List Char)) : List Char → Gap
  | [] =>
    match comment with
    | none => .before []
    | some start => .comment start
  | c :: cs =>
    match comment with
    | none =>
      if isSpace c then skipGap none cs
      else if c = ';' then skipGap (some (c :: cs)) cs
      else .before (c :: cs)
    | some start => if endsComment c then skipGap none cs else skipGap (some start) cs

/-- What stands at the beginning of a text that begins with neither a space nor a comment. -/
inductive Lexeme where
  | token (t : Token) (rest : List Char)
  /-- A quoted text that does not end. -/
  | openString
  /-- No token begins so. -/
  | unreadable

/-- The mark that begins with a comma, which is the longer one if an at sign follows. -/
def commaLexeme : List Char → Lexeme
  | [] => .token (.quote .unquote) []
  | c :: cs =>
    if c = '@' then .token (.quote .unquoteSplicing) cs else .token (.quote .unquote) (c :: cs)

/-- The quoted text whose opening quote has been read. -/
def stringLexeme (cs : List Char) : Lexeme :=
  match Text.Quoted.decode? cs with
  | some (text, rest) => .token (.string (String.ofList text)) rest
  | none => .openString

/-- The token at the beginning of a text. -/
def lexeme : List Char → Lexeme
  | [] => .unreadable
  | c :: cs =>
    if c = '(' then .token .openList cs
    else if c = ')' then .token .closeList cs
    else if c = '\x27' then .token (.quote .quote) cs
    else if c = '\x60' then .token (.quote .quasiquote) cs
    else if c = ',' then commaLexeme cs
    else if c = '\x22' then stringLexeme cs
    else if isDelimiter c then .unreadable
    else .token (.atom (String.ofList (c :: cs.takeWhile (!isDelimiter ·))))
      (cs.dropWhile (!isDelimiter ·))

/-- A token that may grow when more text follows it directly. -/
def mayGrow : Token → Bool
  | .atom _ | .quote .unquote => true
  | _ => false

/-- The outcome of looking for the next token.  Each names the text that is left: from the token on,
or after it. -/
inductive Scan where
  /-- Nothing but spaces and comments was left. -/
  | finished
  /-- A token or a comment at the end of the text that may go on in the text to come. -/
  | held (here : List Char)
  /-- A quoted text that has not ended yet. -/
  | openString (here : List Char)
  | unreadable (here : List Char)
  | found (t : Token) (here rest : List Char)

/-- Looks for the next token.  When the text is `final`, its end also ends what stands there. -/
def scan (final : Bool) (cs : List Char) : Scan :=
  match skipGap none cs with
  | .comment here => if final then .finished else .held here
  | .before [] => .finished
  | .before (c :: here) =>
    match lexeme (c :: here) with
    | .token t rest =>
      if !final && rest.isEmpty && mayGrow t then .held (c :: here) else .found t (c :: here) rest
    | .openString => .openString (c :: here)
    | .unreadable => .unreadable (c :: here)

theorem skipGap_before_length {comment : Option (List Char)} {cs here : List Char}
    (h : skipGap comment cs = .before here) : here.length ≤ cs.length := by
  fun_induction skipGap comment cs with
  | case1 => simp_all
  | case2 => simp at h
  | case3 c cs _ ih | case4 cs _ ih =>
    have := ih h
    simp only [List.length_cons]
    omega
  | case5 => simp_all
  | case6 c cs _ _ ih | case7 c cs _ _ ih =>
    have := ih h
    simp only [List.length_cons]
    omega

theorem commaLexeme_length {cs rest : List Char} {t : Token}
    (h : commaLexeme cs = .token t rest) : rest.length ≤ cs.length := by
  cases cs with
  | nil =>
    simp only [commaLexeme, Lexeme.token.injEq] at h
    simp [← h.2]
  | cons c cs =>
    simp only [commaLexeme] at h
    split at h <;> simp only [Lexeme.token.injEq] at h <;> simp [← h.2]

theorem stringLexeme_length {cs rest : List Char} {t : Token}
    (h : stringLexeme cs = .token t rest) : rest.length < cs.length := by
  simp only [stringLexeme] at h
  split at h
  · next text rest' hd =>
    simp only [Lexeme.token.injEq] at h
    exact h.2 ▸ Text.Quoted.length_rest_lt hd
  · simp at h

theorem lexeme_length {cs rest : List Char} {t : Token} (h : lexeme cs = .token t rest) :
    rest.length < cs.length := by
  cases cs with
  | nil => simp [lexeme] at h
  | cons c cs =>
    simp only [List.length_cons]
    simp only [lexeme] at h
    repeat' split at h
    case _ => simp_all
    case _ => simp_all
    case _ => simp_all
    case _ => simp_all
    case _ => exact Nat.lt_succ_of_le (commaLexeme_length h)
    case _ => exact Nat.lt_succ_of_lt (stringLexeme_length h)
    case _ => simp at h
    case _ =>
      simp only [Lexeme.token.injEq] at h
      rw [← h.2]
      exact Nat.lt_succ_of_le (List.dropWhile_suffix _).length_le

/-- A token takes up some of the text. -/
theorem scan_found_length {final : Bool} {cs here rest : List Char} {t : Token}
    (h : scan final cs = .found t here rest) : rest.length < cs.length := by
  simp only [scan] at h
  split at h
  · split at h <;> simp at h
  · simp at h
  · next c tail hgap =>
    have hlen := skipGap_before_length hgap
    split at h
    · next t' rest' hlex =>
      have := lexeme_length hlex
      split at h
      · simp at h
      · simp only [Scan.found.injEq] at h
        rw [← h.2.2]
        omega
    · simp at h
    · simp at h

end Lisplet.Token
