import Lisplet.Token.Scan

/-! Reading goes forward: the text that is left after a token, and the text from a token on, are ends
of the text in which the token was found. -/

namespace Lisplet

/-- The rest after a quoted text is an end of what was read. -/
theorem Text.Quoted.decode?_suffix {cs text rest : List Char}
    (h : decode? cs = some (text, rest)) : rest <:+ cs := by
  fun_induction decode? cs generalizing text with
  | case1 => simp at h
  | case2 c cs ih =>
    obtain ⟨⟨inner, rest'⟩, hr, he⟩ := Option.map_eq_some_iff.1 h
    simp only [Prod.mk.injEq] at he
    obtain ⟨-, rfl⟩ := he
    exact ((ih hr).trans (List.suffix_cons c cs)).trans (List.suffix_cons _ _)
  | case3 cs =>
    simp only [Option.some.injEq, Prod.mk.injEq] at h
    obtain ⟨-, rfl⟩ := h
    exact List.suffix_cons _ _
  | case4 => simp at h
  | case5 c cs _ _ _ ih =>
    obtain ⟨⟨inner, rest'⟩, hr, he⟩ := Option.map_eq_some_iff.1 h
    simp only [Prod.mk.injEq] at he
    obtain ⟨-, rfl⟩ := he
    exact (ih hr).trans (List.suffix_cons c cs)

namespace Token

theorem skipGap_before_suffix {comment : Option (List Char)} {cs here : List Char}
    (h : skipGap comment cs = .before here) : here <:+ cs := by
  fun_induction skipGap comment cs with
  | case1 =>
    obtain rfl := Gap.before.inj h
    exact List.suffix_refl _
  | case2 => cases h
  | case3 c cs _ ih | case4 cs _ ih | case6 c cs _ _ ih | case7 c cs _ _ ih =>
    exact (ih h).trans (List.suffix_cons _ _)
  | case5 c cs =>
    obtain rfl := Gap.before.inj h
    exact List.suffix_refl _

/-- A comment that the text ends in is an end of it, or began before it. -/
theorem skipGap_comment_suffix {comment : Option (List Char)} {cs start : List Char}
    (h : skipGap comment cs = .comment start) : comment = some start ∨ start <:+ cs := by
  fun_induction skipGap comment cs with
  | case1 => cases h
  | case2 s => exact .inl (congrArg some (Gap.comment.inj h))
  | case3 c cs _ ih | case6 c cs _ _ ih =>
    rcases ih h with hn | hs
    · cases hn
    · exact .inr (hs.trans (List.suffix_cons _ _))
  | case4 cs _ ih =>
    rcases ih h with hn | hs
    · exact .inr (Option.some.inj hn ▸ List.suffix_refl _)
    · exact .inr (hs.trans (List.suffix_cons _ _))
  | case5 => cases h
  | case7 c cs _ _ ih =>
    rcases ih h with hn | hs
    · exact .inl hn
    · exact .inr (hs.trans (List.suffix_cons _ _))

theorem commaLexeme_suffix {cs rest : List Char} {t : Token}
    (h : commaLexeme cs = .token t rest) : rest <:+ cs := by
  cases cs with
  | nil =>
    obtain ⟨-, rfl⟩ := Lexeme.token.inj h
    exact List.suffix_refl _
  | cons c cs =>
    simp only [commaLexeme] at h
    split at h
    · obtain ⟨-, rfl⟩ := Lexeme.token.inj h
      exact List.suffix_cons _ _
    · obtain ⟨-, rfl⟩ := Lexeme.token.inj h
      exact List.suffix_refl _

theorem stringLexeme_suffix {cs rest : List Char} {t : Token}
    (h : stringLexeme cs = .token t rest) : rest <:+ cs := by
  simp only [stringLexeme] at h
  split at h
  · next text rest' hd =>
    obtain ⟨-, rfl⟩ := Lexeme.token.inj h
    exact Text.Quoted.decode?_suffix hd
  · cases h

theorem lexeme_suffix {cs rest : List Char} {t : Token} (h : lexeme cs = .token t rest) :
    rest <:+ cs := by
  cases cs with
  | nil => cases h
  | cons c cs =>
    refine List.IsSuffix.trans ?_ (List.suffix_cons c cs)
    simp only [lexeme] at h
    repeat' split at h
    case _ | _ | _ | _ =>
      obtain ⟨-, rfl⟩ := Lexeme.token.inj h
      exact List.suffix_refl _
    case _ => exact commaLexeme_suffix h
    case _ => exact stringLexeme_suffix h
    case _ => cases h
    case _ =>
      obtain ⟨-, rfl⟩ := Lexeme.token.inj h
      exact List.dropWhile_suffix _

/-- The places in a text that the outcome of a scan names. -/
def Scan.places : Scan → List (List Char)
  | .finished => []
  | .held here | .openString here | .unreadable here => [here]
  | .found _ here rest => [here, rest]

/-- A scan names only places in its text. -/
theorem scan_suffix {final : Bool} {cs place : List Char} {outcome : Scan}
    (h : scan final cs = outcome) (hplace : place ∈ outcome.places) : place <:+ cs := by
  subst h
  simp only [scan] at hplace
  split at hplace
  · next start hgap =>
    split at hplace
    · simp [Scan.places] at hplace
    · rcases skipGap_comment_suffix hgap with hn | hs
      · cases hn
      · simp only [Scan.places, List.mem_singleton] at hplace
        exact hplace ▸ hs
  · simp [Scan.places] at hplace
  · next c here hgap =>
    have hhere := skipGap_before_suffix hgap
    split at hplace
    · next t rest hlex =>
      split at hplace
      · simp only [Scan.places, List.mem_singleton] at hplace
        exact hplace ▸ hhere
      · simp only [Scan.places, List.mem_cons, List.not_mem_nil, or_false] at hplace
        rcases hplace with rfl | rfl
        · exact hhere
        · exact (lexeme_suffix hlex).trans hhere
    · simp only [Scan.places, List.mem_singleton] at hplace
      exact hplace ▸ hhere
    · simp only [Scan.places, List.mem_singleton] at hplace
      exact hplace ▸ hhere

/-- The text after a token is an end of the text from the token on. -/
theorem scan_found_suffix {final : Bool} {cs here rest : List Char} {t : Token}
    (h : scan final cs = .found t here rest) : rest <:+ here := by
  simp only [scan] at h
  split at h
  · split at h <;> cases h
  · cases h
  · split at h
    · next hlex =>
      split at h
      · cases h
      · obtain ⟨rfl, rfl, rfl⟩ := Scan.found.inj h
        exact lexeme_suffix hlex
    · cases h
    · cases h

end Token

end Lisplet
