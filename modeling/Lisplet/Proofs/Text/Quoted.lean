import Lisplet.Token.Scan
import Mathlib.Algebra.Group.Nat.Even

/-! Where a quoted text ends.  The scan takes a backslash together with the character after it, so
whether it stops at a quote depends on the number of backslashes right before that quote: it stops at
the first quote that comes after an even number of them. -/

namespace Lisplet.Text.Quoted

/-- The number of backslashes at the end of a text. -/
def backslashes (cs : List Char) : Nat := (cs.reverse.takeWhile (· == '\\')).length

/-- The text has a quote between `front` and `rest` that no backslash belongs to. -/
structure Unescaped (cs front rest : List Char) : Prop where
  split : cs = front ++ '\x22' :: rest
  even : Even (backslashes front)

/-- The first quote of the text that no backslash belongs to stands between `front` and `rest`. -/
structure FirstUnescaped (cs front rest : List Char) : Prop extends Unescaped cs front rest where
  first : ∀ front' rest', Unescaped cs front' rest' → front.length ≤ front'.length

/-- The characters that a letter after a backslash stands for. -/
def escapes : List (Char × Char) :=
  [('n', '\n'), ('t', '\t'), ('r', '\r'), ('a', '\x07'), ('b', '\x08'), ('f', '\x0c'),
    ('v', '\x0b'), ('\\', '\\'), ('\x22', '\x22'), ('\x27', '\x27')]

/-- What is written between quotes, from left to right.  A backslash that no known letter follows
stands for itself, as does the character after it. -/
def unescape : List Char → List Char
  | '\\' :: c :: cs =>
    match escapes.lookup c with
    | some d => d :: unescape cs
    | none => '\\' :: c :: unescape cs
  | c :: cs => c :: unescape cs
  | [] => []

/-! ### Backslashes before a quote -/

theorem backslashes_le (cs : List Char) : backslashes cs ≤ cs.length := by
  rw [← List.length_reverse]
  exact (List.takeWhile_prefix _).length_le

theorem backslashes_cons (c : Char) (cs : List Char) :
    backslashes (c :: cs) =
      if c = '\\' ∧ backslashes cs = cs.length then cs.length + 1 else backslashes cs := by
  simp only [backslashes, List.reverse_cons, List.takeWhile_append, List.length_reverse]
  by_cases hall : (cs.reverse.takeWhile (· == '\\')).length = cs.length
  · by_cases hc : c = '\\' <;> simp [hall, hc]
  · simp [hall]

/-- A character other than a backslash has no part in the backslashes after it. -/
theorem backslashes_cons_of_ne {c : Char} (hc : c ≠ '\\') (cs : List Char) :
    backslashes (c :: cs) = backslashes cs := by
  rw [backslashes_cons, if_neg fun h => hc h.1]

/-- A backslash and the character after it, another backslash perhaps, do not matter for whether the
number of backslashes after them is even. -/
theorem even_backslashes_escape (c : Char) (cs : List Char) :
    Even (backslashes ('\\' :: c :: cs)) ↔ Even (backslashes cs) := by
  have hle := backslashes_le cs
  rw [backslashes_cons '\\', backslashes_cons c, List.length_cons]
  by_cases hall : c = '\\' ∧ backslashes cs = cs.length
  · simp [hall, Nat.even_add_one]
  · rw [if_neg hall, if_neg (by omega)]

theorem unescaped_escape {c : Char} {cs front rest : List Char} :
    Unescaped ('\\' :: c :: cs) front rest ↔
      ∃ front', front = '\\' :: c :: front' ∧ Unescaped cs front' rest := by
  constructor
  · rintro ⟨hsplit, heven⟩
    match front with
    | [] => simp at hsplit
    | [d] =>
      -- This quote is the one that the backslash belongs to.
      obtain ⟨rfl, -⟩ : '\\' = d ∧ _ := by simpa using hsplit
      exact absurd heven (by decide)
    | d :: e :: front =>
      obtain ⟨rfl, rfl, rfl⟩ : '\\' = d ∧ c = e ∧ cs = front ++ '\x22' :: rest := by
        simpa using hsplit
      exact ⟨front, rfl, rfl, (even_backslashes_escape c front).1 heven⟩
  · rintro ⟨front, rfl, rfl, heven⟩
    exact ⟨rfl, (even_backslashes_escape c front).2 heven⟩

theorem unescaped_plain {c : Char} (hq : c ≠ '\x22') (hb : c ≠ '\\') {cs front rest : List Char} :
    Unescaped (c :: cs) front rest ↔ ∃ front', front = c :: front' ∧ Unescaped cs front' rest := by
  constructor
  · rintro ⟨hsplit, heven⟩
    cases front with
    | nil => exact absurd (List.cons.inj hsplit).1 hq
    | cons d front =>
      obtain ⟨rfl, rfl⟩ := List.cons.inj hsplit
      exact ⟨front, rfl, rfl, backslashes_cons_of_ne hb front ▸ heven⟩
  · rintro ⟨front, rfl, rfl, heven⟩
    exact ⟨rfl, (backslashes_cons_of_ne hb front).symm ▸ heven⟩

theorem not_unescaped_backslash {front rest : List Char} : ¬ Unescaped ['\\'] front rest := by
  rintro ⟨hsplit, -⟩
  cases front <;> simp at hsplit

theorem FirstUnescaped.unique {cs front front' rest rest' : List Char}
    (h : FirstUnescaped cs front rest) (h' : FirstUnescaped cs front' rest') :
    front = front' ∧ rest = rest' := by
  have hlength : front.length = front'.length :=
    Nat.le_antisymm (h.first front' rest' h'.toUnescaped) (h'.first front rest h.toUnescaped)
  obtain ⟨hfront, hrest⟩ := List.append_inj (h.split.symm.trans h'.split) hlength
  exact ⟨hfront, (List.cons.inj hrest).2⟩

/-- In a text without such a quote that goes on, the quote stands in what follows. -/
theorem Unescaped.after_append {cs more front rest : List Char}
    (h : Unescaped (cs ++ more) front rest) (hnone : ∀ front rest, ¬ Unescaped cs front rest) :
    ∃ between, more = between ++ '\x22' :: rest := by
  rcases List.append_eq_append_iff.1 h.split with ⟨between, -, hmore⟩ | ⟨tail, hcs, htail⟩
  · exact ⟨between, hmore⟩
  · cases tail with
    | nil => exact ⟨[], htail.symm⟩
    | cons c tail =>
      obtain ⟨rfl, -⟩ := List.cons.inj htail
      exact absurd ⟨hcs, h.even⟩ (hnone front tail)

/-- The first quote stays the first when characters that do not touch it come before the text. -/
theorem FirstUnescaped.after {cs front rest : List Char} (h : FirstUnescaped cs front rest)
    (lead : List Char) (hlead : ∀ {front rest}, Unescaped (lead ++ cs) front rest ↔
      ∃ front', front = lead ++ front' ∧ Unescaped cs front' rest) :
    FirstUnescaped (lead ++ cs) (lead ++ front) rest := by
  refine ⟨hlead.2 ⟨front, rfl, h.toUnescaped⟩, fun front' rest' h' => ?_⟩
  obtain ⟨inner, rfl, hinner⟩ := hlead.1 h'
  simpa using h.first inner rest' hinner

/-! ### Decoding -/

theorem ofLetter?_eq (c : Char) : ofLetter? c = escapes.lookup c := by
  unfold ofLetter?
  split
  case h_11 =>
    refine (List.lookup_eq_none_iff.2 ?_).symm
    simp_all [escapes]
  all_goals rfl

theorem unescape_escape (c : Char) (cs : List Char) :
    unescape ('\\' :: c :: cs) = escaped c ++ unescape cs := by
  rw [unescape, escaped, ofLetter?_eq]
  cases escapes.lookup c <;> rfl

theorem unescape_plain {c : Char} (hc : c ≠ '\\') (cs : List Char) :
    unescape (c :: cs) = c :: unescape cs := by
  rw [unescape]
  rintro d ds h -
  exact hc h

theorem firstUnescaped_of_decode? {cs text rest : List Char} (h : decode? cs = some (text, rest)) :
    ∃ front, FirstUnescaped cs front rest ∧ text = unescape front := by
  fun_induction decode? cs generalizing text with
  | case1 => cases h
  | case2 c cs ih =>
    obtain ⟨⟨inner, rest'⟩, hinner, he⟩ := Option.map_eq_some_iff.1 h
    obtain ⟨rfl, rfl⟩ := Prod.mk.inj he
    obtain ⟨front, hfirst, rfl⟩ := ih hinner
    exact ⟨_, hfirst.after ['\\', c] unescaped_escape, (unescape_escape c front).symm⟩
  | case3 cs =>
    obtain ⟨rfl, rfl⟩ := Prod.mk.inj (Option.some.inj h)
    exact ⟨[], ⟨⟨rfl, by decide⟩, fun _ _ _ => Nat.zero_le _⟩, rfl⟩
  | case4 => cases h
  | case5 c cs _ hq hb ih =>
    obtain ⟨⟨inner, rest'⟩, hinner, he⟩ := Option.map_eq_some_iff.1 h
    obtain ⟨rfl, rfl⟩ := Prod.mk.inj he
    obtain ⟨front, hfirst, rfl⟩ := ih hinner
    exact ⟨_, hfirst.after [c] (unescaped_plain hq hb), (unescape_plain hb front).symm⟩

theorem not_unescaped_of_decode? {cs : List Char} (h : decode? cs = none) (front rest : List Char) :
    ¬ Unescaped cs front rest := by
  intro hquote
  fun_induction decode? cs generalizing front with
  | case1 => exact absurd hquote.split (by simp)
  | case2 c cs ih =>
    obtain ⟨front', -, hquote⟩ := unescaped_escape.1 hquote
    exact ih (Option.map_eq_none_iff.1 h) front' hquote
  | case3 => cases h
  | case4 cs hend =>
    cases cs with
    | nil => exact not_unescaped_backslash hquote
    | cons d ds => exact hend d ds rfl rfl
  | case5 c cs _ hq hb ih =>
    obtain ⟨front', -, hquote⟩ := (unescaped_plain hq hb).1 hquote
    exact ih (Option.map_eq_none_iff.1 h) front' hquote

theorem Unescaped.exists_first {cs front rest : List Char} (h : Unescaped cs front rest) :
    ∃ front rest, FirstUnescaped cs front rest := by
  cases hdecode : decode? cs with
  | none => exact absurd h (not_unescaped_of_decode? hdecode front rest)
  | some found =>
    obtain ⟨front, hfirst, -⟩ := firstUnescaped_of_decode? hdecode
    exact ⟨front, found.2, hfirst⟩

theorem decode?_eq_none_iff {cs : List Char} :
    decode? cs = none ↔ ∀ front rest, ¬ Unescaped cs front rest := by
  refine ⟨not_unescaped_of_decode?, fun hnone => ?_⟩
  cases h : decode? cs with
  | none => rfl
  | some found =>
    obtain ⟨front, hfirst, -⟩ := firstUnescaped_of_decode? h
    exact absurd hfirst.toUnescaped (hnone front found.2)

theorem decode?_eq_some_iff {cs text rest : List Char} :
    decode? cs = some (text, rest) ↔
      ∃ front, FirstUnescaped cs front rest ∧ text = unescape front := by
  refine ⟨firstUnescaped_of_decode?, ?_⟩
  rintro ⟨front, hfirst, rfl⟩
  cases h : decode? cs with
  | none => exact absurd hfirst.toUnescaped (not_unescaped_of_decode? h front rest)
  | some found =>
    obtain ⟨text, rest'⟩ := found
    obtain ⟨front', hfirst', rfl⟩ := firstUnescaped_of_decode? h
    obtain ⟨rfl, rfl⟩ := hfirst.unique hfirst'
    rfl

end Lisplet.Text.Quoted

namespace Lisplet.Token

open Text.Quoted

theorem lexeme_string_eq_token_iff {cs rest : List Char} {t : Token} :
    lexeme ('\x22' :: cs) = .token t rest ↔
      ∃ front, FirstUnescaped cs front rest ∧ t = .string (String.ofList (unescape front)) := by
  have hdecode := @decode?_eq_some_iff cs
  rw [show lexeme ('\x22' :: cs) = stringLexeme cs from rfl, stringLexeme]
  constructor
  · intro h
    split at h
    · next text rest' hd =>
      obtain ⟨rfl, rfl⟩ := Lexeme.token.inj h
      obtain ⟨front, hfirst, rfl⟩ := hdecode.1 hd
      exact ⟨front, hfirst, rfl⟩
    · cases h
  · rintro ⟨front, hfirst, rfl⟩
    rw [hdecode.2 ⟨front, hfirst, rfl⟩]

theorem lexeme_string_eq_openString_iff {cs : List Char} :
    lexeme ('\x22' :: cs) = .openString ↔ ∀ front rest, ¬ Unescaped cs front rest := by
  rw [← decode?_eq_none_iff, show lexeme ('\x22' :: cs) = stringLexeme cs from rfl, stringLexeme]
  split
  · next text rest hd => simp [hd]
  · next hd => simp [hd]

/-- After an opening quote, the text is a token if it has a quote that comes after an even number of
backslashes: the token is what is written before the first such quote, and what is left is the text
after it.  Otherwise the quoted text does not end, and when more text follows, it ends only there. -/
theorem lexeme_string_iff (cs : List Char) :
    (∀ t rest, lexeme ('\x22' :: cs) = .token t rest ↔
      ∃ front, FirstUnescaped cs front rest ∧ t = .string (String.ofList (unescape front))) ∧
    ((∃ t rest, lexeme ('\x22' :: cs) = .token t rest) ↔ ∃ front rest, Unescaped cs front rest) ∧
    (lexeme ('\x22' :: cs) = .openString ↔ ¬ ∃ front rest, Unescaped cs front rest) ∧
    (lexeme ('\x22' :: cs) = .openString →
      ∀ more t rest, lexeme ('\x22' :: (cs ++ more)) = .token t rest →
        ∃ between, more = between ++ '\x22' :: rest) := by
  refine ⟨fun t rest => lexeme_string_eq_token_iff, ⟨?_, ?_⟩, ?_, fun hopen more t rest h => ?_⟩
  · rintro ⟨t, rest, h⟩
    obtain ⟨front, hfirst, -⟩ := lexeme_string_eq_token_iff.1 h
    exact ⟨front, rest, hfirst.toUnescaped⟩
  · rintro ⟨front, rest, hquote⟩
    obtain ⟨front, rest, hfirst⟩ := hquote.exists_first
    exact ⟨_, rest, lexeme_string_eq_token_iff.2 ⟨front, hfirst, rfl⟩⟩
  · simp only [lexeme_string_eq_openString_iff, not_exists]
  · obtain ⟨front, hfirst, -⟩ := lexeme_string_eq_token_iff.1 h
    exact hfirst.after_append (lexeme_string_eq_openString_iff.1 hopen)

/-- A text that breaks off after a backslash, to which the quote that follows belongs. -/
theorem lexeme_string_iff_escape :
    let cs := ['a', '\\', '\x22', '\\']
    let more := ['\x22', 'b', '\x22', 'c']
    let t := Token.string (String.ofList ['a', '\x22', '\x22', 'b'])
    lexeme ('\x22' :: cs) = .openString ∧ lexeme ('\x22' :: (cs ++ more)) = .token t ['c'] ∧
      ∃ between, more = between ++ '\x22' :: ['c'] := by
  intro cs more t
  have hopen : lexeme ('\x22' :: cs) = .openString := rfl
  have hends : lexeme ('\x22' :: (cs ++ more)) = .token t ['c'] := rfl
  exact ⟨hopen, hends, (lexeme_string_iff cs).2.2.2 hopen more t ['c'] hends⟩

end Lisplet.Token
