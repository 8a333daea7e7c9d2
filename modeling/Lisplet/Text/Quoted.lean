/-! Quoted text: a text between double quotes in which some characters are written as a backslash and
a letter. -/

namespace Lisplet.Text.Quoted

/-- What a character is written as after a backslash, if it is written so. -/
def letter? : Char → Option Char
  | '\n' => some 'n'
  | '\t' => some 't'
  | '\r' => some 'r'
  | '\x07' => some 'a'
  | '\x08' => some 'b'
  | '\x0c' => some 'f'
  | '\x0b' => some 'v'
  | '\\' => some '\\'
  | '\x22' => some '\x22'
  | _ => none

/-- The character that a letter after a backslash stands for.  A single quote may be written so, but
need not be. -/
def ofLetter? : Char → Option Char
  | 'n' => some '\n'
  | 't' => some '\t'
  | 'r' => some '\r'
  | 'a' => some '\x07'
  | 'b' => some '\x08'
  | 'f' => some '\x0c'
  | 'v' => some '\x0b'
  | '\\' => some '\\'
  | '\x22' => some '\x22'
  | '\x27' => some '\x27'
  | _ => none

/-- A character inside the quotes. -/
def encodeChar (c : Char) : List Char :=
  match letter? c with
  | some l => ['\\', l]
  | none => [c]

/-- A text with its quotes. -/
def encode (text : List Char) : List Char := '\x22' :: text.flatMap encodeChar ++ ['\x22']

/-- What a backslash and the character after it stand for: themselves, unless the character is one of
the letters. -/
def escaped (c : Char) : List Char :=
  match ofLetter? c with
  | some d => [d]
  | none => ['\\', c]

/-- Reads what follows an opening quote: the text up to the quote that ends it, and the rest after
that quote.  Nothing comes out if no quote ends the text. -/
def decode? : List Char → Option (List Char × List Char)
  | [] => none
  | '\\' :: c :: cs => (decode? cs).map fun (text, rest) => (escaped c ++ text, rest)
  | c :: cs =>
    if c = '\x22' then some ([], cs)
    else if c = '\\' then none
    else (decode? cs).map fun (text, rest) => (c :: text, rest)

/-- The rest after a quoted text is shorter than what was read. -/
theorem length_rest_lt {cs text rest : List Char} (h : decode? cs = some (text, rest)) :
    rest.length < cs.length := by
  fun_induction decode? cs generalizing text with
  | case1 => simp at h
  | case2 c cs ih =>
    obtain ⟨⟨inner, rest'⟩, hr, he⟩ := Option.map_eq_some_iff.1 h
    have := @ih inner (by simp_all)
    simp only [List.length_cons]
    omega
  | case3 => simp_all
  | case4 => simp at h
  | case5 c cs _ _ _ ih =>
    obtain ⟨⟨inner, rest'⟩, hr, he⟩ := Option.map_eq_some_iff.1 h
    have := @ih inner (by simp_all)
    simp only [List.length_cons]
    omega

/-- A character that is written with a backslash reads back from its letter. -/
theorem ofLetter?_letter? {c l : Char} (h : letter? c = some l) : ofLetter? l = some c := by
  unfold letter? at h
  split at h <;> cases h <;> rfl

theorem letter?_eq_none {c : Char} (h : letter? c = none) : c ≠ '\x22' ∧ c ≠ '\\' := by
  constructor <;> rintro rfl <;> exact absurd h (by decide)

/-- A quoted text reads back, whatever follows it. -/
theorem decode?_encode (text rest : List Char) :
    decode? (text.flatMap encodeChar ++ '\x22' :: rest) = some (text, rest) := by
  induction text with
  | nil => simp [decode?]
  | cons c text ih =>
    rw [List.flatMap_cons, List.append_assoc]
    cases h : letter? c with
    | some l =>
      simp [encodeChar, h, decode?, ih, escaped, ofLetter?_letter? h]
    | none =>
      obtain ⟨hq, hb⟩ := letter?_eq_none h
      simp [encodeChar, h, decode?, ih, hq, hb]

end Lisplet.Text.Quoted
