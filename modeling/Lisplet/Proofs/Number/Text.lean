import Lisplet.Number.Numeral
import Lisplet.Number.Text
import Lisplet.Token

/-! The shape of a number's text.  What is written for a number that is neither infinite nor no number
looks like a numeral, nothing that is written for a number can be cut by a delimiter, and the words
for the infinite numbers are not taken for numerals. -/

namespace Lisplet.Number

/-- The number is infinite. -/
def isInfinite (n : Float) : Bool :=
  match parts n with
  | .infinite _ => true
  | _ => false

/-- The value is not a number. -/
def isNan (n : Float) : Bool :=
  match parts n with
  | .nan => true
  | _ => false

/-- A digit followed by digits and points. -/
def Digits (cs : List Char) : Prop :=
  ∃ c rest, cs = c :: rest ∧ c.isDigit = true ∧ ∀ d ∈ rest, d.isDigit = true ∨ d = '.'

theorem digits_of_digits {c : Char} {ds : List Char} (h : ∀ d ∈ c :: ds, d.isDigit = true)
    {rest : List Char} (hrest : ∀ d ∈ rest, d.isDigit = true ∨ d = '.') :
    Digits (c :: ds ++ rest) := by
  refine ⟨c, ds ++ rest, rfl, h c List.mem_cons_self, fun d hd => ?_⟩
  rcases List.mem_append.1 hd with hd | hd
  · exact .inl (h d (List.mem_cons_of_mem c hd))
  · exact hrest d hd

theorem digits_chars (d : Decimal) : Digits d.chars := by
  have hdigit : ∀ c ∈ Nat.toDigits 10 d.digits, c.isDigit = true := fun c hc =>
    Nat.isDigit_of_mem_toDigits (by omega) (by omega) hc
  obtain ⟨c, ds, hds⟩ := List.exists_cons_of_ne_nil (Nat.toDigits_ne_nil (n := d.digits) (b := 10))
  rw [hds] at hdigit
  have hzero : ∀ k, ∀ x ∈ List.replicate k '0', x.isDigit = true ∨ x = '.' := by
    intro k x hx
    rw [List.eq_of_mem_replicate hx]
    exact .inl (by decide)
  simp only [Decimal.chars, hds]
  split
  · exact digits_of_digits hdigit (hzero _)
  · split
    · next hpoint =>
      obtain ⟨k, hk⟩ : ∃ k, ((c :: ds).length + d.exponent : Int).toNat = k + 1 :=
        ⟨((c :: ds).length + d.exponent : Int).toNat - 1, by omega⟩
      rw [hk, List.take_succ_cons, List.drop_succ_cons]
      refine digits_of_digits (fun x hx => hdigit x ?_) fun x hx => ?_
      · exact List.mem_of_mem_take (i := k + 1) (by simpa using hx)
      · rcases List.mem_cons.1 hx with rfl | hx
        · exact .inr rfl
        · exact .inl (hdigit x (List.mem_cons_of_mem c (List.mem_of_mem_drop hx)))
    · refine ⟨'0', _, rfl, by decide, fun x hx => ?_⟩
      rcases List.mem_cons.1 hx with rfl | hx
      · exact .inr rfl
      · rcases List.mem_append.1 hx with hx | hx
        · exact hzero _ x hx
        · exact .inl (hdigit x hx)

theorem isDelimiter_of_isDigit {c : Char} (h : c.isDigit = true) : Token.isDelimiter c = false := by
  rw [← Bool.not_eq_true]
  intro hc
  simp only [Token.isDelimiter, Token.isSpace, Bool.or_eq_true, beq_iff_eq] at hc
  rcases hc with (((((((((rfl | rfl) | rfl) | rfl) | rfl) | rfl) | rfl) | rfl) | rfl) | rfl) | rfl <;>
    exact absurd h (by decide)

theorem Digits.plain {cs : List Char} (h : Digits cs) :
    ∀ c ∈ cs, Token.isDelimiter c = false := by
  obtain ⟨d, rest, rfl, hd, hrest⟩ := h
  intro c hc
  rcases List.mem_cons.1 hc with rfl | hc
  · exact isDelimiter_of_isDigit hd
  · rcases hrest c hc with hdigit | rfl
    · exact isDelimiter_of_isDigit hdigit
    · decide

theorem Digits.looksNumeric {cs : List Char} (h : Digits cs) (negative : Bool) :
    looksNumeric (signChars negative ++ cs) = true := by
  obtain ⟨d, rest, rfl, hd, -⟩ := h
  have hminus : d ≠ '-' := by rintro rfl; exact absurd hd (by decide)
  have hpoint : d ≠ '.' := by rintro rfl; exact absurd hd (by decide)
  cases negative <;> simp [signChars, Number.looksNumeric, hminus, hpoint, hd]

/-- What is written for a number: a word for what is infinite, and else a sign or none and
digits. -/
theorem chars_cases {n : Float} (h : isNan n = false) :
    (isInfinite n = true ∧ (chars n = ['i', 'n', 'f'] ∨ chars n = ['-', 'i', 'n', 'f'])) ∨
      isInfinite n = false ∧ ∃ negative cs, chars n = signChars negative ++ cs ∧ Digits cs := by
  simp only [isNan, isInfinite, chars, fullChars] at h ⊢
  cases hparts : parts n with
  | nan => simp [hparts] at h
  | infinite negative => cases negative <;> simp [signChars]
  | zero negative =>
    exact .inr ⟨rfl, false, ['0'], rfl, '0', [], rfl, by decide, by simp⟩
  | finite negative b => exact .inr ⟨rfl, negative, _, rfl, digits_chars _⟩

/-- The text of a number has no delimiters. -/
theorem chars_plain {n : Float} (h : isNan n = false) :
    ∀ c ∈ chars n, Token.isDelimiter c = false := by
  rcases chars_cases h with ⟨-, hword | hword⟩ | ⟨-, negative, cs, hchars, hcs⟩
  · simp [hword, Token.isDelimiter, Token.isSpace]
  · simp [hword, Token.isDelimiter, Token.isSpace]
  · rw [hchars]
    intro c hc
    rcases List.mem_append.1 hc with hc | hc
    · cases negative
      · simp [signChars] at hc
      · obtain rfl : c = '-' := by simpa [signChars] using hc
        decide
    · exact hcs.plain c hc

/-- The text of a number begins with a character other than an at sign. -/
theorem chars_cons {n : Float} (h : isNan n = false) : ∃ c cs, chars n = c :: cs ∧ c ≠ '@' := by
  rcases chars_cases h with ⟨-, hword | hword⟩ | ⟨-, negative, cs, hchars, hcs⟩
  · exact ⟨_, _, hword, by decide⟩
  · exact ⟨_, _, hword, by decide⟩
  · obtain ⟨d, rest, rfl, hd, -⟩ := hcs
    cases negative
    · exact ⟨d, rest, hchars, by rintro rfl; exact absurd hd (by decide)⟩
    · exact ⟨'-', d :: rest, hchars, by decide⟩

/-- The text of a number reads as a number exactly if the number is not infinite. -/
theorem ofAtom?_chars {n : Float} (h : isNan n = false) :
    ofAtom? (chars n) = if isInfinite n then none else ofNumeral? (chars n) := by
  rcases chars_cases h with ⟨hinf, hword | hword⟩ | ⟨hinf, negative, cs, hchars, hcs⟩
  · rw [hinf, hword]
    rfl
  · rw [hinf, hword]
    rfl
  · rw [hinf, hchars, ofAtom?, hcs.looksNumeric]
    rfl

end Lisplet.Number
