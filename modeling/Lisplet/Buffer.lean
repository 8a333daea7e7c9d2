import Lisplet.Stream

/-! The buffer behind a stream.  It keeps text that has been read until more is added, and only then
throws it away; so the place up to which a text has been read is counted in two parts. -/

namespace Lisplet

/-- What follows the first `n` bytes of a text, if they end where a character ends. -/
def dropBytes? (n : Nat) (cs : List Char) : Option (List Char) :=
  if n = 0 then some cs
  else
    match cs with
    | [] => none
    | c :: cs => if c.utf8Size ≤ n then dropBytes? (n - c.utf8Size) cs else none

/-- The text that is kept, the number of bytes of it that have been read, and the number of bytes that
have been thrown away. -/
structure Buffer where
  text : List Char
  pos : Nat
  discarded : Nat
  deriving DecidableEq

namespace Buffer

def empty : Buffer := ⟨[], 0, 0⟩

def ofText (text : String) : Buffer := ⟨text.toList, 0, 0⟩

/-- Adds text at the end.  What has been read is thrown away first. -/
def push? (b : Buffer) (text : String) : Option Buffer :=
  if 0 < b.pos then
    (dropBytes? b.pos b.text).map fun rest => ⟨rest ++ text.toList, 0, b.discarded + b.pos⟩
  else some { b with text := b.text ++ text.toList }

/-- The text that has not been read yet. -/
def remaining? (b : Buffer) : Option (List Char) := dropBytes? b.pos b.text

def isExhausted (b : Buffer) : Bool := utf8Length b.text ≤ b.pos

/-- The number of bytes before the place up to which the text has been read. -/
def offset (b : Buffer) : Nat := b.discarded + b.pos

/-- Drops all that has not been read yet, which counts as thrown away. -/
def clear (b : Buffer) : Buffer := ⟨[], 0, b.discarded + utf8Length b.text⟩

/-- Goes on by some bytes, but not beyond the end. -/
def advance (b : Buffer) (bytes : Nat) : Buffer :=
  { b with pos := min (b.pos + bytes) (utf8Length b.text) }

end Buffer

theorem utf8Length_pos {cs : List Char} (h : cs ≠ []) : 0 < utf8Length cs := by
  cases cs with
  | nil => exact absurd rfl h
  | cons c cs => exact Nat.add_pos_left c.utf8Size_pos _

/-- What is left after some bytes is an end of the text with that many bytes before it. -/
theorem dropBytes?_eq_some_iff {n : Nat} {cs rest : List Char} :
    dropBytes? n cs = some rest ↔ ∃ front, cs = front ++ rest ∧ utf8Length front = n := by
  constructor
  · intro h
    fun_induction dropBytes? n cs with
    | case1 => exact ⟨[], Option.some.inj h, rfl⟩
    | case2 | case4 => cases h
    | case3 n hn c cs hle ih =>
      obtain ⟨front, rfl, hfront⟩ := ih h
      exact ⟨c :: front, rfl, by rw [utf8Length]; omega⟩
  · rintro ⟨front, rfl, rfl⟩
    induction front with
    | nil =>
      unfold dropBytes?
      exact if_pos rfl
    | cons c front ih =>
      have hc := c.utf8Size_pos
      have hsub : utf8Length (c :: front) - c.utf8Size = utf8Length front := by
        rw [utf8Length, Nat.add_sub_cancel_left]
      rw [List.cons_append, dropBytes?, if_neg, if_pos, hsub, ih]
      · exact Nat.le_add_right _ _
      · exact Nat.ne_of_gt (Nat.add_pos_left hc _)

end Lisplet
