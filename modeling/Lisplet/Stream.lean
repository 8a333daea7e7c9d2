/-! Text that arrives in pieces.  A stream holds what has not been read yet and counts the bytes, in
UTF-8, of all that has.  It is what a reader sees of a `Buffer`, which keeps the text. -/

namespace Lisplet

/-- The number of bytes of a text in UTF-8. -/
def utf8Length : List Char → Nat
  | [] => 0
  | c :: cs => c.utf8Size + utf8Length cs

theorem utf8Length_append (cs ds : List Char) :
    utf8Length (cs ++ ds) = utf8Length cs + utf8Length ds := by
  induction cs with
  | nil => simp [utf8Length]
  | cons c cs ih => simp only [List.cons_append, utf8Length, ih, Nat.add_assoc]

/-- The number of bytes read so far, and the text that is left. -/
structure Stream where
  offset : Nat
  rest : List Char

namespace Stream

def empty : Stream := ⟨0, []⟩

def ofText (text : String) : Stream := ⟨0, text.toList⟩

/-- Adds text at the end. -/
def push (s : Stream) (text : String) : Stream := { s with rest := s.rest ++ text.toList }

/-- The stream after reading as far as `rest`, an end of what it holds. -/
def moveTo (s : Stream) (rest : List Char) : Stream :=
  ⟨s.offset + (utf8Length s.rest - utf8Length rest), rest⟩

/-- Drops all that has not been read yet, which counts as read. -/
def clear (s : Stream) : Stream := s.moveTo []

/-- The text that has not been read yet. -/
def remaining (s : Stream) : String := String.ofList s.rest

def isExhausted (s : Stream) : Bool := s.rest.isEmpty

/-- Reading moves bytes from what is left to what has been read and loses none. -/
theorem moveTo_total {s : Stream} {front rest : List Char} (h : s.rest = front ++ rest) :
    (s.moveTo rest).offset + utf8Length rest = s.offset + utf8Length s.rest := by
  simp only [moveTo, h, utf8Length_append]
  omega

end Stream

end Lisplet
