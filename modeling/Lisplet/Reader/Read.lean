import Lisplet.Reader
import Lisplet.Stream

/-! Reading datums from text, one at a time or all at once, and declaring the end of the text. -/

namespace Lisplet

/-- The outcome of reading from a text: the reader afterwards, the text it left unread, and a datum,
nothing for want of text, or a fault. -/
structure Reading where
  reader : Reader
  rest : List Char
  answer : Except Fault (Option Value)

/-- All datums of a text up to its end or a fault. -/
structure Datums where
  values : List Value
  reader : Reader
  rest : List Char
  fault? : Option Fault

namespace Reader

/-- Takes tokens from the text until one completes a datum, none is left, or something is wrong.  A
token that is refused is left unread. -/
def readFrom (final : Bool) (r : Reader) (cs : List Char) : Reading :=
  match _ : Token.scan final cs with
  | .finished => ⟨r, [], .ok none⟩
  | .held here => ⟨{ r with pending := some .token }, here, .ok none⟩
  | .openString here => ⟨{ r with pending := some .string }, here, .ok none⟩
  | .unreadable here => ⟨{ r with failed := true }, here, .error .unreadable⟩
  | .found t here rest =>
    match r.accept t with
    | .refused fault r => ⟨r, here, .error fault⟩
    | .ongoing r => r.readFrom final rest
    | .datum v r => ⟨r, rest, .ok (some v)⟩
termination_by cs.length
decreasing_by exact Token.scan_found_length (by assumption)

/-- Reads one datum, going on with what has begun. -/
def readChars (final : Bool) (r : Reader) (cs : List Char) : Reading :=
  { r with pending := none }.readFrom final cs

theorem readFrom_length {final : Bool} {r : Reader} {cs : List Char} {v : Value}
    (h : (r.readFrom final cs).answer = .ok (some v)) :
    (r.readFrom final cs).rest.length < cs.length := by
  fun_induction readFrom final r cs with
  | case1 => simp at h
  | case2 => simp at h
  | case3 => simp at h
  | case4 => simp at h
  | case5 => simp at h
  | case6 r cs t here rest hscan r' hacc ih =>
    exact Nat.lt_trans (ih h) (Token.scan_found_length hscan)
  | case7 r cs t here rest hscan v' r' hacc => exact Token.scan_found_length hscan

/-- Reading a datum takes up some of the text. -/
theorem readChars_length {final : Bool} {r r' : Reader} {cs rest : List Char} {v : Value}
    (h : r.readChars final cs = ⟨r', rest, .ok (some v)⟩) : rest.length < cs.length := by
  have hlt := readFrom_length (show (r.readChars final cs).answer = .ok (some v) by rw [h])
  change (r.readChars final cs).rest.length < cs.length at hlt
  rw [h] at hlt
  exact hlt

/-- Reads datums until there is no other or something is wrong. -/
def readMany (final : Bool) (r : Reader) (cs : List Char) : Datums :=
  match _ : r.readChars final cs with
  | ⟨r', rest, .ok (some v)⟩ =>
    let more := r'.readMany final rest
    { more with values := v :: more.values }
  | ⟨r', rest, .ok none⟩ => ⟨[], r', rest, none⟩
  | ⟨r', rest, .error fault⟩ => ⟨[], r', rest, some fault⟩
termination_by cs.length
decreasing_by exact readChars_length (by assumption)

/-- Reads one datum from a stream. -/
def read (final : Bool) (r : Reader) (s : Stream) :
    Except ReadError (Option Value) × Reader × Stream :=
  let reading := r.readChars final s.rest
  let s := s.moveTo reading.rest
  match reading.answer with
  | .ok v => (.ok v, reading.reader, s)
  | .error fault => (.error ⟨fault, s.offset⟩, reading.reader, s)

/-- Reading a datum from a stream takes up some of its text. -/
theorem read_length {final : Bool} {r r' : Reader} {s s' : Stream} {v : Value}
    (h : r.read final s = (.ok (some v), r', s')) : s'.rest.length < s.rest.length := by
  simp only [read] at h
  split at h
  · next w hw =>
    simp only [Prod.mk.injEq, Except.ok.injEq] at h
    obtain ⟨hv, -, hs⟩ := h
    rw [← hs]
    exact readFrom_length (hw.trans (by rw [hv]))
  · simp at h

/-- What is missing at the end of the text: the end of a quoted text, else the end of the open lists
or the datum of a quote mark, whichever is innermost. -/
def missing? (r : Reader) : Option Fault :=
  if r.pending = some .string then some .unterminatedString
  else
    match r.stack with
    | .list _ :: _ => some (.unclosedLists r.openLists)
    | .quote kind :: _ => some (.danglingQuote kind)
    | [] => none

/-- Declares the end of the text after so many bytes. -/
def finishAt (r : Reader) (offset : Nat) : Except ReadError Unit :=
  match r.missing? with
  | some fault => .error ⟨fault, offset⟩
  | none => .ok ()

/-- Declares the end of the text of a stream. -/
def finish (r : Reader) (s : Stream) : Except ReadError Unit := r.finishAt s.offset

/-- Reads all datums of a text that is complete.  What goes wrong stays with the reader. -/
def readAll (r : Reader) (text : String) : Except ReadError (List Value) × Reader :=
  let datums := r.readMany true text.toList
  let s := (Stream.ofText text).moveTo datums.rest
  match datums.fault? with
  | some fault => (.error ⟨fault, s.offset⟩, datums.reader)
  | none => ((datums.reader.finish s).map fun _ => datums.values, datums.reader)

end Reader

end Lisplet
