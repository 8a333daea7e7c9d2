import Lisplet.Buffer
import Lisplet.Reader.Read
import Lisplet.Token.Suffix

/-! Reading datums from a buffer.  The buffer goes on in steps: over the spaces and comments before a
token, and then over the token once the reader has taken it.  There is no outcome if the text is cut
inside a character. -/

namespace Lisplet

/-- What is left after the spaces and comments at the beginning of a text. -/
def Token.Gap.after : Gap → List Char
  | .before rest => rest
  | .comment _ => []

/-- The comment that the text ends in, if it may go on in the text to come. -/
def Token.Gap.held? (final : Bool) : Gap → Option (List Char)
  | .before _ => none
  | .comment here => if final then none else some here

namespace Reader

/-- What one round of reading leads to. -/
inductive Round where
  | again (r : Reader) (b : Buffer)
  | answer (a : Except ReadError (Option Value)) (r : Reader) (b : Buffer)

/-- Takes the token that begins `input`, the text that the buffer has not read yet. -/
def takeToken (final : Bool) (r : Reader) (b : Buffer) (input : List Char) : Round :=
  match Token.lexeme input with
  | .openString => .answer (.ok none) { r with pending := some .string } b
  | .unreadable => .answer (.error ⟨.unreadable, b.offset⟩) { r with failed := true } b
  | .token t rest =>
    if !final && rest.isEmpty && Token.mayGrow t then
      .answer (.ok none) { r with pending := some .token } b
    else
      match r.accept t with
      | .refused fault r => .answer (.error ⟨fault, b.offset⟩) r b
      | .ongoing r => .again r (b.advance (utf8Length input - utf8Length rest))
      | .datum v r => .answer (.ok (some v)) r (b.advance (utf8Length input - utf8Length rest))

/-- Takes the next token of a buffer that stands at no space or comment. -/
def takeNext? (final : Bool) (r : Reader) (b : Buffer) : Option Round :=
  b.remaining?.map fun input =>
    if input.isEmpty then .answer (.ok none) r b else r.takeToken final b input

/-- Goes over spaces and comments and takes the token after them.  A comment that the text ends in is
left unread if the text is not `final`. -/
def round? (final : Bool) (r : Reader) (b : Buffer) : Option Round :=
  match b.remaining? with
  | none => none
  | some input =>
    let gap := Token.skipGap none input
    match gap.held? final with
    | some here =>
      let b := b.advance (utf8Length input - utf8Length here)
      some (.answer (.ok none) { r with pending := some .token } b)
    | none => r.takeNext? final (b.advance (utf8Length input - utf8Length gap.after))

theorem takeToken_eq_again {final : Bool} {r r' : Reader} {b b' : Buffer} {input : List Char}
    (h : r.takeToken final b input = .again r' b') :
    ∃ t rest, Token.lexeme input = .token t rest ∧ r.accept t = .ongoing r' ∧
      b' = b.advance (utf8Length input - utf8Length rest) := by
  unfold takeToken at h
  split at h
  · cases h
  · cases h
  · next t rest hlex =>
    split at h
    · cases h
    · split at h
      · cases h
      · next hacc =>
        obtain ⟨rfl, rfl⟩ := Round.again.inj h
        exact ⟨t, rest, hlex, hacc, rfl⟩
      · cases h

/-- What a round that is not the last one has done. -/
theorem round?_eq_again {final : Bool} {r r' : Reader} {b b' : Buffer}
    (h : r.round? final b = some (.again r' b')) :
    ∃ skipped input t rest, (b.advance skipped).remaining? = some input ∧
      Token.lexeme input = .token t rest ∧ r.accept t = .ongoing r' ∧
      b' = (b.advance skipped).advance (utf8Length input - utf8Length rest) := by
  unfold round? at h
  split at h
  · cases h
  · simp only at h
    split at h
    · cases h
    · obtain ⟨input, hinput, htake⟩ := Option.map_eq_some_iff.1 h
      split at htake
      · cases htake
      · obtain ⟨t, rest, hlex, hacc, rfl⟩ := takeToken_eq_again htake
        exact ⟨_, input, t, rest, hinput, hlex, hacc, rfl⟩

end Reader

/-- A token takes up some bytes of the text. -/
theorem Token.lexeme_bytes {cs rest : List Char} {t : Token} (h : lexeme cs = .token t rest) :
    utf8Length rest < utf8Length cs := by
  obtain ⟨front, rfl⟩ := lexeme_suffix h
  have hlength := lexeme_length h
  have hfront : front ≠ [] := by
    rintro rfl
    exact Nat.lt_irrefl _ hlength
  rw [utf8Length_append]
  exact Nat.lt_add_of_pos_left (utf8Length_pos hfront)

namespace Buffer

/-- What has been read of the text and what has not make up the text. -/
theorem pos_add_remaining {b : Buffer} {rest : List Char} (h : b.remaining? = some rest) :
    b.pos + utf8Length rest = utf8Length b.text := by
  obtain ⟨front, htext, hfront⟩ := dropBytes?_eq_some_iff.1 h
  rw [htext, utf8Length_append, hfront]

end Buffer

namespace Reader

/-- The number of bytes that are left gets smaller in every round but the last. -/
theorem round?_bytes {final : Bool} {r r' : Reader} {b b' : Buffer}
    (h : r.round? final b = some (.again r' b')) :
    utf8Length b'.text - b'.pos < utf8Length b.text - b.pos := by
  obtain ⟨skipped, input, t, rest, hinput, hlex, -, rfl⟩ := round?_eq_again h
  have hbytes := Token.lexeme_bytes hlex
  have htotal := Buffer.pos_add_remaining hinput
  simp only [Buffer.advance] at htotal ⊢
  omega

/-- Goes on round after round until one gives an answer. -/
def rounds? (final : Bool) (r : Reader) (b : Buffer) :
    Option (Except ReadError (Option Value) × Reader × Buffer) :=
  match _ : r.round? final b with
  | none => none
  | some (.again r b) => r.rounds? final b
  | some (.answer a r b) => some (a, r, b)
termination_by utf8Length b.text - b.pos
decreasing_by exact round?_bytes (by assumption)

/-- Reads one datum from a buffer, going on with what has begun. -/
def read? (final : Bool) (r : Reader) (b : Buffer) :
    Option (Except ReadError (Option Value) × Reader × Buffer) :=
  { r with pending := none }.rounds? final b

end Reader

end Lisplet
