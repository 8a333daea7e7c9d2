import Lisplet.Proofs.Reader.Requests
import Lisplet.Reader.Buffered
import Mathlib.Tactic.ByContra

/-! Buffers and streams.  A buffer shows a stream if it holds the same text and has counted the same
bytes.  Then whatever is done with the buffer succeeds, and leads to a buffer that shows what the same
does to the stream: text is never cut inside a character, and no byte is lost or counted twice when
text that has been read is thrown away. -/

namespace Lisplet

namespace Buffer

/-- The buffer holds the text that the stream holds, and stands at the same place. -/
structure Shows (b : Buffer) (s : Stream) : Prop where
  remaining : b.remaining? = some s.rest
  offset : b.offset = s.offset

theorem remaining?_of_pos {b : Buffer} (h : b.pos = 0) : b.remaining? = some b.text :=
  dropBytes?_eq_some_iff.2 ⟨[], rfl, h.symm⟩

theorem shows_ofText (text : String) : (ofText text).Shows (.ofText text) :=
  ⟨remaining?_of_pos rfl, rfl⟩

theorem shows_empty : empty.Shows .empty := ⟨remaining?_of_pos rfl, rfl⟩

variable {b : Buffer} {s : Stream}

/-- What has been read is thrown away, and the text is added to what is left. -/
theorem Shows.push (h : b.Shows s) (text : String) :
    ∃ b', b.push? text = some b' ∧ b'.Shows (s.push text) := by
  unfold push?
  split
  · have hrest : dropBytes? b.pos b.text = some s.rest := h.remaining
    rw [hrest]
    exact ⟨_, rfl, remaining?_of_pos rfl, h.offset⟩
  · next hpos =>
    have hzero : b.pos = 0 := Nat.eq_zero_of_not_pos hpos
    have htext : b.text = s.rest :=
      Option.some.inj ((remaining?_of_pos hzero).symm.trans h.remaining)
    refine ⟨_, rfl, ?_, h.offset⟩
    rw [htext]
    exact remaining?_of_pos hzero

theorem Shows.clear (h : b.Shows s) : b.clear.Shows s.clear := by
  refine ⟨remaining?_of_pos rfl, ?_⟩
  have htotal := pos_add_remaining h.remaining
  have hoffset : b.discarded + b.pos = s.offset := h.offset
  simp only [Buffer.clear, Buffer.offset, Stream.clear, Stream.moveTo, utf8Length]
  omega

/-- Going on by the bytes up to an end of the text leads to that end, and not beyond the text. -/
theorem Shows.advance (h : b.Shows s) {rest : List Char} (hrest : rest <:+ s.rest) :
    (b.advance (utf8Length s.rest - utf8Length rest)).Shows (s.moveTo rest) := by
  obtain ⟨front, htext, hfront⟩ := dropBytes?_eq_some_iff.1 h.remaining
  obtain ⟨between, hbetween⟩ := hrest
  have hoffset : b.discarded + b.pos = s.offset := h.offset
  have hbytes : utf8Length s.rest = utf8Length between + utf8Length rest := by
    rw [← hbetween, utf8Length_append]
  have hall : utf8Length b.text = utf8Length front + utf8Length s.rest := by
    rw [htext, utf8Length_append]
  have hpos : (b.advance (utf8Length s.rest - utf8Length rest)).pos =
      utf8Length (front ++ between) := by
    simp only [Buffer.advance, utf8Length_append]
    omega
  constructor
  · refine dropBytes?_eq_some_iff.2 ⟨front ++ between, ?_, hpos.symm⟩
    rw [List.append_assoc]
    exact htext.trans (congrArg (front ++ ·) hbetween.symm)
  · rw [Buffer.offset, hpos, utf8Length_append]
    simp only [Buffer.advance, Stream.moveTo]
    omega

theorem Shows.isExhausted (h : b.Shows s) : b.isExhausted = s.isExhausted := by
  have htotal := pos_add_remaining h.remaining
  have hempty : utf8Length b.text ≤ b.pos ↔ s.rest = [] := by
    constructor
    · intro hle
      by_contra hne
      have hpos := utf8Length_pos hne
      omega
    · intro hnil
      rw [hnil, utf8Length] at htotal
      omega
  rw [Bool.eq_iff_iff, Buffer.isExhausted, Stream.isExhausted, decide_eq_true_iff, hempty,
    List.isEmpty_iff]

end Buffer

/-- What reading a text says when the text is that of a stream. -/
def Reading.onStream (reading : Reading) (s : Stream) :
    Except ReadError (Option Value) × Reader × Stream :=
  let s := s.moveTo reading.rest
  match reading.answer with
  | .ok v => (.ok v, reading.reader, s)
  | .error fault => (.error ⟨fault, s.offset⟩, reading.reader, s)

namespace Reader

open Token

variable {b : Buffer} {s : Stream}

/-- A round takes the buffer to the place that a scan of the text names, and then on over the token if
the reader has taken it. -/
theorem round?_eq (h : b.Shows s) (final : Bool) (r : Reader) :
    ∃ b', match scan final s.rest with
    | .finished => b'.Shows (s.moveTo []) ∧ r.round? final b = some (.answer (.ok none) r b')
    | .held here => b'.Shows (s.moveTo here) ∧
        r.round? final b = some (.answer (.ok none) { r with pending := some .token } b')
    | .openString here => b'.Shows (s.moveTo here) ∧
        r.round? final b = some (.answer (.ok none) { r with pending := some .string } b')
    | .unreadable here => b'.Shows (s.moveTo here) ∧
        r.round? final b =
          some (.answer (.error ⟨.unreadable, b'.offset⟩) { r with failed := true } b')
    | .found t here rest => b'.Shows (s.moveTo here) ∧ r.round? final b = some (
        match r.accept t with
        | .refused fault r => .answer (.error ⟨fault, b'.offset⟩) r b'
        | .ongoing r => .again r (b'.advance (utf8Length here - utf8Length rest))
        | .datum v r =>
          .answer (.ok (some v)) r (b'.advance (utf8Length here - utf8Length rest))) := by
  simp only [round?, h.remaining, scan]
  cases hgap : skipGap none s.rest with
  | comment here =>
    cases final with
    | false =>
      have hhere : here <:+ s.rest := (skipGap_comment_suffix hgap).resolve_left nofun
      exact ⟨_, h.advance hhere, rfl⟩
    | true =>
      have hend := h.advance List.nil_suffix
      refine ⟨_, hend, ?_⟩
      simp only [Gap.after, takeNext?, hend.remaining]
      rfl
  | before here =>
    have hhere := h.advance (skipGap_before_suffix hgap)
    have hinput : (b.advance (utf8Length s.rest - utf8Length here)).remaining? = some here :=
      hhere.remaining
    simp only [Gap.held?, Gap.after, takeNext?, hinput, Option.map_some]
    refine ⟨b.advance (utf8Length s.rest - utf8Length here), ?_⟩
    cases here with
    | nil => exact ⟨hhere, rfl⟩
    | cons c cs =>
      simp only [List.isEmpty_cons, Bool.false_eq_true, if_false, takeToken]
      cases lexeme (c :: cs) with
      | openString => exact ⟨hhere, rfl⟩
      | unreadable => exact ⟨hhere, rfl⟩
      | token t rest =>
        dsimp only
        by_cases hheld : (!final && rest.isEmpty && mayGrow t) = true
        · rw [if_pos hheld, if_pos hheld]
          exact ⟨hhere, rfl⟩
        · rw [if_neg hheld, if_neg hheld]
          exact ⟨hhere, rfl⟩

/-- From a token the buffer goes on to the end of the token. -/
theorem shows_after_token {final : Bool} {t : Token} {here rest : List Char}
    (hscan : scan final s.rest = .found t here rest) (h : b.Shows (s.moveTo here)) :
    (b.advance (utf8Length here - utf8Length rest)).Shows (s.moveTo rest) := by
  have hhere : here <:+ s.rest := scan_suffix hscan (by simp [Scan.places])
  have hrest : rest <:+ here := scan_found_suffix hscan
  rw [← Stream.moveTo_moveTo hhere hrest]
  exact h.advance hrest

theorem onStream_moveTo {rest : List Char} (hrest : rest <:+ s.rest) (final : Bool)
    (r : Reader) :
    (r.readFrom final rest).onStream (s.moveTo rest) = (r.readFrom final rest).onStream s := by
  simp only [Reading.onStream, Stream.moveTo_moveTo hrest (readFrom_suffix final r rest)]

theorem rounds?_eq (final : Bool) (r : Reader) (b : Buffer) :
    r.rounds? final b =
      match r.round? final b with
      | none => none
      | some (.again r b) => r.rounds? final b
      | some (.answer a r b) => some (a, r, b) := by
  rw [rounds?]
  split <;> next h => rw [h]

theorem rounds?_shows (h : b.Shows s) (final : Bool) (r : Reader) :
    ∃ b', r.rounds? final b = some (((r.readFrom final s.rest).onStream s).1,
        ((r.readFrom final s.rest).onStream s).2.1, b') ∧
      b'.Shows ((r.readFrom final s.rest).onStream s).2.2 := by
  generalize hcs : s.rest = cs
  fun_induction readFrom final r cs generalizing b s with
  | case1 r cs hscan | case2 r cs here hscan | case3 r cs here hscan =>
    obtain ⟨b', hround⟩ := round?_eq h final r
    simp only [hcs, hscan] at hround
    refine ⟨b', ?_, hround.1⟩
    rw [rounds?_eq, hround.2]
    rfl
  | case4 r cs here hscan =>
    obtain ⟨b', hround⟩ := round?_eq h final r
    simp only [hcs, hscan] at hround
    refine ⟨b', ?_, hround.1⟩
    rw [rounds?_eq, hround.2, hround.1.offset]
    rfl
  | case5 r cs t here rest hscan fault r' hacc =>
    obtain ⟨b', hround⟩ := round?_eq h final r
    simp only [hcs, hscan, hacc] at hround
    refine ⟨b', ?_, hround.1⟩
    rw [rounds?_eq, hround.2, hround.1.offset]
    rfl
  | case6 r cs t here rest hscan r' hacc ih =>
    obtain ⟨b', hround⟩ := round?_eq h final r
    simp only [hcs, hscan, hacc] at hround
    have hrest : rest <:+ s.rest := hcs ▸ scan_suffix hscan (by simp [Scan.places])
    obtain ⟨b'', hrounds, hshows⟩ := ih (shows_after_token (hcs ▸ hscan) hround.1) rfl
    rw [onStream_moveTo hrest] at hrounds hshows
    refine ⟨b'', ?_, hshows⟩
    rw [rounds?_eq, hround.2]
    exact hrounds
  | case7 r cs t here rest hscan v r' hacc =>
    obtain ⟨b', hround⟩ := round?_eq h final r
    simp only [hcs, hscan, hacc] at hround
    refine ⟨_, ?_, shows_after_token (hcs ▸ hscan) hround.1⟩
    rw [rounds?_eq, hround.2]
    rfl

/-- Reading from a buffer gives what reading from the stream gives. -/
theorem read?_shows (h : b.Shows s) (final : Bool) (r : Reader) :
    ∃ b', r.read? final b = some ((r.read final s).1, (r.read final s).2.1, b') ∧
      b'.Shows (r.read final s).2.2 :=
  rounds?_shows h final { r with pending := none }

/-! ### Requests -/

/-- The reader and the buffer after a request.  A whole text is read apart from the buffer. -/
def Request.run? : Request → Reader × Buffer → Option (Reader × Buffer)
  | .push text, (r, b) => (b.push? text).map fun b => (r, b)
  | .read final, (r, b) => (r.read? final b).map (·.2)
  | .finish, (r, b) => some (r, b)
  | .readAll text, (r, b) => some ((r.readAll text).2, b)
  | .clear, (r, b) => some (r, b.clear)
  | .reset, (r, b) => some (r.reset, b)

def runAll? (requests : List Request) (state : Reader × Buffer) : Option (Reader × Buffer) :=
  requests.foldlM (fun state request => request.run? state) state

theorem Request.run?_shows (h : b.Shows s) (q : Request) (r : Reader) :
    ∃ b', q.run? (r, b) = some ((q.run (r, s)).1, b') ∧ b'.Shows (q.run (r, s)).2 := by
  cases q with
  | push text =>
    obtain ⟨b', hpush, hshows⟩ := h.push text
    exact ⟨b', by rw [run?, hpush]; rfl, hshows⟩
  | read final =>
    obtain ⟨b', hread, hshows⟩ := read?_shows h final r
    exact ⟨b', by rw [run?, hread]; rfl, hshows⟩
  | finish | readAll text | reset => exact ⟨b, rfl, h⟩
  | clear => exact ⟨b.clear, rfl, h.clear⟩

/-- Whatever is asked of a reader and a buffer is done, and leads where it leads with the stream. -/
theorem runAll?_shows (h : b.Shows s) (requests : List Request) (r : Reader) :
    ∃ b', runAll? requests (r, b) = some ((runAll requests (r, s)).1, b') ∧
      b'.Shows (runAll requests (r, s)).2 := by
  induction requests generalizing r b s with
  | nil => exact ⟨b, rfl, h⟩
  | cons q requests ih =>
    obtain ⟨b₁, hrun, hshows⟩ := q.run?_shows h r
    obtain ⟨b₂, hrest, hlast⟩ := ih hshows (q.run (r, s)).1
    refine ⟨b₂, ?_, hlast⟩
    rw [runAll?, List.foldlM_cons, hrun]
    exact hrest

end Reader

end Lisplet
