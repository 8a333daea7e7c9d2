import Lisplet.Proofs.Reader.Buffered
import Lisplet.Proofs.Reader.Words

/-! Places in a text that comes in pieces.  Whatever a host does with a reader and a stream, the stream
stands at a place of the text that it has been given: it has counted the bytes before that place and
holds the text after it.  The same is then true of the buffer that shows the stream.  So the place that
an error names is a place of that text, however long ago the text came and whatever has been thrown
away since. -/

namespace Lisplet

/-! ### Bytes -/

theorem utf8Length_eq (cs : List Char) : utf8Length cs = (String.ofList cs).utf8ByteSize := by
  induction cs with
  | nil => rfl
  | cons c cs ih =>
    rw [utf8Length, ih, String.ofList_cons, String.utf8ByteSize_append,
      String.utf8ByteSize_singleton]

theorem getElem?_bytes (bytes : ByteArray) (i : Nat) : bytes[i]? = bytes.data[i]? := by
  by_cases h : i < bytes.size
  · rw [getElem?_pos bytes i h, getElem?_pos bytes.data i h]
    rfl
  · rw [getElem?_neg bytes i h, getElem?_neg bytes.data i h]

/-- After the bytes of a text comes the first byte of the character that follows the text. -/
theorem byte_after (front : String) (c : Char) (cs : List Char) :
    (front ++ String.ofList (c :: cs)).toByteArray[front.utf8ByteSize]? =
      (String.singleton c).toByteArray[0]? := by
  have hfront : front.toByteArray.data.size = front.utf8ByteSize := rfl
  have hc : 0 < (String.singleton c).toByteArray.data.size := by
    change 0 < (String.singleton c).utf8ByteSize
    rw [String.utf8ByteSize_singleton]
    exact c.utf8Size_pos
  simp only [getElem?_bytes, String.ofList_cons, String.toByteArray_append, ByteArray.data_append]
  rw [Array.getElem?_append_right (by omega), hfront, Nat.sub_self, Array.getElem?_append_left hc]

namespace Stream

/-- The stream stands in the text: it holds an end of the text and has counted the bytes before. -/
def StandsIn (s : Stream) (text : String) : Prop :=
  ∃ front, text = front ++ s.remaining ∧ s.offset = front.utf8ByteSize

variable {s : Stream} {text : String}

theorem StandsIn.total (h : s.StandsIn text) :
    s.offset + s.remaining.utf8ByteSize = text.utf8ByteSize := by
  obtain ⟨front, rfl, hoffset⟩ := h
  rw [hoffset, String.utf8ByteSize_append]

theorem StandsIn.push (h : s.StandsIn text) (more : String) :
    (s.push more).StandsIn (text ++ more) := by
  obtain ⟨front, rfl, hoffset⟩ := h
  refine ⟨front, ?_, hoffset⟩
  simp [remaining, Stream.push, String.append_assoc]

theorem StandsIn.moveTo (h : s.StandsIn text) {rest : List Char} (hrest : rest <:+ s.rest) :
    (s.moveTo rest).StandsIn text := by
  obtain ⟨front, rfl, hoffset⟩ := h
  obtain ⟨between, hbetween⟩ := hrest
  refine ⟨front ++ String.ofList between, ?_, ?_⟩
  · rw [remaining, ← hbetween, String.ofList_append, String.append_assoc]
    rfl
  · rw [Stream.moveTo, ← hbetween, utf8Length_append, Nat.add_sub_cancel, hoffset, utf8Length_eq,
      String.utf8ByteSize_append]

/-- At its place the text has the first byte of the character that the stream holds first. -/
theorem StandsIn.byte (h : s.StandsIn text) {c : Char} {cs : List Char} (hrest : s.rest = c :: cs) :
    text.toByteArray[s.offset]? = (String.singleton c).toByteArray[0]? := by
  obtain ⟨front, rfl, hoffset⟩ := h
  rw [hoffset, remaining, hrest, byte_after]

theorem StandsIn.offset_of_nil (h : s.StandsIn text) (hrest : s.rest = []) :
    s.offset = text.utf8ByteSize := by
  obtain ⟨front, rfl, hoffset⟩ := h
  rw [hoffset, remaining, hrest, String.ofList_nil, String.append_empty]

end Stream

namespace Token

theorem lexeme_openString {c : Char} {cs : List Char} (h : lexeme (c :: cs) = .openString) :
    c = '\x22' := by
  by_contra hc
  simp only [lexeme, hc, if_false] at h
  repeat' split at h
  case _ | _ | _ | _ => cases h
  case _ =>
    cases cs with
    | nil => cases h
    | cons d ds =>
      simp only [commaLexeme] at h
      split at h <;> cases h
  case _ | _ => cases h

theorem scan_openString {final : Bool} {cs here : List Char}
    (h : scan final cs = .openString here) : ∃ body, here = '\x22' :: body := by
  simp only [scan] at h
  split at h
  · split at h <;> cases h
  · cases h
  · next c body hgap =>
    split at h
    · split at h <;> cases h
    · next hlex =>
      obtain rfl := Scan.openString.inj h
      exact ⟨body, by rw [lexeme_openString hlex]⟩
    · cases h

/-- The quoted text that a text ends in begins with a quote. -/
theorem sequence_open? {cs here : List Char} (h : (sequence cs).open? = some here) :
    ∃ body, here = '\x22' :: body := by
  fun_induction sequence cs with
  | case1 cs t place rest hscan more ih => exact ih h
  | case2 cs place hscan =>
    obtain rfl := Option.some.inj h
    exact scan_openString hscan
  | case3 => cases h

end Token

namespace Reader

open Token

/-! ### The text that was added -/

/-- The text that a request adds. -/
def Request.added : Request → String
  | .push text => text
  | .read _ | .finish | .readAll _ | .clear | .reset => ""

def added (requests : List Request) : String := String.join (requests.map Request.added)

variable {r r' : Reader} {s s' : Stream} {final : Bool}

theorem read_stream (final : Bool) (r : Reader) (s : Stream) :
    (r.read final s).2.2 = s.moveTo (r.readChars final s.rest).rest := by
  simp only [read]
  split <;> rfl

theorem read_standsIn {text : String} (h : s.StandsIn text) (final : Bool) (r : Reader) :
    (r.read final s).2.2.StandsIn text := by
  rw [read_stream]
  exact h.moveTo (readFrom_suffix final { r with pending := none } s.rest)

theorem Request.run_standsIn {state : Reader × Stream} {text : String}
    (h : state.2.StandsIn text) (q : Request) : (q.run state).2.StandsIn (text ++ q.added) := by
  obtain ⟨r, s⟩ := state
  cases q with
  | push more => exact h.push more
  | read final =>
    rw [added, String.append_empty]
    exact read_standsIn h final r
  | clear =>
    rw [added, String.append_empty]
    exact h.moveTo List.nil_suffix
  | finish | readAll | reset =>
    rw [added, String.append_empty]
    exact h

theorem Request.offset_le_run (q : Request) (state : Reader × Stream) :
    state.2.offset ≤ (q.run state).2.offset := by
  obtain ⟨r, s⟩ := state
  cases q with
  | read final =>
    rw [run, read_stream]
    exact Nat.le_add_right _ _
  | clear => exact Nat.le_add_right _ _
  | push | finish | readAll | reset => exact Nat.le_refl _

theorem runAll_standsIn {state : Reader × Stream} {text : String} (h : state.2.StandsIn text)
    (requests : List Request) :
    (runAll requests state).2.StandsIn (text ++ added requests) := by
  induction requests generalizing state text with
  | nil => simpa [runAll, added] using h
  | cons q requests ih =>
    rw [added, List.map_cons, String.join_cons, ← String.append_assoc]
    exact ih (q.run_standsIn h)

theorem offset_le_runAll (requests : List Request) (state : Reader × Stream) :
    state.2.offset ≤ (runAll requests state).2.offset := by
  induction requests generalizing state with
  | nil => exact Nat.le_refl _
  | cons q requests ih => exact Nat.le_trans (q.offset_le_run state) (ih (q.run state))

/-! ### Where reading fails -/

/-- Reading `cs` fails at the closing parenthesis that begins `here`: it is a token of the text, the
reader takes the tokens before it, which complete no datum, and refuses it. -/
structure RefusedAt (r : Reader) (cs here : List Char) (fault : Fault) : Prop where
  stray : ∃ kind?, fault = .strayClose kind?
  close : ∃ rest, here = ')' :: rest
  token : ⟨.closeList, here⟩ ∈ (sequence cs).placed
  refused : ∃ r₁ r₂, r.run (upTo cs here) = some ([], r₁) ∧
    r₁.accept .closeList = .refused fault r₂

theorem readFrom_refusedAt {cs here : List Char} {fault : Fault}
    (h : r.readFrom final cs = ⟨r', here, .error fault⟩) : RefusedAt r cs here fault := by
  fun_induction readFrom final r cs with
  | case1 | case2 | case3 | case7 => cases h
  | case4 r cs here' hscan => exact absurd hscan (scan_ne_unreadable final cs here')
  | case5 r cs t here' rest hscan fault' r₁ hacc =>
    obtain ⟨rfl, rfl, hfault⟩ := Reading.mk.inj h
    obtain rfl := Except.error.inj hfault
    obtain ⟨kind?, rfl, -, rfl, -⟩ := accept_eq_refused_iff.1 hacc
    refine ⟨⟨kind?, rfl⟩, ⟨rest, scan_closeList hscan⟩, ?_, r, r₁, ?_, hacc⟩
    · rw [placed_found hscan]
      exact List.mem_cons_self
    · rw [upTo_found_here hscan, run]
  | case6 r cs t here' rest hscan r₁ hacc ih =>
    obtain ⟨hstray, hclose, htoken, r₂, r₃, hrun, hrefused⟩ := ih h
    have hlength : here.length ≤ rest.length := placed_length htoken
    refine ⟨hstray, hclose, ?_, r₂, r₃, ?_, hrefused⟩
    · rw [placed_found hscan]
      exact List.mem_cons_of_mem _ htoken
    · have htaken : (r.accept t).taken = some ([], r₁) := by rw [hacc, Accepted.taken]
      rw [upTo_found hscan hlength, run_cons htaken, hrun]
      rfl

theorem read_error_at {text : String} (hs : s.StandsIn text) {e : ReadError}
    (h : r.read final s = (.error e, r', s')) :
    e.offset = s'.offset ∧ text.toByteArray[e.offset]? = some ')'.toUInt8 ∧
      RefusedAt { r with pending := none } s.rest s'.rest e.fault := by
  obtain ⟨hchars, hoffset⟩ := read_eq_error h
  have hrefused := readFrom_refusedAt hchars
  obtain ⟨rest, hrest⟩ := hrefused.close
  have hs' := read_standsIn hs final r
  rw [h] at hs'
  refine ⟨hoffset, ?_, hrefused⟩
  rw [hoffset, hs'.byte hrest]
  decide +kernel

/-! ### Where the text ends -/

theorem finish_eq_error_iff {e : ReadError} :
    r.finish s = .error e ↔ r.missing? = some e.fault ∧ e.offset = s.offset := by
  unfold finish finishAt
  cases hmissing : r.missing? with
  | none => simp
  | some fault =>
    obtain ⟨fault', offset⟩ := e
    simp [eq_comm]

/-- What the place of an error at the end of a text says, if `rest` was left of what was read of `cs`:
it is where the quoted text begins that has no end, and for every other fault the end of the text. -/
def EndsAt (text : String) (cs rest : List Char) (e : ReadError) : Prop :=
  match e.fault with
  | .unterminatedString =>
    text.toByteArray[e.offset]? = some '\x22'.toUInt8 ∧ (sequence cs).open? = some rest
  | .unclosedLists _ | .danglingQuote _ => e.offset = text.utf8ByteSize
  | .strayClose _ | .unreadable => False

theorem finish_endsAt {text : String} (hs' : s'.StandsIn text)
    (hread : r.read true s = (.ok none, r', s')) {e : ReadError} (h : r'.finish s' = .error e) :
    EndsAt text s.rest s'.rest e := by
  obtain ⟨hmissing, hoffset⟩ := finish_eq_error_iff.1 h
  -- A complete text is either read to its end or left at a quoted text that has not ended.
  rcases readFrom_end (r := { r with pending := none }) rfl (read_eq_ok hread) with
    ⟨hpending, hrest⟩ | ⟨hpending, hopen⟩
  · have hend : e.offset = text.utf8ByteSize := hoffset.trans (hs'.offset_of_nil hrest)
    rcases hstack : r'.stack with _ | ⟨items | kind, stack⟩
    · simp [missing?, hpending, hstack] at hmissing
    · have hfault : e.fault = .unclosedLists r'.openLists := by
        simpa [missing?, hpending, hstack, eq_comm] using hmissing
      rwa [EndsAt, hfault]
    · have hfault : e.fault = .danglingQuote kind := by
        simpa [missing?, hpending, hstack, eq_comm] using hmissing
      rwa [EndsAt, hfault]
  · have hfault : e.fault = .unterminatedString := by
      simpa [missing?, hpending, eq_comm] using hmissing
    obtain ⟨body, hbody⟩ := sequence_open? hopen
    rw [EndsAt, hfault, hoffset, hs'.byte hbody]
    exact ⟨by decide +kernel, hopen⟩

/-- Whatever a host has done with a reader and a buffer that had no text at first, the buffer holds an
end of all the text that was added, which begins where a character begins, and its offset is the number
of bytes before that; the offset never goes back.  When reading fails, it fails with the offset of the
buffer, and there the text has the closing parenthesis that is refused.  When the end is declared after
a complete text and something is missing, the error is at the quote that begins the quoted text without
an end or else at the end of the text. -/
theorem offsets_exact (r : Reader) (requests : List Request) :
    ∃ state rest, runAll? requests (r, .empty) = some state ∧ state.2.remaining? = some rest ∧
      let text := added requests
      (∃ front, text = front ++ String.ofList rest ∧ state.2.offset = front.utf8ByteSize) ∧
      state.2.offset + (String.ofList rest).utf8ByteSize = text.utf8ByteSize ∧
      (∀ more, ∃ later, runAll? more state = some later ∧ state.2.offset ≤ later.2.offset) ∧
      (∀ final, ∃ answer r' b' here, state.1.read? final state.2 = some (answer, r', b') ∧
        b'.remaining? = some here ∧
        (∀ e, answer = .error e → e.offset = b'.offset ∧
          text.toByteArray[e.offset]? = some ')'.toUInt8 ∧
          RefusedAt { state.1 with pending := none } rest here e.fault) ∧
        (final = true → answer = .ok none → ∀ e, r'.finishAt b'.offset = .error e →
          EndsAt text rest here e)) := by
  obtain ⟨b, hrun, hshows⟩ := runAll?_shows Buffer.shows_empty requests r
  have hstands : (runAll requests (r, .empty)).2.StandsIn (added requests) := by
    have hall : (runAll requests (r, .empty)).2.StandsIn ("" ++ added requests) :=
      runAll_standsIn ⟨"", rfl, rfl⟩ requests
    rwa [String.empty_append] at hall
  generalize runAll requests (r, .empty) = state at hrun hshows hstands
  obtain ⟨r₁, s⟩ := state
  refine ⟨(r₁, b), s.rest, hrun, hshows.remaining, ?_, ?_, ?_, ?_⟩
  · rw [hshows.offset]
    exact hstands
  · rw [hshows.offset]
    exact hstands.total
  · intro more
    obtain ⟨b', hmore, hshows'⟩ := runAll?_shows hshows more r₁
    refine ⟨_, hmore, ?_⟩
    rw [hshows.offset, hshows'.offset]
    exact offset_le_runAll more (r₁, s)
  · intro final
    obtain ⟨b', hread, hshows'⟩ := read?_shows hshows final r₁
    have hstands' := read_standsIn hstands final r₁
    refine ⟨_, _, b', _, hread, hshows'.remaining, fun e he => ?_, ?_⟩
    · rw [hshows'.offset]
      exact read_error_at hstands (Prod.ext he rfl)
    · rintro rfl hnone e hfinish
      rw [hshows'.offset] at hfinish
      exact finish_endsAt hstands' (Prod.ext hnone rfl) hfinish

/-- A parenthesis after an atom of two bytes, which have been thrown away, and a quoted text after the
parenthesis has been dropped. -/
theorem offsets_exact_dropped :
    let r := ofTable (.empty 0) (.ofOwner 0)
    let requests : List Request := [.push "é ", .read false, .push ")"]
    let dropped := requests ++ [.read false, .clear, .reset, .push "(b \"c"]
    ∃ failing ended,
      runAll? requests (r, .empty) = some failing ∧ failing.2 = ⟨[' ', ')'], 0, 2⟩ ∧
      (failing.1.read? false failing.2).map (·.1) = some (.error ⟨.strayClose none, 3⟩) ∧
      "é )".toByteArray[3]? = some ')'.toUInt8 ∧
      runAll? dropped (r, .empty) = some ended ∧ ended.2 = ⟨"(b \"c".toList, 0, 4⟩ ∧
      (ended.1.read? true ended.2).map (fun (answer, r', b') => (answer, r'.finishAt b'.offset)) =
        some (.ok none, .error ⟨.unterminatedString, 7⟩) ∧
      "é )(b \"c".toByteArray[7]? = some '\x22'.toUInt8 := by
  intro r requests dropped
  obtain ⟨failing, _, hfailing, -, -, -, -, hread⟩ := offsets_exact r requests
  obtain ⟨answer, r₁, b₁, _, hanswer, -, hclose, -⟩ := hread false
  have hthrown : (runAll? requests (r, .empty)).map (·.2) = some ⟨[' ', ')'], 0, 2⟩ := by
    decide +kernel
  have herror : ((runAll? requests (r, .empty)).bind fun state =>
      (state.1.read? false state.2).map (·.1)) = some (.error ⟨.strayClose none, 3⟩) := by
    decide +kernel
  obtain ⟨ended, _, hended, -, -, -, -, hread'⟩ := offsets_exact r dropped
  obtain ⟨answer', r₂, b₂, _, hanswer', -, -, hquote⟩ := hread' true
  have hdropped : (runAll? dropped (r, .empty)).map (·.2) = some ⟨"(b \"c".toList, 0, 4⟩ := by
    decide +kernel
  have hend : ((runAll? dropped (r, .empty)).bind fun state =>
      (state.1.read? true state.2).map fun (answer, r', b') =>
        (answer, r'.finishAt b'.offset)) =
      some (.ok none, .error ⟨.unterminatedString, 7⟩) := by
    decide +kernel
  rw [hfailing] at hthrown herror
  rw [hended] at hdropped hend
  simp only [Option.map_some, Option.bind_some, hanswer, hanswer', Option.some.injEq,
    Prod.mk.injEq] at hthrown herror hdropped hend
  refine ⟨failing, ended, hfailing, hthrown, ?_, (hclose _ herror).2.1, hended, hdropped, ?_,
    (hquote rfl hend.1 _ hend.2).1⟩
  · rw [hanswer, Option.map_some, herror]
  · simp only [hanswer', Option.map_some, hend.1, hend.2]

end Reader

end Lisplet
