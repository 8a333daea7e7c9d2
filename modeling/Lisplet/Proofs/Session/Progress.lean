import Lisplet.Proofs.Reader.Offsets
import Lisplet.Proofs.Session.Pieces
import Lisplet.Proofs.Session.Requests

/-! Reading goes on until it ends.  A datum is read in rounds, one token at a time; a host takes the
datums of a stream call by call, and a session evaluates each before it asks for the next.  All three
are loops in which every round takes up some of the text, so each of them ends after at most one round
more than the text has bytes.  Within a round a datum is put in its place, and that loop takes up some
of the stack. -/

namespace Lisplet

/-! ### Loops -/

/-- The loop that repeats `step` from `x` on until there is a result ends with `a` in the `n`th
round. -/
inductive Rounds {σ α : Type} (step : σ → α ⊕ σ) : Nat → σ → α → Prop
  | last {x : σ} {a : α} (result : step x = .inl a) : Rounds step 1 x a
  | next {n : Nat} {x y : σ} {a : α} (state : step x = .inr y) (more : Rounds step n y a) :
      Rounds step (n + 1) x a

/-- A loop with a state that gets smaller in every round ends, and a function that follows the loop
gives its result. -/
theorem exists_rounds {σ α : Type} {step : σ → α ⊕ σ} {result : σ → α} (size : σ → Nat)
    (hsize : ∀ x y, step x = .inr y → size y < size x)
    (hresult : ∀ x, result x = (step x).elim id result) (x : σ) :
    ∃ n, n ≤ size x + 1 ∧ Rounds step n x (result x) := by
  induction hk : size x using Nat.strong_induction_on generalizing x with
  | _ k ih =>
    subst hk
    rw [hresult x]
    cases hstep : step x with
    | inl a => exact ⟨1, by omega, .last hstep⟩
    | inr y =>
      have hless := hsize x y hstep
      obtain ⟨n, hn, hrounds⟩ := ih (size y) hless y rfl
      exact ⟨n + 1, by omega, .next hstep hrounds⟩

/-- What a text has before a shorter end of it takes up at least one byte. -/
theorem exists_front {cs rest : List Char} (h : rest <:+ cs) (hlt : rest.length < cs.length) :
    ∃ front, cs = front ++ rest ∧ 1 ≤ utf8Length front := by
  obtain ⟨front, rfl⟩ := h
  refine ⟨front, rfl, ?_⟩
  cases front with
  | nil => simp at hlt
  | cons c front =>
    have hc := c.utf8Size_pos
    rw [utf8Length]
    omega

theorem Outcome.map_id {σ ε α : Type} (o : Outcome σ ε α) : o.map (fun a => a) = o := by
  cases o <;> rfl

/-- What is reported of a text that is complete once all its datums have been taken. -/
def Drained.report (d : Drained) : Except ReadError (List Value) × Reader :=
  match d.error? with
  | some e => (.error e, d.reader)
  | none => ((d.reader.finish d.stream).map fun _ => d.values, d.reader)

namespace Token

theorem lexeme_after_gap {cs here : List Char} {c : Char}
    (h : skipGap none cs = .before (c :: here)) :
    (∃ t rest, lexeme (c :: here) = .token t rest) ∨ lexeme (c :: here) = .openString := by
  obtain ⟨hspace, hc⟩ := skipGap_before_cons h
  cases hlex : lexeme (c :: here) with
  | token t rest => exact .inl ⟨t, rest, rfl⟩
  | openString => exact .inr rfl
  | unreadable => exact absurd hlex (lexeme_ne_unreadable hspace hc)

end Token

namespace Reader

open Token

variable {final : Bool} {r r' : Reader} {s s' : Stream}

/-! ### One datum -/

/-- One round of reading a datum: what comes out, or the reader and the text for the next round. -/
def round (final : Bool) : Reader × List Char → Reading ⊕ (Reader × List Char)
  | (r, cs) =>
    match scan final cs with
    | .finished => .inl ⟨r, [], .ok none⟩
    | .held here => .inl ⟨{ r with pending := some .token }, here, .ok none⟩
    | .openString here => .inl ⟨{ r with pending := some .string }, here, .ok none⟩
    | .unreadable here => .inl ⟨{ r with failed := true }, here, .error .unreadable⟩
    | .found t here rest =>
      match r.accept t with
      | .refused fault r => .inl ⟨r, here, .error fault⟩
      | .ongoing r => .inr (r, rest)
      | .datum v r => .inl ⟨r, rest, .ok (some v)⟩

theorem readFrom_round (final : Bool) (x : Reader × List Char) :
    x.1.readFrom final x.2 = (round final x).elim id fun y => y.1.readFrom final y.2 := by
  obtain ⟨r, cs⟩ := x
  rw [readFrom_eq, round]
  cases scan final cs with
  | found t here rest => cases hacc : r.accept t <;> simp only [hacc] <;> rfl
  | _ => rfl

theorem round_eq_inr {cs rest : List Char} (h : round final (r, cs) = .inr (r', rest)) :
    ∃ t here, scan final cs = .found t here rest ∧ r.accept t = .ongoing r' := by
  rw [round] at h
  cases hscan : scan final cs with
  | found t here rest' =>
    rw [hscan] at h
    cases hacc : r.accept t with
    | ongoing r₁ =>
      simp only [hacc, Sum.inr.injEq, Prod.mk.injEq] at h
      obtain ⟨rfl, rfl⟩ := h
      exact ⟨t, here, rfl, hacc⟩
    | _ => simp [hacc] at h
  | _ => simp [hscan] at h

theorem round_consumes {cs rest : List Char} (h : round final (r, cs) = .inr (r', rest)) :
    ∃ front, cs = front ++ rest ∧ 1 ≤ utf8Length front := by
  obtain ⟨t, here, hscan, -⟩ := round_eq_inr h
  exact exists_front (scan_suffix hscan (by simp [Scan.places])) (scan_found_length hscan)

/-- No round comes upon a text that begins with no token. -/
theorem round_readable {cs : List Char} {out : Reading} (h : round final (r, cs) = .inl out) :
    out.answer ≠ .error .unreadable := by
  rw [round] at h
  cases hscan : scan final cs with
  | unreadable here => exact absurd hscan (scan_ne_unreadable final cs here)
  | found t here rest =>
    rw [hscan] at h
    cases hacc : r.accept t with
    | refused fault r₁ =>
      obtain ⟨kind?, rfl, -, rfl, -⟩ := accept_eq_refused_iff.1 hacc
      simp only [hacc, Sum.inl.injEq] at h
      simp [← h]
    | ongoing r₁ => simp [hacc] at h
    | datum v r₁ =>
      simp only [hacc, Sum.inl.injEq] at h
      simp [← h]
  | _ =>
    simp only [hscan, Sum.inl.injEq] at h
    simp [← h]

/-- Every round of reading a datum gets on. -/
structure Advances (final : Bool) : Prop where
  /-- After spaces and comments a text begins with a token or with a quoted text that has no end. -/
  begins : ∀ cs c here, skipGap none cs = .before (c :: here) →
    (∃ t rest, lexeme (c :: here) = .token t rest) ∨ lexeme (c :: here) = .openString
  /-- A round that is the last does not end in unreadable text. -/
  readable : ∀ r cs out, round final (r, cs) = .inl out → out.answer ≠ .error .unreadable
  /-- A round that is not the last takes up at least one byte. -/
  consumes : ∀ r cs r' rest, round final (r, cs) = .inr (r', rest) →
    ∃ front, cs = front ++ rest ∧ 1 ≤ (String.ofList front).utf8ByteSize

theorem advances (final : Bool) : Advances final where
  begins _ _ _ := lexeme_after_gap
  readable _ _ _ := round_readable
  consumes r cs r' rest h := by
    obtain ⟨front, hfront, hbytes⟩ := round_consumes h
    exact ⟨front, hfront, utf8Length_eq front ▸ hbytes⟩

theorem readChars_rounds (final : Bool) (r : Reader) (cs : List Char) :
    ∃ n, n ≤ utf8Length cs + 1 ∧
      Rounds (round final) n ({ r with pending := none }, cs) (r.readChars final cs) := by
  refine exists_rounds (fun x => utf8Length x.2) ?_ (readFrom_round final)
    ({ r with pending := none }, cs)
  intro x y h
  obtain ⟨front, hfront, hbytes⟩ := round_consumes h
  rw [hfront, utf8Length_append]
  omega

/-- One round of putting a datum where it belongs: a list takes it or it is complete, or a quote mark
turns it into a form for the next round. -/
def settle (quotes : QuoteSymbols) : Value × Supply × List Context →
    (Option Value × List Context × Supply) ⊕ (Value × Supply × List Context)
  | (datum, supply, []) => .inl (some datum, [], supply)
  | (datum, supply, .list items :: stack) => .inl (none, .list (datum :: items) :: stack, supply)
  | (datum, supply, .quote kind :: stack) =>
    let (form, supply) := Value.wrap (quotes.get kind) datum supply
    .inr (form, supply, stack)

theorem place_settle (quotes : QuoteSymbols) (x : Value × Supply × List Context) :
    place quotes x.1 x.2.1 x.2.2 =
      (settle quotes x).elim id fun y => place quotes y.1 y.2.1 y.2.2 := by
  obtain ⟨datum, supply, _ | ⟨items | kind, stack⟩⟩ := x <;> rfl

theorem settle_pops {quotes : QuoteSymbols} {x y : Value × Supply × List Context}
    (h : settle quotes x = .inr y) : y.2.2.length < x.2.2.length := by
  obtain ⟨datum, supply, _ | ⟨items | kind, stack⟩⟩ := x
  · cases h
  · cases h
  · obtain rfl := Sum.inr.inj h
    simp

/-- A datum is put in its place after at most one round for each thing that has begun and one more. -/
theorem place_rounds (quotes : QuoteSymbols) (v : Value) (supply : Supply) (stack : List Context) :
    ∃ n, n ≤ stack.length + 1 ∧
      Rounds (settle quotes) n (v, supply, stack) (place quotes v supply stack) :=
  exists_rounds (fun x => x.2.2.length) (fun _ _ => settle_pops) (place_settle quotes)
    (v, supply, stack)

/-! ### All datums -/

/-- A datum takes up at least one byte of the stream, and the stream counts what it takes up. -/
theorem read_consumes {v : Value} (h : r.read final s = (.ok (some v), r', s')) :
    ∃ front, s.rest = front ++ s'.rest ∧ 1 ≤ utf8Length front ∧
      s'.offset = s.offset + utf8Length front := by
  have hstream : s' = s.moveTo s'.rest := by
    have hmove := read_stream final r s
    rwa [h, read_eq_ok h] at hmove
  have hsuffix : s'.rest <:+ s.rest := by
    have hrest : (r.readChars final s.rest).rest <:+ s.rest := readFrom_suffix _ _ _
    rwa [read_eq_ok h] at hrest
  obtain ⟨front, hfront, hbytes⟩ := exists_front hsuffix (read_length h)
  refine ⟨front, hfront, hbytes, ?_⟩
  rw [hstream, Stream.moveTo, hfront, utf8Length_append, Nat.add_sub_cancel]

theorem read_offset_lt {v : Value} (h : r.read final s = (.ok (some v), r', s')) :
    s.offset < s'.offset := by
  obtain ⟨front, -, hbytes, hoffset⟩ := read_consumes h
  omega

theorem read_bytes_lt {v : Value} (h : r.read final s = (.ok (some v), r', s')) :
    utf8Length s'.rest < utf8Length s.rest := by
  obtain ⟨front, hfront, hbytes, -⟩ := read_consumes h
  rw [hfront, utf8Length_append]
  omega

/-- One call of a host that takes all datums of a stream and has received `vs` so far: all that it
gets, or the state of things before the next call. -/
def call (final : Bool) :
    List Value × Reader × Stream → Drained ⊕ (List Value × Reader × Stream)
  | (vs, r, s) =>
    match r.read final s with
    | (.ok (some v), r, s) => .inr (vs ++ [v], r, s)
    | (.ok none, r, s) => .inl ⟨vs, none, r, s⟩
    | (.error e, r, s) => .inl ⟨vs, some e, r, s⟩

/-- What comes of a stream after the datums `vs`. -/
def drainAfter (final : Bool) : List Value × Reader × Stream → Drained
  | (vs, r, s) => { r.drain final s with values := vs ++ (r.drain final s).values }

theorem drainAfter_call (final : Bool) (x : List Value × Reader × Stream) :
    drainAfter final x = (call final x).elim id (drainAfter final) := by
  obtain ⟨vs, r, s⟩ := x
  rw [drainAfter, drain_eq, call]
  rcases r.read final s with ⟨e | (_ | v), r', s'⟩
  · simp
  · simp
  · simp [drainAfter]

theorem drain_rounds (final : Bool) (r : Reader) (s : Stream) :
    ∃ n, n ≤ utf8Length s.rest + 1 ∧ Rounds (call final) n ([], r, s) (r.drain final s) := by
  refine exists_rounds (fun x => utf8Length x.2.2.rest) ?_ (drainAfter_call final) ([], r, s)
  rintro ⟨vs, r, s⟩ y h
  rw [call] at h
  split at h
  case _ v r' s' hread =>
    obtain rfl := Sum.inr.inj h
    exact read_bytes_lt hread
  all_goals cases h

theorem readAll_eq_report (r : Reader) (text : String) :
    r.readAll text = (r.drain true (.ofText text)).report := by
  rw [readAll_eq_readPieces, readPieces]
  rcases r.drain true (.ofText text) with ⟨values, _ | e, r', s'⟩ <;> rfl

end Reader

namespace Session

/-- One turn of a session that evaluates the datums of its stream and has the values `vs` so far. -/
def turn (fuel : Nat) (final : Bool) :
    List Value × Session → Outcome Session Error (List Value) ⊕ (List Value × Session)
  | (vs, s) =>
    match s.reader.read final s.stream with
    | (.error e, reader, stream) => .inl (.failed (.read e) { s with reader, stream }.resetReader)
    | (.ok none, reader, stream) => .inl (.done vs { s with reader, stream })
    | (.ok (some expr), reader, stream) =>
      match Lisplet.eval s.keywords fuel s.global expr s.store with
      | .stopped why => .inl (.stopped why)
      | .failed e store => .inl (.failed (.eval e) { s with reader, stream, store }.resetReader)
      | .done v store => .inr (vs ++ [v], { s with reader, stream, store })

/-- What comes of a session's stream after the values `vs`. -/
def drainAfter (fuel : Nat) (final : Bool) :
    List Value × Session → Outcome Session Error (List Value)
  | (vs, s) => (s.drain fuel final).map (vs ++ ·)

theorem drainAfter_turn (fuel : Nat) (final : Bool) (x : List Value × Session) :
    drainAfter fuel final x = (turn fuel final x).elim id (drainAfter fuel final) := by
  obtain ⟨vs, s⟩ := x
  rw [drainAfter, drain_eq, turn]
  rcases s.reader.read final s.stream with ⟨e | (_ | expr), reader, stream⟩
  · rfl
  · simp [Outcome.map]
  · cases heval : Lisplet.eval s.keywords fuel s.global expr s.store with
    | stopped why => simp [heval, Outcome.map]
    | failed e store => simp [heval, Outcome.map]
    | done v store =>
      simp only [heval, Sum.elim_inr, drainAfter]
      cases drain fuel final { s with reader, stream, store } <;> simp [Outcome.map]

theorem drain_turns (fuel : Nat) (final : Bool) (s : Session) :
    ∃ n, n ≤ utf8Length s.stream.rest + 1 ∧
      Rounds (turn fuel final) n ([], s) (s.drain fuel final) := by
  -- The loop keeps the values so far in its state, and at first there are none.
  have hnone : drainAfter fuel final ([], s) = s.drain fuel final := Outcome.map_id _
  rw [← hnone]
  refine exists_rounds (fun x => utf8Length x.2.stream.rest) ?_ (drainAfter_turn fuel final) ([], s)
  rintro ⟨vs, s⟩ y h
  rw [turn] at h
  split at h
  case _ | _ => cases h
  case _ expr reader stream hread =>
    split at h
    case _ | _ => cases h
    case _ v store heval =>
      obtain rfl := Sum.inr.inj h
      exact Reader.read_bytes_lt hread

/-- Every round of reading a datum gets on, and a datum takes up some of the stream, which never holds
unreadable text.  Hence, with a reader in any state and whatever text is left, reading a datum ends, as
does putting a datum in its place on the way; and taking all datums of a stream ends after at most as
many calls as it has bytes and one more, whether they are only taken or also evaluated. -/
theorem reading_ends (final : Bool) (r : Reader) (s : Stream) :
    Reader.Advances final ∧
    (∀ v supply, ∃ n, n ≤ r.stack.length + 1 ∧ Rounds (Reader.settle r.quotes) n
      (v, supply, r.stack) (Reader.place r.quotes v supply r.stack)) ∧
    (∃ n, n ≤ s.remaining.utf8ByteSize + 1 ∧ Rounds (Reader.round final) n
      ({ r with pending := none }, s.rest) (r.readChars final s.rest)) ∧
    (∀ e r' s', r.read final s = (.error e, r', s') → e.fault ≠ .unreadable) ∧
    (∀ v r' s', r.read final s = (.ok (some v), r', s') → s.offset < s'.offset) ∧
    (∃ n, n ≤ s.remaining.utf8ByteSize + 1 ∧
      Rounds (Reader.call final) n ([], r, s) (r.drain final s)) ∧
    (∀ text, ∃ n drained, n ≤ text.utf8ByteSize + 1 ∧
      Rounds (Reader.call true) n ([], r, .ofText text) drained ∧
        r.readAll text = drained.report) ∧
    ∀ fuel t, ∃ n, n ≤ t.stream.remaining.utf8ByteSize + 1 ∧
      Rounds (turn fuel final) n ([], t) (t.drain fuel final) := by
  simp only [Stream.remaining, ← utf8Length_eq]
  refine ⟨Reader.advances final, fun v supply => Reader.place_rounds r.quotes v supply r.stack,
    Reader.readChars_rounds final r s.rest, ?_, fun _ _ _ => Reader.read_offset_lt,
    Reader.drain_rounds final r s, ?_, fun fuel t => drain_turns fuel final t⟩
  · intro e r' s' h
    obtain ⟨hchars, -⟩ := Reader.read_eq_error h
    obtain ⟨kind?, hfault⟩ := (Reader.readFrom_refusedAt hchars).stray
    simp [hfault]
  · intro text
    obtain ⟨n, hn, hrounds⟩ := Reader.drain_rounds true r (.ofText text)
    have hbytes : utf8Length text.toList = text.utf8ByteSize := by
      rw [utf8Length_eq, String.ofList_toList]
    exact ⟨n, _, hbytes ▸ hn, hrounds, Reader.readAll_eq_report r text⟩

/-- An empty list and, after a comment, a parenthesis too many. -/
theorem reading_ends_comment :
    let r := Reader.ofTable (.empty 0) (.ofOwner 0)
    let s := Stream.ofText "( ) ;é\n)"
    let first := r.read false s
    let second := first.2.1.read false first.2.2
    (∃ y, Reader.round false (r, s.rest) = .inr y ∧
      ∃ front, s.rest = front ++ y.2 ∧ 1 ≤ (String.ofList front).utf8ByteSize) ∧
    (first.1 = .ok (some .nil) ∧ s.offset < first.2.2.offset) ∧
    (Token.skipGap none first.2.2.rest = .before [')'] ∧
      ((∃ t rest, Token.lexeme [')'] = .token t rest) ∨ Token.lexeme [')'] = .openString)) ∧
    (∃ out, Reader.round false (r, first.2.2.rest) = .inl out ∧
      out.answer ≠ .error .unreadable) ∧
    second.1 = .error ⟨.strayClose none, 8⟩ ∧ Fault.strayClose none ≠ .unreadable := by
  intro r s first second
  have hround : (Reader.round false (r, s.rest)).isRight = true := by decide +kernel
  have hlast : (Reader.round false (r, first.2.2.rest)).isLeft = true := by decide +kernel
  have hrest : first.2.2.rest = " ;é\n)".toList := by decide +kernel
  have hgap : Token.skipGap none first.2.2.rest = .before [')'] := by
    rw [hrest]
    rfl
  have hsecond : second.1 = .error ⟨.strayClose none, 8⟩ := by decide +kernel
  have hfirst : first.1 = .ok (some .nil) := by decide +kernel
  obtain ⟨⟨r₁, rest⟩, hnext⟩ := Sum.isRight_iff.1 hround
  obtain ⟨out, hout⟩ := Sum.isLeft_iff.1 hlast
  obtain ⟨hadvances, -, -, -, hoffset, -⟩ := reading_ends false r s
  obtain ⟨-, -, -, hreadable, -⟩ := reading_ends false first.2.1 first.2.2
  exact ⟨⟨_, hnext, hadvances.consumes _ _ _ _ hnext⟩,
    ⟨hfirst, hoffset _ _ _ (Prod.ext hfirst rfl)⟩,
    ⟨hgap, hadvances.begins _ _ _ hgap⟩,
    ⟨out, hout, hadvances.readable _ _ _ hout⟩,
    hsecond, hreadable _ _ _ (Prod.ext hsecond rfl)⟩

end Session

end Lisplet
