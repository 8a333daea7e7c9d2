import Lisplet.Proofs.Reader.CleanCut
import Mathlib.Data.List.Basic

/-! What a host asks of a reader after an error.  Whatever that is, the reader is not clean before it
is reset: `failed_runAll`.  A parenthesis that closes nothing stays where it is and fails again, unless
a mark stands before it, which is used up the first time. -/

namespace Lisplet

namespace Token

theorem lexeme_closeList {c : Char} {cs rest : List Char}
    (h : lexeme (c :: cs) = .token .closeList rest) : c = ')' ∧ rest = cs := by
  simp only [lexeme] at h
  repeat' split at h
  case _ => cases h
  case _ hc => exact ⟨hc, (Lexeme.token.inj h).2.symm⟩
  case _ => cases h
  case _ => cases h
  case _ =>
    cases cs with
    | nil => cases h
    | cons d ds =>
      simp only [commaLexeme] at h
      split at h <;> cases h
  case _ =>
    simp only [stringLexeme] at h
    split at h <;> cases h
  case _ => cases h
  case _ => cases h

theorem scan_closeList {final : Bool} {cs here rest : List Char}
    (h : scan final cs = .found .closeList here rest) : here = ')' :: rest := by
  simp only [scan] at h
  split at h
  · split at h <;> cases h
  · cases h
  · split at h
    · next hlex =>
      split at h
      · cases h
      · obtain ⟨rfl, rfl, rfl⟩ := Scan.found.inj h
        obtain ⟨rfl, rfl⟩ := lexeme_closeList hlex
        rfl
    · cases h
    · cases h

end Token

namespace Reader

open Token

/-- What a host can ask for. -/
inductive Request where
  | push (text : String)
  | read (final : Bool)
  | finish
  | readAll (text : String)
  | clear
  | reset
  deriving DecidableEq

/-- The reader and the stream after a request.  A whole text is read apart from the stream, and to
declare the end of the text changes nothing. -/
def Request.run : Request → Reader × Stream → Reader × Stream
  | .push text, (r, s) => (r, s.push text)
  | .read final, (r, s) => (r.read final s).2
  | .finish, (r, s) => (r, s)
  | .readAll text, (r, s) => ((r.readAll text).2, s)
  | .clear, (r, s) => (r, s.clear)
  | .reset, (r, s) => (r.reset, s)

def runAll (requests : List Request) (state : Reader × Stream) : Reader × Stream :=
  requests.foldl (fun state request => request.run state) state

variable {r r' : Reader}

/-! ### After an error -/

theorem accept_stays_failed (h : r.failed = true) (t : Token) :
    (r.accept t).reader.failed = true := by
  by_cases hrefused : ∃ fault r', r.accept t = .refused fault r'
  · obtain ⟨fault, r', hacc⟩ := hrefused
    obtain ⟨kind?, -, -, -, rfl⟩ := accept_eq_refused_iff.1 hacc
    rw [hacc]
    rfl
  · rw [accept_failed fun fault r' hacc => hrefused ⟨fault, r', hacc⟩]
    exact h

theorem readFrom_stays_failed (h : r.failed = true) (final : Bool) (cs : List Char) :
    (r.readFrom final cs).reader.failed = true := by
  fun_induction readFrom final r cs with
  | case1 | case2 | case3 => exact h
  | case4 => rfl
  | case5 r cs t here rest hscan fault r' hacc
  | case7 r cs t here rest hscan v r' hacc =>
    have hkeep := accept_stays_failed h t
    rw [hacc] at hkeep
    exact hkeep
  | case6 r cs t here rest hscan r' hacc ih =>
    have hkeep := accept_stays_failed h t
    rw [hacc] at hkeep
    exact ih hkeep

theorem readMany_stays_failed (h : r.failed = true) (final : Bool) (cs : List Char) :
    (r.readMany final cs).reader.failed = true := by
  fun_induction readMany final r cs with
  | case1 r cs r' rest v hfirst more ih =>
    have hkeep := readFrom_stays_failed (r := { r with pending := none }) h final cs
    rw [← readChars, hfirst] at hkeep
    exact ih hkeep
  | case2 r cs r' rest hfirst | case3 r cs r' rest fault hfirst =>
    have hkeep := readFrom_stays_failed (r := { r with pending := none }) h final cs
    rw [← readChars, hfirst] at hkeep
    exact hkeep

theorem read_reader (final : Bool) (r : Reader) (s : Stream) :
    (r.read final s).2.1 = (r.readChars final s.rest).reader := by
  simp only [read]
  split <;> rfl

theorem readAll_reader (r : Reader) (text : String) :
    (r.readAll text).2 = (r.readMany true text.toList).reader := by
  simp only [readAll]
  split <;> rfl

theorem failed_run {state : Reader × Stream} (h : state.1.failed = true) {q : Request}
    (hq : q ≠ .reset) : (q.run state).1.failed = true := by
  obtain ⟨r, s⟩ := state
  cases q with
  | push text => exact h
  | read final =>
    rw [Request.run, read_reader]
    exact readFrom_stays_failed (r := { r with pending := none }) h final s.rest
  | finish => exact h
  | readAll text =>
    simp only [Request.run, readAll_reader]
    exact readMany_stays_failed h true text.toList
  | clear => exact h
  | reset => exact absurd rfl hq

theorem failed_runAll {requests : List Request} (hrequests : .reset ∉ requests)
    {state : Reader × Stream} (h : state.1.failed = true) :
    (runAll requests state).1.failed = true := by
  induction requests generalizing state with
  | nil => exact h
  | cons q requests ih =>
    rw [List.mem_cons, not_or] at hrequests
    exact ih hrequests.2 (failed_run h (Ne.symm hrequests.1))

/-- Reading fails at a closing parenthesis, which is left unread.  It fails with nothing open, and
then nothing changes, or after a mark. -/
theorem readFrom_eq_error {final : Bool} {cs rest : List Char} {fault : Fault}
    (hpending : r.pending = none) (h : r.readFrom final cs = ⟨r', rest, .error fault⟩) :
    r'.failed = true ∧ r'.pending = none ∧ (∃ more, rest = ')' :: more) ∧
      ((fault = .strayClose none ∧ r'.stack = []) ∨ ∃ kind, fault = .strayClose (some kind)) := by
  fun_induction readFrom final r cs with
  | case1 | case2 | case3 | case7 => cases h
  | case4 r cs here hscan => exact absurd hscan (scan_ne_unreadable final cs here)
  | case5 r cs t here rest' hscan fault' r₁ hacc =>
    obtain ⟨rfl, rfl, hfault⟩ := Reading.mk.inj h
    obtain rfl := Except.error.inj hfault
    obtain ⟨kind?, rfl, hhead, rfl, rfl⟩ := accept_eq_refused_iff.1 hacc
    refine ⟨rfl, hpending, ⟨rest', scan_closeList hscan⟩, ?_⟩
    cases kind? with
    | none =>
      have hstack : r.stack = [] := List.head?_eq_none_iff.1 hhead
      exact .inl ⟨rfl, by simp only [hstack, List.tail_nil]⟩
    | some kind => exact .inr ⟨kind, rfl⟩
  | case6 r cs t here rest' hscan r₁ hacc ih =>
    have hkeep := accept_pending r t
    rw [hacc] at hkeep
    exact ih (hkeep.trans hpending) h

/-- The reader has failed at a parenthesis that closes nothing, and still stands before it. -/
structure Stuck (e : ReadError) (state : Reader × Stream) : Prop where
  failed : state.1.failed = true
  pending : state.1.pending = none
  stack : state.1.stack = []
  close : ∃ more, state.2.rest = ')' :: more
  error : e = ⟨.strayClose none, state.2.offset⟩

theorem Stuck.read {e : ReadError} {s : Stream} (h : Stuck e (r, s)) (final : Bool) :
    r.read final s = (.error e, r, s) := by
  obtain ⟨hfailed, hpending, hstack, ⟨more, hrest⟩, rfl⟩ := h
  obtain ⟨stack, pending, failed, table, quotes, supply, factories⟩ := r
  obtain ⟨offset, rest⟩ := s
  simp only at hfailed hpending hstack hrest
  subst hfailed hpending hstack hrest
  have hscan : scan final (')' :: more) = .found .closeList (')' :: more) more := by
    simp [scan, skipGap, lexeme, isSpace, mayGrow]
  simp [Reader.read, readChars, readFrom_eq, hscan, accept, Stream.moveTo]

/-- Reading is tried again, perhaps after more text has come. -/
def Request.Retries : Request → Prop
  | .push _ | .read _ | .finish => True
  | .readAll _ | .clear | .reset => False

theorem Stuck.run {e : ReadError} {state : Reader × Stream} (h : Stuck e state) {q : Request}
    (hq : q.Retries) : Stuck e (q.run state) := by
  obtain ⟨r, s⟩ := state
  cases q with
  | push text =>
    obtain ⟨more, hrest⟩ := h.close
    refine ⟨h.failed, h.pending, h.stack, ⟨more ++ text.toList, ?_⟩, h.error⟩
    exact congrArg (· ++ text.toList) hrest
  | read final =>
    rw [Request.run, h.read final]
    exact h
  | finish => exact h
  | readAll text => exact hq.elim
  | clear => exact hq.elim
  | reset => exact hq.elim

theorem Stuck.runAll {e : ReadError} {requests : List Request}
    (hrequests : ∀ q ∈ requests, q.Retries) {state : Reader × Stream} (h : Stuck e state) :
    Stuck e (runAll requests state) := by
  induction requests generalizing state with
  | nil => exact h
  | cons q requests ih =>
    obtain ⟨hq, hrest⟩ := List.forall_mem_cons.1 hrequests
    exact ih hrest (h.run hq)

/-- When reading a datum fails, with the reader and the stream in whatever state, the reader is not
clean again before it is reset.  If the parenthesis at fault comes after no mark, then to read again
fails in the same way at the same place and changes nothing, however often it is tried and also when
more text has come. -/
theorem read_error_lasts {final : Bool} {r r' : Reader} {s s' : Stream} {e : ReadError}
    (h : r.read final s = (.error e, r', s')) :
    (∀ requests, .reset ∉ requests → (runAll requests (r', s')).1.isClean = false) ∧
      ((∀ kind, e.fault ≠ .strayClose (some kind)) →
        ∀ requests, (∀ q ∈ requests, q.Retries) → ∀ again,
          let state := runAll requests (r', s')
          state.1.read again state.2 = (.error e, state)) := by
  obtain ⟨hchars, hoffset⟩ := read_eq_error h
  obtain ⟨hfailed, hpending, hclose, hfault⟩ :=
    readFrom_eq_error (r := { r with pending := none }) rfl hchars
  refine ⟨fun requests hrequests => ?_, fun hkind requests hrequests again => ?_⟩
  · have hstill : (runAll requests (r', s')).1.failed = true := failed_runAll hrequests hfailed
    simp only [isClean, hstill, Bool.not_true, Bool.and_false]
  · obtain ⟨hnone, hstack⟩ := hfault.resolve_right fun hsome => hsome.elim hkind
    have herror : e = ⟨.strayClose none, s'.offset⟩ := by rw [← hnone, ← hoffset]
    have hstuck : Stuck e (r', s') := ⟨hfailed, hpending, hstack, hclose, herror⟩
    exact (hstuck.runAll hrequests).read again

/-- A parenthesis after a complete datum, tried again after more text has come. -/
theorem read_error_lasts_outside :
    let r := ofTable (.empty 0) (.ofOwner 0)
    let first := r.read false (.ofText "(a) )")
    let second := first.2.1.read false first.2.2
    let e : ReadError := ⟨.strayClose none, 4⟩
    first.1 = .ok (some (.pair ⟨0, 0⟩ (.symbol ⟨0, 4, "a"⟩) .nil)) ∧ second.1 = .error e ∧
      (runAll [.push "b", .readAll "c", .finish] second.2).1.isClean = false ∧
      second.2.1.read false (second.2.2.push "b") =
        (.error e, second.2.1, second.2.2.push "b") := by
  intro r first second e
  have hfirst : first.1 = .ok (some (.pair ⟨0, 0⟩ (.symbol ⟨0, 4, "a"⟩) .nil)) := by
    decide +kernel
  have hsecond : second.1 = .error e := by decide +kernel
  obtain ⟨hunclean, hagain⟩ := read_error_lasts (Prod.ext hsecond rfl)
  refine ⟨hfirst, hsecond, hunclean _ (by decide), ?_⟩
  exact hagain (fun kind => nofun) [.push "b"] (List.forall_mem_singleton.2 trivial) false

/-- After a mark a parenthesis uses up the mark when it fails, so that the second time it closes the
list around the mark, and the list comes out as a datum. -/
theorem read_again_closes_list :
    let r := ofTable (.empty 0) (.ofOwner 0)
    let first := r.read false (.ofText "(')")
    let second := first.2.1.read false first.2.2
    first.1 = .error ⟨.strayClose (some .quote), 2⟩ ∧ second.1 = .ok (some .nil) := by
  decide +kernel

end Reader

end Lisplet
