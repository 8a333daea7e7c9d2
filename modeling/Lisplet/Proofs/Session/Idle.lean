import Lisplet.Proofs.Evaluate.Containment
import Lisplet.Proofs.Reader.CleanCut
import Lisplet.Proofs.Session.Pieces
import Lisplet.Proofs.Session.Requests

/-! When a session has nothing left to read.  A whole text, the end of the text that came in pieces,
and every error leave the reader clean and the stream empty, and a whole text is read as if nothing
had come before it. -/

namespace Lisplet

namespace Reader

variable {r r' : Reader}

/-- If nothing is missing where a complete text gave no other datum, nothing is left of it either. -/
theorem readChars_end {cs rest : List Char} (h : r.readChars true cs = ⟨r', rest, .ok none⟩)
    (hmissing : r'.missing? = none) (hfailed : r.failed = false) :
    r'.isClean = true ∧ rest = [] := by
  obtain ⟨hstring, hstack⟩ := missing?_eq_none_iff.1 hmissing
  obtain ⟨hpending, hrest⟩ : r'.pending = none ∧ rest = [] :=
    (readFrom_end (r := { r with pending := none }) rfl h).resolve_right fun hopen => hstring hopen.1
  exact ⟨isClean_iff.2 ⟨hstack, hpending, (readChars_failed h).trans hfailed⟩, hrest⟩

theorem readMany_end {cs : List Char} (h : (r.readMany true cs).fault? = none)
    (hmissing : (r.readMany true cs).reader.missing? = none) (hfailed : r.failed = false) :
    (r.readMany true cs).reader.isClean = true := by
  fun_induction readMany true r cs with
  | case1 r cs r₁ rest v hfirst =>
    rename_i ih
    exact ih h hmissing ((readChars_failed hfirst).trans hfailed)
  | case2 r cs r₁ rest hfirst => exact (readChars_end hfirst hmissing hfailed).1
  | case3 r cs r₁ rest fault hfirst => cases h

/-- A whole text that was read leaves nothing behind. -/
theorem isClean_of_readAll {text : String} {values : List Value} (hfailed : r.failed = false)
    (h : r.readAll text = (.ok values, r')) : r'.isClean = true := by
  simp only [readAll] at h
  split at h
  · cases h
  · next hfault =>
    obtain ⟨hvalues, rfl⟩ := Prod.mk.inj h
    refine readMany_end hfault ?_ hfailed
    cases hm : (r.readMany true text.toList).reader.missing? with
    | none => rfl
    | some fault => simp [finish, finishAt, hm, Except.map] at hvalues

end Reader

namespace Session

/-- The session is clean, and all text that came was read. -/
structure Idle (s : Session) : Prop where
  clean : s.isClean = true
  drained : s.stream.remaining = ""

theorem idle_resetReader (s : Session) : s.resetReader.Idle := ⟨rfl, rfl⟩

theorem resetReader_resetReader (s : Session) : s.resetReader.resetReader = s.resetReader := by
  simp [resetReader, Reader.reset, Stream.clear, Stream.moveTo]

/-! ### Text in pieces -/

/-- How a session that had not failed drains its stream.  After an error it is idle; otherwise it has
still not failed, and is idle if the text is complete and nothing is missing. -/
def DrainsTo (final : Bool) (s : Session) : Outcome Session Error (List Value) → Prop
  | .done _ t => s.reader.failed = false → t.reader.failed = false ∧
      (final = true → t.reader.missing? = none → t.Idle)
  | .failed _ t => t.Idle
  | .stopped _ => True

theorem drainsTo_drain (fuel : Nat) (final : Bool) (s : Session) :
    DrainsTo final s (s.drain fuel final) := by
  refine drain_induct ?unread ?nothing ?stopped ?unvalued ?datum s
  case unread => exact fun _ _ _ _ _ => idle_resetReader _
  case stopped => exact fun _ _ _ _ _ _ _ => trivial
  case unvalued => exact fun _ _ _ _ _ _ _ _ => idle_resetReader _
  case nothing =>
    intro s reader stream hread hfailed
    have hchars := Reader.read_eq_ok hread
    refine ⟨(Reader.readChars_failed hchars).trans hfailed, ?_⟩
    -- Only a quoted text that has not ended can be left of a complete text, and that is missing.
    rintro rfl hmissing
    obtain ⟨hclean, hrest⟩ := Reader.readChars_end hchars hmissing hfailed
    exact ⟨hclean, by rw [Stream.remaining, hrest]⟩
  case datum =>
    intro s expr reader stream v store rest hread heval hrest
    have hkept : reader.failed = s.reader.failed :=
      Reader.readChars_failed (Reader.read_eq_ok hread)
    cases rest with
    | done vs t => exact fun hfailed => hrest (hkept.trans hfailed)
    | failed e t => exact hrest
    | stopped why => trivial

theorem idle_of_feed_failed {fuel : Nat} {text : String} {s t : Session} {e : Error}
    (h : feed fuel text s = .failed e t) : t.Idle := by
  have hdrain := drainsTo_drain fuel false { s with stream := s.stream.push text }
  rw [show drain fuel false { s with stream := s.stream.push text } = .failed e t from h] at hdrain
  exact hdrain

theorem idle_flush (fuel : Nat) {s : Session} (hfailed : s.reader.failed = false) :
    (flush fuel s).Leaves Idle := by
  have hdrain := drainsTo_drain fuel true s
  unfold flush
  cases hrun : s.drain fuel true with
  | done vs t =>
    rw [hrun] at hdrain
    simp only
    split
    · next hfinish =>
      refine (hdrain hfailed).2 rfl ?_
      cases hm : t.reader.missing? with
      | none => rfl
      | some fault => simp [Reader.finish, Reader.finishAt, hm] at hfinish
    · exact idle_resetReader t
  | failed e t =>
    rw [hrun] at hdrain
    exact hdrain
  | stopped why => trivial

/-! ### Whole texts -/

/-- Evaluation touches neither the reader nor the stream. -/
theorem leaves_onStore {α : Type} {P : Session → Prop} (x : Eval α) (s : Session)
    (h : ∀ store, P { s with store }) : (onStore x s).Leaves P := by
  unfold onStore
  split
  · exact h _
  · exact h _
  · trivial

theorem idle_evalText (fuel : Nat) (text : String) (s : Session) :
    (evalText fuel text s).Leaves Idle := by
  unfold evalText
  simp only
  split
  · exact ⟨rfl, rfl⟩
  · next exprs reader hread =>
    have hclean := Reader.isClean_of_readAll (r := s.resetReader.reader) rfl hread
    exact leaves_onStore _ _ fun store => ⟨hclean, rfl⟩

/-- What a session has begun to read plays no part in reading a whole text. -/
theorem evalText_resetReader (fuel : Nat) (text : String) (s : Session) :
    evalText fuel text s.resetReader = evalText fuel text s := by
  simp only [evalText, resetReader_resetReader]

theorem store_of_read_error {fuel : Nat} {text : String} {s t : Session} {e : ReadError}
    (h : evalText fuel text s = .failed (.read e) t) : t.store = s.store := by
  simp only [evalText] at h
  split at h
  · obtain ⟨-, rfl⟩ := Outcome.failed.inj h
    rfl
  · simp only [onStore] at h
    split at h
    · cases h
    · obtain ⟨he, -⟩ := Outcome.failed.inj h
      cases he
    · cases h

/-! ### Sessions -/

theorem Idle.not_failed {s : Session} (h : s.Idle) : s.reader.failed = false :=
  (Reader.isClean_iff.1 h.clean).2.2

/-- Between two requests no token has been refused: each refusal ended in a reset. -/
theorem Reached.not_failed {allowed : Session → Factory → Prop} {vs : List Value} {s : Session}
    (h : Reached allowed vs s) : s.reader.failed = false := by
  refine Reached.induct (I := fun _ s => s.reader.failed = false) (fun _ _ => rfl)
    (fun _ _ _ hs _ => hs) ?_ h
  intro vs s fuel request hs
  cases request with
  | evalText text =>
    have hidle := idle_evalText fuel text s
    rw [run_evalText]
    cases hrun : evalText fuel text s with
    | done v t =>
      rw [hrun] at hidle
      exact hidle.not_failed
    | failed e t =>
      rw [hrun] at hidle
      exact hidle.not_failed
    | stopped why => trivial
  | feed text =>
    have hdrain := drainsTo_drain fuel false { s with stream := s.stream.push text }
    simp only [Request.run, feed]
    cases hrun : drain fuel false { s with stream := s.stream.push text } with
    | done ws t =>
      rw [hrun] at hdrain
      exact (hdrain hs).1
    | failed e t =>
      rw [hrun] at hdrain
      exact hdrain.not_failed
    | stopped why => trivial
  | flush =>
    have hidle := idle_flush fuel hs
    simp only [Request.run]
    cases hrun : flush fuel s with
    | done ws t =>
      rw [hrun] at hidle
      exact hidle.not_failed
    | failed e t =>
      rw [hrun] at hidle
      exact hidle.not_failed
    | stopped why => trivial
  | resetReader => rfl

/-- Whatever was asked of a session before: a whole text, the end of the text that came in pieces, a
reset, and an error in a piece leave it idle.  A whole text comes to the same end, in the same state,
as right after a reset, and one that cannot be read leaves all bindings and the printed text as they
were. -/
theorem idle_after_request {vs : List Value} {s : Session} (h : Reached (fun _ _ => True) vs s)
    (fuel : Nat) (text : String) :
    (evalText fuel text s).Leaves Idle ∧ (flush fuel s).Leaves Idle ∧ s.resetReader.Idle ∧
      (∀ e t, feed fuel text s = .failed e t → t.Idle) ∧
      evalText fuel text s = evalText fuel text s.resetReader ∧
      ∀ e t, evalText fuel text s = .failed (.read e) t → t.store = s.store :=
  ⟨idle_evalText fuel text s, idle_flush fuel h.not_failed, idle_resetReader s,
    fun _ _ => idle_of_feed_failed, (evalText_resetReader fuel text s).symm,
    fun _ _ => store_of_read_error⟩

/-- A session that has been fed a definition and the beginning of a list with a string in it. -/
theorem idle_after_request_pending :
    ∃ vs s, Reached (fun _ _ => True) vs s ∧ s.isClean = false ∧ s.stream.remaining = "\"y" ∧
      (evalText 9 "x )" s).Leaves Idle ∧ (flush 9 s).Leaves Idle ∧ s.resetReader.Idle ∧
      (∀ e t, feed 9 "x )" s = .failed e t → t.Idle) ∧
      evalText 9 "x )" s = evalText 9 "x )" s.resetReader ∧
      ∀ e t, evalText 9 "x )" s = .failed (.read e) t → t.store = s.store := by
  have hfed : ((feed 9 "(define x 1) (x \"y" standard).result?.any fun result =>
      !result.2.isClean && result.2.stream.remaining == "\"y") = true := by decide +kernel
  obtain ⟨⟨vs, s⟩, hresult, hstate⟩ := (Option.any_eq_true _ _).1 hfed
  have hreached : Reached (fun _ _ => True) vs s :=
    .done .standard 9 (.feed _) (Outcome.eq_done_of_result? hresult)
  obtain ⟨hclean, hrest⟩ := Bool.and_eq_true_iff.1 hstate
  exact ⟨vs, s, hreached, by simpa using hclean, by simpa using hrest,
    idle_after_request hreached 9 "x )"⟩

end Session

end Lisplet
