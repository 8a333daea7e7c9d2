import Lisplet.Proofs.Evaluate.Logic
import Lisplet.Session

/-! What a host asks of a session, and the states that this leads to.  `Reached` keeps the values that
came out on the way, and `Reached.induct` is the induction over what was asked; `drain_induct` is the
induction over the datums that a stream gives. -/

namespace Lisplet

/-- If the computation ended, the property holds of the values that it returned, of which there are
none if it failed, and of the state. -/
def Outcome.Returns {σ ε α : Type} (P : List α → σ → Prop) : Outcome σ ε (List α) → Prop
  | .done vs t => P vs t
  | .failed _ t => P [] t
  | .stopped _ => True

/-- The same end with another value. -/
def Outcome.map {σ ε α β : Type} (f : α → β) : Outcome σ ε α → Outcome σ ε β
  | .done a s => .done (f a) s
  | .failed e s => .failed e s
  | .stopped why => .stopped why

namespace Session

/-- What holds of how a session drains its stream, by what the stream gives next: an error, nothing, or
a datum, whose evaluation may fail or be stopped. -/
theorem drain_induct {fuel : Nat} {final : Bool}
    {P : Session → Outcome Session Error (List Value) → Prop}
    (unread : ∀ s e reader stream, s.reader.read final s.stream = (.error e, reader, stream) →
      P s (.failed (.read e) { s with reader, stream }.resetReader))
    (nothing : ∀ s reader stream, s.reader.read final s.stream = (.ok none, reader, stream) →
      P s (.done [] { s with reader, stream }))
    (stopped : ∀ s expr reader stream why,
      s.reader.read final s.stream = (.ok (some expr), reader, stream) →
      Lisplet.eval s.keywords fuel s.global expr s.store = .stopped why → P s (.stopped why))
    (unvalued : ∀ s expr reader stream e store,
      s.reader.read final s.stream = (.ok (some expr), reader, stream) →
      Lisplet.eval s.keywords fuel s.global expr s.store = .failed e store →
      P s (.failed (.eval e) { s with reader, stream, store }.resetReader))
    (datum : ∀ s expr reader stream v store rest,
      s.reader.read final s.stream = (.ok (some expr), reader, stream) →
      Lisplet.eval s.keywords fuel s.global expr s.store = .done v store →
      P { s with reader, stream, store } rest → P s (rest.map (v :: ·)))
    (s : Session) : P s (s.drain fuel final) := by
  fun_induction drain fuel final s with
  | case1 s e reader stream hread => exact unread s e reader stream hread
  | case2 s reader stream hread => exact nothing s reader stream hread
  | case3 s expr reader stream hread why heval =>
    exact stopped s expr reader stream why hread heval
  | case4 s expr reader stream hread e store heval =>
    exact unvalued s expr reader stream e store hread heval
  | case5 s expr reader stream hread v store heval vs t hrest ih
  | case6 s expr reader stream hread v store heval e t hrest ih
  | case7 s expr reader stream hread v store heval why hrest ih =>
    rw [hrest] at ih
    exact datum s expr reader stream v store _ hread heval ih

/-- What a host can ask for that may fail. -/
inductive Request where
  | evalText (text : String)
  | feed (text : String)
  | flush
  | resetReader

/-- The values that a request returns. -/
def Request.run (fuel : Nat) : Request → Run Session Error (List Value)
  | .evalText text => do
    let v ← Session.evalText fuel text
    return [v]
  | .feed text => Session.feed fuel text
  | .flush => Session.flush fuel
  | .resetReader => fun s => .done [] s.resetReader

/-- The states that a new session can get into, with the values that it has returned until then.  The
procedures of the host program are plain, and a factory may be added at any time if it is `allowed` in
the state. -/
inductive Reached (allowed : Session → Factory → Prop) : List Value → Session → Prop
  | start (hosts : Nat → Host) (plain : (standardWith hosts).keywords.Plain) :
      Reached allowed [] (.standardWith hosts)
  | register {vs : List Value} {s : Session} (before : Reached allowed vs s) (f : Factory)
      (may : allowed s f) : Reached allowed vs (s.register f)
  | done {vs ws : List Value} {s t : Session} (before : Reached allowed vs s) (fuel : Nat)
      (request : Request) (run : request.run fuel s = .done ws t) : Reached allowed (vs ++ ws) t
  | failed {vs : List Value} {s t : Session} {e : Error} (before : Reached allowed vs s)
      (fuel : Nat) (request : Request) (run : request.run fuel s = .failed e t) :
      Reached allowed vs t

theorem Reached.standard {allowed : Session → Factory → Prop} : Reached allowed [] .standard :=
  .start _ fun _ => Host.plain_echo _

theorem Reached.induct {allowed : Session → Factory → Prop} {I : List Value → Session → Prop}
    (start : ∀ hosts, (standardWith hosts).keywords.Plain → I [] (.standardWith hosts))
    (register : ∀ vs s f, I vs s → allowed s f → I vs (s.register f))
    (step : ∀ vs s fuel request, I vs s →
      (Request.run fuel request s).Returns fun ws t => I (vs ++ ws) t)
    {vs : List Value} {s : Session} (h : Reached allowed vs s) : I vs s := by
  induction h with
  | start hosts plain => exact start hosts plain
  | register _ f may ih => exact register _ _ f ih may
  | done _ fuel request run ih =>
    have hstep := step _ _ fuel request ih
    rw [run] at hstep
    exact hstep
  | @failed vs _ _ _ _ fuel request run ih =>
    have hstep := step _ _ fuel request ih
    rw [run] at hstep
    exact List.append_nil vs ▸ hstep

/-- A request for the value of a text returns that value alone. -/
theorem run_evalText (fuel : Nat) (text : String) (s : Session) :
    (Request.evalText text).run fuel s = (evalText fuel text s).map ([·]) := by
  simp only [Request.run]
  cases hrun : Session.evalText fuel text s with
  | done v t =>
    rw [Run.bind_done hrun]
    rfl
  | failed e t =>
    rw [Run.bind_failed hrun]
    rfl
  | stopped why =>
    rw [Run.bind_stopped hrun]
    rfl

end Session

end Lisplet
