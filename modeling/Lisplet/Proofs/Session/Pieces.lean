import Lisplet.Proofs.Evaluate.Steps
import Lisplet.Proofs.Reader.Pieces
import Lisplet.Session

/-! Sessions that get a text in pieces.  Reading never looks at what evaluation does, so the datums
that the pieces complete are those of the whole text, and evaluating each as soon as it is complete
is evaluating all of them in order: `drain_of_reads` says so of one call, `feedPieces_of_reads` of
all. -/

namespace Lisplet

/-- The value of a computation that is done. -/
def Outcome.value? {σ ε α : Type} : Outcome σ ε α → Option α
  | .done a _ => some a
  | _ => none

theorem Outcome.eq_done_of_value? {σ ε α : Type} {o : Outcome σ ε α} {a : α}
    (h : o.value? = some a) : ∃ t, o = .done a t := by
  cases o with
  | done b t => exact ⟨t, by rw [Option.some.inj h]⟩
  | failed e t => cases h
  | stopped why => cases h

/-- The value and the state of a computation that is done. -/
def Outcome.result? {σ ε α : Type} : Outcome σ ε α → Option (α × σ)
  | .done a t => some (a, t)
  | _ => none

theorem Outcome.eq_done_of_result? {σ ε α : Type} {o : Outcome σ ε α} {result : α × σ}
    (h : o.result? = some result) : o = .done result.1 result.2 := by
  cases o with
  | done a t => rw [← Option.some.inj h]
  | failed e t => cases h
  | stopped why => cases h

/-! ### Evaluating in order -/

/-- The value of a body is the last of the values of its expressions. -/
theorem takeAll_of_evalBody {ev : Evaluation} {env : FrameId} {es : List Value} {v : Value}
    {s t : Store} (h : evalBody ev env es s = .done v t) :
    ∃ ws, takeAll (ev env) es s = .done ws t ∧ ws.getLast?.getD .nil = v := by
  induction es generalizing s with
  | nil =>
    obtain ⟨rfl, rfl⟩ := Outcome.done.inj h
    exact ⟨[], rfl, rfl⟩
  | cons e es ih =>
    cases es with
    | nil => exact ⟨[v], takeAll_cons h rfl, rfl⟩
    | cons e' es =>
      obtain ⟨w, mid, he, h⟩ := Run.bind_eq_done h
      obtain ⟨ws, hws, hlast⟩ := ih h
      obtain ⟨w', mid', ws, -, -, rfl⟩ := takeAll_cons_eq_done hws
      exact ⟨w :: w' :: ws, takeAll_cons he hws, hlast⟩

/-! ### Reading and evaluating -/

namespace Reader

/-- A stream that gives no datum and no error gives none at the first call. -/
theorem read_of_drain_nil {final : Bool} {r r' : Reader} {s s' : Stream}
    (h : r.drain final s = ⟨[], none, r', s'⟩) : r.read final s = (.ok none, r', s') := by
  rw [drain_eq] at h
  split at h
  · simp at h
  · next hread =>
    simp only [Drained.mk.injEq, true_and] at h
    rw [hread, h.1, h.2]
  · simp at h

/-- A stream that gives some datums gives the first of them at the first call. -/
theorem read_of_drain_cons {final : Bool} {r r' : Reader} {s s' : Stream} {v : Value}
    {values : List Value} {error? : Option ReadError}
    (h : r.drain final s = ⟨v :: values, error?, r', s'⟩) :
    ∃ r₁ s₁, r.read final s = (.ok (some v), r₁, s₁) ∧
      r₁.drain final s₁ = ⟨values, error?, r', s'⟩ := by
  rw [drain_eq] at h
  split at h
  · next w r₁ s₁ hread =>
    simp only [Drained.mk.injEq, List.cons.injEq] at h
    obtain ⟨⟨rfl, hvalues⟩, herror, hreader, hstream⟩ := h
    exact ⟨r₁, s₁, hread, by rw [← hvalues, ← herror, ← hreader, ← hstream]⟩
  · simp at h
  · simp at h

/-- A text that can be read as a whole can be read in pieces. -/
theorem readPieces_of_readAll {r r' : Reader} {pieces : List String} {values : List Value}
    (h : r.readAll (String.join pieces) = (.ok values, r')) :
    r.readPieces .empty pieces = ⟨values, .ok (), r'⟩ := by
  have hpush : Stream.empty.push (String.join pieces) = .ofText (String.join pieces) := rfl
  rw [readAll_eq_readPieces] at h
  rw [readPieces_eq, hpush]
  match hwhole : r.readPieces (.ofText (String.join pieces)) [] with
  | ⟨values', .error e, reader⟩ =>
    rw [hwhole] at h
    cases h
  | ⟨values', .ok _, reader⟩ =>
    rw [hwhole] at h
    obtain ⟨hvalues, rfl⟩ := Prod.mk.inj h
    obtain rfl := Except.ok.inj hvalues
    rfl

end Reader

namespace Session

theorem drain_eq (fuel : Nat) (final : Bool) (s : Session) :
    s.drain fuel final =
      match s.reader.read final s.stream with
      | (.error e, reader, stream) => .failed (.read e) { s with reader, stream }.resetReader
      | (.ok none, reader, stream) => .done [] { s with reader, stream }
      | (.ok (some expr), reader, stream) =>
        match Lisplet.eval s.keywords fuel s.global expr s.store with
        | .stopped why => .stopped why
        | .failed e store => .failed (.eval e) { s with reader, stream, store }.resetReader
        | .done v store =>
          match drain fuel final { s with reader, stream, store } with
          | .done vs s => .done (v :: vs) s
          | .failed e s => .failed e s
          | .stopped why => .stopped why := by
  rw [drain]
  split
  case _ h | _ h => rw [h]
  case _ expr reader stream h =>
    rewrite [h]
    rfl

/-- A session evaluates the datums that its stream gives, in order. -/
theorem drain_of_reads {fuel : Nat} {final : Bool} {s : Session} {values ws : List Value}
    {reader : Reader} {stream : Stream} {store : Store}
    (hreads : s.reader.drain final s.stream = ⟨values, none, reader, stream⟩)
    (hevals : takeAll (Lisplet.eval s.keywords fuel s.global) values s.store = .done ws store) :
    s.drain fuel final = .done ws { s with reader, stream, store } := by
  induction values generalizing s ws with
  | nil =>
    obtain ⟨rfl, rfl⟩ := Outcome.done.inj hevals
    rw [drain_eq, Reader.read_of_drain_nil hreads]
  | cons v values ih =>
    obtain ⟨r₁, s₁, hread, hrest⟩ := Reader.read_of_drain_cons hreads
    obtain ⟨w, mid, others, heval, hothers, rfl⟩ := takeAll_cons_eq_done hevals
    have hmore := @ih { s with reader := r₁, stream := s₁, store := mid } others hrest hothers
    rw [drain_eq, hread]
    simp only [heval, hmore]

/-- Feeds the pieces of a text to a session one after the other and then declares the end of the
text; the values of all datums come out. -/
def feedPieces (fuel : Nat) : List String → Run Session Error (List Value)
  | [] => flush fuel
  | piece :: pieces => do
    let vs ← feed fuel piece
    let ws ← feedPieces fuel pieces
    return vs ++ ws

/-- A session that is fed the pieces of a text that can be read evaluates the datums of the text in
order, wherever the pieces end. -/
theorem feedPieces_of_reads {fuel : Nat} {s : Session} {pieces : List String}
    {values ws : List Value} {reader : Reader} {store : Store}
    (hreads : s.reader.readPieces s.stream pieces = ⟨values, .ok (), reader⟩)
    (hevals : takeAll (Lisplet.eval s.keywords fuel s.global) values s.store = .done ws store) :
    ∃ stream, feedPieces fuel pieces s = .done ws { s with reader, stream, store } := by
  induction pieces generalizing s values ws with
  | nil =>
    simp only [Reader.readPieces] at hreads
    split at hreads
    · cases hreads
    · next others reader' stream hdrain =>
      obtain ⟨rfl, hfinish, rfl⟩ := Harvest.mk.inj hreads
      refine ⟨stream, ?_⟩
      simp only [feedPieces, flush, drain_of_reads hdrain hevals, hfinish]
  | cons piece pieces ih =>
    simp only [Reader.readPieces] at hreads
    split at hreads
    · cases hreads
    · next firsts reader' stream hdrain =>
      obtain ⟨rfl, houtcome, rfl⟩ := Harvest.mk.inj hreads
      obtain ⟨vs, mid, others, hfirsts, hothers, rfl⟩ := takeAll_append_eq_done hevals
      have hfeed : feed fuel piece s =
          .done vs { s with reader := reader', stream, store := mid } :=
        @drain_of_reads fuel false { s with stream := s.stream.push piece } _ _ _ _ _ hdrain hfirsts
      obtain ⟨stream', hpieces⟩ :=
        @ih { s with reader := reader', stream, store := mid } _ _
          (by simp only [← houtcome]) hothers
      refine ⟨stream', ?_⟩
      rw [feedPieces, Run.bind_done hfeed, Run.bind_done hpieces]
      rfl

/-- A text that a session reads and evaluates to the end is one that its reader reads, and the value
is the last of those of its datums. -/
theorem evalText_eq_done {fuel : Nat} {text : String} {s t : Session} {v : Value}
    (h : evalText fuel text s = .done v t) :
    ∃ datums reader ws store, s.resetReader.reader.readAll text = (.ok datums, reader) ∧
      takeAll (Lisplet.eval s.keywords fuel s.global) datums s.store = .done ws store ∧
      ws.getLast?.getD .nil = v ∧ t = { s.resetReader with reader, store } := by
  simp only [evalText] at h
  split at h
  · cases h
  · next datums reader hread =>
    simp only [onStore] at h
    split at h
    · next v' store hbody =>
      obtain ⟨rfl, rfl⟩ := Outcome.done.inj h
      obtain ⟨ws, hws, hlast⟩ := takeAll_of_evalBody hbody
      exact ⟨datums, reader, ws, store, hread, hws, hlast, rfl⟩
    · cases h
    · cases h

/-- A new session to which some factories have been added. -/
def withFactories (factories : List Factory) : Session := factories.foldl register standard

theorem withFactories_eq (factories : List Factory) :
    withFactories factories = { standard with reader := { standard.reader with factories } } := by
  have hfold : ∀ (s : Session), factories.foldl register s =
      { s with reader := { s.reader with factories := s.reader.factories ++ factories } } := by
    induction factories with
    | nil => simp
    | cons f factories ih => simp [ih, register, Reader.register]
  exact hfold standard

/-- If a new session with whatever factories evaluates a text as a whole, then another that is fed
the text in pieces, however it is cut, and told that it has ended makes no error.  It gives a value
for each datum of the text, of which the last is the value of the whole, `nil` if there is none, and
nothing but the place in its stream tells it from the first session afterwards: it has printed the
same text and binds the same names to the same values. -/
theorem feedPieces_of_evalText {factories : List Factory} {fuel : Nat} {pieces : List String}
    {v : Value} {t : Session}
    (h : evalText fuel (String.join pieces) (withFactories factories) = .done v t) :
    ∃ datums vs u,
      ((withFactories factories).reader.readAll (String.join pieces)).1 = .ok datums ∧
      feedPieces fuel pieces (withFactories factories) = .done vs u ∧
      vs.length = datums.length ∧ vs.getLast?.getD .nil = v ∧
      u = { t with stream := u.stream } := by
  obtain ⟨datums, reader, vs, store, hread, hevals, hlast, rfl⟩ := evalText_eq_done h
  have hreset : (withFactories factories).resetReader = withFactories factories := by
    rw [withFactories_eq]
    rfl
  have hempty : (withFactories factories).stream = .empty := by
    rw [withFactories_eq]
    rfl
  rw [hreset] at hread
  have hpieces : (withFactories factories).reader.readPieces
      (withFactories factories).stream pieces = ⟨datums, .ok (), reader⟩ := by
    rw [hempty]
    exact Reader.readPieces_of_readAll hread
  obtain ⟨stream, hfeed⟩ := feedPieces_of_reads hpieces hevals
  refine ⟨datums, vs, _, by rw [hread], hfeed, length_of_takeAll hevals, hlast, ?_⟩
  rw [hreset]

/-- A text cut inside an atom, a string and a comment, in which a factory claims an atom. -/
theorem feedPieces_of_evalText_cut :
    let pieces := ["(print \"a", "b\") (defi", "ne x '(#y)) ; l", "ast\nx"]
    let s := withFactories [Factory.ofLead "#" "tag"]
    ∃ v t datums vs u, evalText 9 (String.join pieces) s = .done v t ∧
      (s.reader.readAll (String.join pieces)).1 = .ok datums ∧
      feedPieces 9 pieces s = .done vs u ∧ vs.length = datums.length ∧
      vs.getLast?.getD .nil = v ∧ u = { t with stream := u.stream } ∧ v.inspect = "(#<tag y>)" := by
  intro pieces s
  have hrun : (evalText 9 (String.join pieces) s).value?.map Value.inspect = some "(#<tag y>)" := by
    decide +kernel
  obtain ⟨v, hvalue, hinspect⟩ := Option.map_eq_some_iff.1 hrun
  obtain ⟨t, hdone⟩ := Outcome.eq_done_of_value? hvalue
  obtain ⟨datums, vs, u, hread, hfeed, hlength, hlast, hu⟩ := feedPieces_of_evalText hdone
  exact ⟨v, t, datums, vs, u, hdone, hread, hfeed, hlength, hlast, hu, hinspect⟩

end Session

end Lisplet
