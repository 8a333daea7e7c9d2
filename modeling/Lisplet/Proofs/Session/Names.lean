import Lisplet.Proofs.Evaluate.Containment
import Lisplet.Proofs.Reader.Words
import Lisplet.Proofs.Session.Pieces
import Lisplet.Proofs.Session.Requests

/-! The names in the symbol table of a session.  Whatever is asked of a session, its table gains the
names among the tokens that the request takes from its text, up to the place where reading stops, and
nothing else: not what is held back for later, not what is dropped, and nothing by evaluation. -/

namespace Lisplet

theorem Reader.Adds.reset {r r' : Reader} {ts : List Token} (h : r.Adds ts r') :
    r.Adds ts r'.reset := ⟨h.factories, h.names, h.nodup⟩

theorem Reader.read_length_le {final : Bool} {r r' : Reader} {s s' : Stream}
    {answer : Except ReadError (Option Value)} (h : r.read final s = (answer, r', s')) :
    s'.rest.length ≤ s.rest.length := by
  have hsuffix : (r.readChars final s.rest).rest <:+ s.rest := readFrom_suffix _ _ _
  simp only [read] at h
  split at h
  · obtain ⟨-, -, rfl⟩ := by simpa only [Prod.mk.injEq] using h
    exact hsuffix.length_le
  · obtain ⟨-, -, rfl⟩ := by simpa only [Prod.mk.injEq] using h
    exact hsuffix.length_le

namespace Session

open Token

/-! ### Where reading stops -/

/-- What is left of the stream when a session that drains it stops reading: at an error, after an
expression whose evaluation fails, or for want of text. -/
def unread (fuel : Nat) (final : Bool) (s : Session) : List Char :=
  match _ : s.reader.read final s.stream with
  | (.error _, _, stream) => stream.rest
  | (.ok none, _, stream) => stream.rest
  | (.ok (some expr), reader, stream) =>
    match Lisplet.eval s.keywords fuel s.global expr s.store with
    | .done _ store => unread fuel final { s with reader, stream, store }
    | _ => stream.rest
termination_by s.stream.rest.length
decreasing_by exact Reader.read_length (by assumption)

theorem unread_eq (fuel : Nat) (final : Bool) (s : Session) :
    unread fuel final s =
      match s.reader.read final s.stream with
      | (.error _, _, stream) => stream.rest
      | (.ok none, _, stream) => stream.rest
      | (.ok (some expr), reader, stream) =>
        match Lisplet.eval s.keywords fuel s.global expr s.store with
        | .done _ store => unread fuel final { s with reader, stream, store }
        | _ => stream.rest := by
  rw [unread]
  split
  case _ h | _ h | _ h => rw [h]

theorem unread_length (fuel : Nat) (final : Bool) (s : Session) :
    (unread fuel final s).length ≤ s.stream.rest.length := by
  fun_induction unread fuel final s with
  | case1 s e reader stream hread => exact Reader.read_length_le hread
  | case2 s reader stream hread => exact Reader.read_length_le hread
  | case3 s expr reader stream hread v store heval ih =>
    exact Nat.le_trans ih (Reader.read_length_le hread)
  | case4 s expr reader stream hread heval => exact Reader.read_length_le hread

/-- The tokens that a request takes from its text. -/
def Request.tokens (fuel : Nat) (s : Session) : Request → List Token
  | .evalText text => upTo text.toList (s.resetReader.reader.readMany true text.toList).rest
  | .feed text => upTo (s.stream.push text).rest
      (unread fuel false { s with stream := s.stream.push text })
  | .flush => upTo s.stream.rest (unread fuel true s)
  | .resetReader => []

/-! ### What a request adds -/

theorem drain_adds (fuel : Nat) (final : Bool) (s : Session) :
    (s.drain fuel final).Leaves fun t =>
      s.reader.Adds (upTo s.stream.rest (unread fuel final s)) t.reader := by
  refine drain_induct (P := fun s o => o.Leaves fun t =>
    s.reader.Adds (upTo s.stream.rest (unread fuel final s)) t.reader)
    ?unread ?nothing ?stopped ?unvalued ?datum s
  case unread =>
    intro s e reader stream hread
    rw [unread_eq, hread]
    exact (Reader.read_adds hread).reset
  case nothing =>
    intro s reader stream hread
    rw [unread_eq, hread]
    exact Reader.read_adds hread
  case stopped => exact fun _ _ _ _ _ _ _ => trivial
  case unvalued =>
    intro s expr reader stream e store hread heval
    simp only [unread_eq fuel final s, hread, heval]
    exact (Reader.read_adds hread).reset
  case datum =>
    intro s expr reader stream v store rest hread heval hrest
    -- The tokens of the datum come before those of the stream that is left.
    have hadds : ∀ t : Session,
        reader.Adds (upTo stream.rest (unread fuel final { s with reader, stream, store })) t.reader →
        s.reader.Adds (upTo s.stream.rest (unread fuel final s)) t.reader := by
      intro t ht
      have hunread : unread fuel final s = unread fuel final { s with reader, stream, store } := by
        rw [unread_eq fuel final s, hread]
        simp only [heval]
      rw [hunread, Reader.read_upTo hread (unread_length fuel final _)]
      exact (Reader.read_adds hread).trans ht
    cases rest with
    | done vs t => exact hadds t hrest
    | failed e t => exact hadds t hrest
    | stopped why => trivial

theorem onStore_reader {α : Type} (x : Eval α) (s : Session) :
    (onStore x s).Leaves fun t => t.reader = s.reader := by
  unfold onStore
  split
  · rfl
  · rfl
  · trivial

theorem evalText_adds (fuel : Nat) (text : String) (s : Session) :
    (evalText fuel text s).Leaves fun t =>
      s.reader.Adds ((Request.evalText text).tokens fuel s) t.reader := by
  have hreset : s.reader.Adds [] s.resetReader.reader := Reader.adds_of_table rfl rfl rfl
  unfold evalText
  simp only
  split
  · next e reader hread => exact (hreset.trans (Reader.readAll_adds hread)).reset
  · next exprs reader hread =>
    refine (onStore_reader _ _).imp fun t ht => ?_
    rw [ht]
    exact hreset.trans (Reader.readAll_adds hread)

theorem flush_adds (fuel : Nat) (s : Session) :
    (flush fuel s).Leaves fun t => s.reader.Adds (Request.flush.tokens fuel s) t.reader := by
  have hdrain := drain_adds fuel true s
  unfold flush
  cases hrun : s.drain fuel true with
  | done vs t =>
    rw [hrun] at hdrain
    simp only
    split
    · exact hdrain
    · exact Reader.Adds.reset hdrain
  | failed e t =>
    rw [hrun] at hdrain
    exact hdrain
  | stopped why => trivial

theorem request_adds (fuel : Nat) (request : Request) (s : Session) :
    (request.run fuel s).Leaves fun t => s.reader.Adds (request.tokens fuel s) t.reader := by
  cases request with
  | evalText text =>
    have hadds := evalText_adds fuel text s
    rw [run_evalText]
    cases hrun : evalText fuel text s with
    | done v t => rw [hrun] at hadds; exact hadds
    | failed e t => rw [hrun] at hadds; exact hadds
    | stopped why => trivial
  | feed text => exact drain_adds fuel false { s with stream := s.stream.push text }
  | flush => exact flush_adds fuel s
  | resetReader => exact Reader.adds_of_table rfl rfl rfl

/-! ### All states -/

/-- The states that a new session can get into, with the names among the tokens that it has taken
from the texts until then.  Factories may be added at any time. -/
inductive Recorded : List String → Session → Prop
  | start (hosts : Nat → Host) : Recorded [] (.standardWith hosts)
  | register {ws : List String} {s : Session} (before : Recorded ws s) (f : Factory) :
      Recorded ws (s.register f)
  | done {ws : List String} {vs : List Value} {s t : Session} (before : Recorded ws s) (fuel : Nat)
      (request : Request) (run : request.run fuel s = .done vs t) :
      Recorded (ws ++ s.reader.words (request.tokens fuel s)) t
  | failed {ws : List String} {s t : Session} {e : Error} (before : Recorded ws s) (fuel : Nat)
      (request : Request) (run : request.run fuel s = .failed e t) :
      Recorded (ws ++ s.reader.words (request.tokens fuel s)) t

theorem recorded_standard : Recorded [] .standard := .start _

/-- The names that a table starts with: those of the reserved symbols and of the symbol for true. -/
def initialNames : List String := QuoteKind.all.map QuoteKind.name ++ ["t"]

/-- The table of the session has the names that it started with and the given ones, each once. -/
structure Named (ws : List String) (s : Session) : Prop where
  names : ∀ name, name ∈ s.reader.table.names ↔ name ∈ initialNames ∨ name ∈ ws
  nodup : s.reader.table.names.Nodup

theorem Named.adds {ws : List String} {s t : Session} {ts : List Token} (h : s.Named ws)
    (hadds : s.reader.Adds ts t.reader) : t.Named (ws ++ s.reader.words ts) := by
  refine ⟨fun name => ?_, hadds.nodup h.nodup⟩
  rw [hadds.names, h.names, List.mem_append, or_assoc]

theorem Recorded.named {ws : List String} {s : Session} (h : Recorded ws s) : s.Named ws := by
  induction h with
  | start hosts =>
    have hnames : (standardWith hosts).reader.table.names = initialNames := by
      rw [show (standardWith hosts).reader = standard.reader from rfl]
      decide +kernel
    refine ⟨fun name => by simp [hnames], ?_⟩
    rw [hnames]
    decide +kernel
  | register _ f ih => exact ⟨ih.names, ih.nodup⟩
  | @done _ _ s _ _ fuel request run ih =>
    have hadds := request_adds fuel request s
    rw [run] at hadds
    exact ih.adds hadds
  | @failed _ s _ _ _ fuel request run ih =>
    have hadds := request_adds fuel request s
    rw [run] at hadds
    exact ih.adds hadds

/-- Symbol tables have exactly the names that were given to them.  The table of a session has, in
every state, the names of the reserved symbols, the name `t`, and the atoms among the tokens taken
from the texts that no factory claims and that are no numbers, each once; evaluation changes nothing
about it.  And whatever is asked of any number of tables, two names that are interned get the same
symbol exactly if they are the same in the same table, each table counts the different names that
were interned there, and leaving out what is only looked up makes no difference to the tables. -/
theorem names_of_recorded {ws : List String} {s : Session} (h : Recorded ws s)
    (calls : List SymbolTable.Call) :
    ((∀ name, name ∈ s.reader.table.names ↔ name ∈ initialNames ∨ name ∈ ws) ∧
      s.reader.table.names.Nodup ∧
      ∀ fuel expr, (Session.eval fuel expr s).Leaves fun t => t.reader.table = s.reader.table) ∧
    (∀ (p q i j : Nat) (a b : String), calls[p]? = some (.intern i a) →
      calls[q]? = some (.intern j b) →
      ∃ x y, (SymbolTable.runAll .empty calls).1[p]? = some (some x) ∧
        (SymbolTable.runAll .empty calls).1[q]? = some (some y) ∧
        (x.same y = true ↔ i = j ∧ a = b)) ∧
    (∀ i, ((SymbolTable.runAll .empty calls).2 i).count =
      (calls.filterMap (SymbolTable.Call.interned? i)).toFinset.card) ∧
    (SymbolTable.runAll .empty (calls.filter SymbolTable.Call.interns)).2 =
      (SymbolTable.runAll .empty calls).2 := by
  have hnamed := h.named
  refine ⟨⟨hnamed.names, hnamed.nodup, fun fuel expr => ?_⟩, ?_, SymbolTable.count_runAll calls,
    SymbolTable.runAll_interns .empty calls⟩
  · exact (onStore_reader _ s).imp fun t ht => by rw [ht]
  · exact fun p q i j a b hp hq => SymbolTable.same_runAll_iff hp hq

/-- The text `'abc 'de ) fg` in two pieces, the first of which ends inside `abc`: reading fails at the
parenthesis, and what is behind it is dropped. -/
theorem names_of_recorded_refused :
    let calls := [.intern 0 "a", .lookup 1 "a", .intern 1 "a", .intern 0 "a"]
    ∃ s, Recorded ["abc", "de"] s ∧
      (∀ name, name ∈ s.reader.table.names ↔ name ∈ initialNames ∨ name ∈ ["abc", "de"]) ∧
      (∃ x y, (SymbolTable.runAll .empty calls).1[0]? = some (some x) ∧
        (SymbolTable.runAll .empty calls).1[2]? = some (some y) ∧
        (x.same y = true ↔ 0 = 1 ∧ "a" = "a")) ∧
      ((SymbolTable.runAll .empty calls).2 0).count = 1 := by
  intro calls
  have hfirst : ((feed 9 "'ab" standard).result?.any fun first =>
      standard.reader.words ((Request.feed "'ab").tokens 9 standard) == [] &&
      first.2.reader.words ((Request.feed "c 'de ) fg").tokens 9 first.2) == ["abc", "de"] &&
      match feed 9 "c 'de ) fg" first.2 with
      | .failed _ _ => true
      | _ => false) = true := by
    decide +kernel
  obtain ⟨⟨vs, s⟩, hresult, hstate⟩ := (Option.any_eq_true _ _).1 hfirst
  obtain ⟨hwords, hfailed⟩ := Bool.and_eq_true_iff.1 hstate
  obtain ⟨hnone, hboth⟩ := Bool.and_eq_true_iff.1 hwords
  cases hrun : feed 9 "c 'de ) fg" s with
  | failed e t =>
    have hrecorded : Recorded ["abc", "de"] t := by
      have hpieces := Recorded.failed
        (.done recorded_standard 9 (.feed "'ab") (Outcome.eq_done_of_result? hresult)) 9
        (.feed "c 'de ) fg") hrun
      rwa [eq_of_beq hnone, eq_of_beq hboth] at hpieces
    obtain ⟨⟨hnames, -, -⟩, hsame, hcount, -⟩ := names_of_recorded hrecorded calls
    exact ⟨t, hrecorded, hnames, hsame 0 2 0 1 "a" "a" rfl rfl, (hcount 0).trans (by decide)⟩
  | done vs t => simp [hrun] at hfailed
  | stopped why => simp [hrun] at hfailed

end Session

end Lisplet
