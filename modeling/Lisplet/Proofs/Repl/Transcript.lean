import Lisplet.Proofs.Evaluate.Printing
import Lisplet.Proofs.Reader.Lines
import Lisplet.Proofs.Session.Pieces
import Lisplet.Repl

/-! The conversation on a text that can be read and evaluated.  The user gets, line by line, what
the evaluation of the datums that the line completes prints and then their values, as long as each
blank line, which the conversation passes over, stands outside the quoted texts and has nothing but
spaces in it.  A blank line inside a quoted text is lost. -/

namespace Lisplet

namespace Reader

/-- The datums that each of the lines completes when they are pushed onto a stream one after the
other. -/
def drainLines (r : Reader) (s : Stream) : List (List Char) → List (List Value)
  | [] => []
  | line :: lines =>
    let drained := r.drain false (s.push (lineText line))
    drained.values :: drained.reader.drainLines drained.stream lines

theorem drain_lineText {r : Reader} (s : Stream) (line : List Char)
    (h : (r.readMany false (s.rest ++ (line ++ ['\n']))).fault? = none) :
    r.drain false (s.push (lineText line)) =
      let datums := r.readMany false (s.rest ++ (line ++ ['\n']))
      ⟨datums.values, none, datums.reader, (s.push (lineText line)).moveTo datums.rest⟩ := by
  rw [drain_eq_readMany, push_lineText_rest]
  simp only [h, Option.map_none]

theorem readPieces_lineText {r reader : Reader} {s : Stream} {line : List Char}
    {pieces : List String} {values : List Value}
    (h : r.readPieces s (lineText line :: pieces) = ⟨values, .ok (), reader⟩) :
    let datums := r.readMany false (s.rest ++ (line ++ ['\n']))
    datums.fault? = none ∧ ∃ others, values = datums.values ++ others ∧
      datums.reader.readPieces ((s.push (lineText line)).moveTo datums.rest) pieces =
        ⟨others, .ok (), reader⟩ := by
  have hdrain := drain_eq_readMany false r (s.push (lineText line))
  rw [push_lineText_rest] at hdrain
  simp only [readPieces, hdrain] at h
  split at h
  · cases h
  · next firsts r' stream hfirsts =>
    simp only [Drained.mk.injEq, Option.map_eq_none_iff] at hfirsts
    obtain ⟨rfl, hfault, rfl, rfl⟩ := hfirsts
    obtain ⟨rfl, houtcome, rfl⟩ := Harvest.mk.inj h
    exact ⟨hfault, _, rfl, by simp only [← houtcome]⟩

theorem readPieces_lines {r r' : Reader} (hr : r.stack = []) (hp : r.pending = none)
    {text : String} {values : List Value} (hreturn : '\r' ∉ text.toList)
    (h : r.readAll text = (.ok values, r')) :
    r.readPieces .empty ((Text.lines text.toList).map lineText) = ⟨values, .ok (), r'⟩ := by
  apply readPieces_of_readAll
  -- The lines may end with a newline that the text does not have.
  rw [join_lineText]
  rcases Text.flatMap_lines hreturn with hlines | hlines
  · rw [hlines, String.ofList_toList]
    exact h
  · rw [hlines, String.ofList_append, String.ofList_toList]
    exact readAll_newline hr hp h

end Reader

namespace Repl

open Token

/-- Each blank line among those that follow the text `before` has nothing but spaces in it and does
not stand inside a quoted text. -/
def IdleBlanks (before : List Char) : List (List Char) → Prop
  | [] => True
  | line :: lines =>
    (Text.trim line = [] → line.all isSpace = true ∧ (sequence before).open? = none) ∧
      IdleBlanks (before ++ (line ++ ['\n'])) lines

instance (before : List Char) (lines : List (List Char)) : Decidable (IdleBlanks before lines) :=
  match lines with
  | [] => inferInstanceAs (Decidable True)
  | line :: lines =>
    have := instDecidableIdleBlanks (before ++ (line ++ ['\n'])) lines
    inferInstanceAs (Decidable (_ ∧ _))

theorem IdleBlanks.congr {cs ds : List Char} {lines : List (List Char)}
    (h : ∀ more, (sequence (ds ++ more)).open? = (sequence (cs ++ more)).open?)
    (hidle : IdleBlanks cs lines) : IdleBlanks ds lines := by
  induction lines generalizing cs ds with
  | nil => trivial
  | cons line lines ih =>
    obtain ⟨hline, hlines⟩ := hidle
    refine ⟨fun htrim => ?_, ih (fun more => ?_) hlines⟩
    · have hend := h []
      rw [List.append_nil, List.append_nil] at hend
      rw [hend]
      exact hline htrim
    · rw [List.append_assoc, List.append_assoc cs]
      exact h _

/-- The output for expressions that stand in groups, each of which ends where a line does: what the
evaluation of a group prints, and then its values. -/
def echo (take : Value → Eval Value) (s : Store) : List (List Value) → Option String
  | [] => some ""
  | group :: groups =>
    match takeAll take group s with
    | .done vs t =>
      (echo take { t with printed := "" } groups).map
        (t.printed ++ unlines (vs.map Value.inspect) ++ ·)
    | _ => none

/-- What was printed before does not matter to the evaluation of the others. -/
theorem takeAll_after_printed {k : Keywords} (hk : k.Plain) {fuel : Nat} {env : FrameId}
    {es ws : List Value} {s t : Store} (h : takeAll (eval k fuel env) es s = .done ws t) :
    ∃ t', takeAll (eval k fuel env) es { s with printed := "" } = .done ws t' := by
  have hprinted := takeAll_printedBefore hk fuel env s.printed es { s with printed := "" }
  have hs : Store.printedBefore { s with printed := "" } s.printed = s := by
    simp [Store.printedBefore]
  rw [hs, h] at hprinted
  cases hrun : takeAll (eval k fuel env) es { s with printed := "" } with
  | done vs t' =>
    rw [hrun] at hprinted
    obtain ⟨rfl, -⟩ := Outcome.done.inj hprinted
    exact ⟨t', rfl⟩
  | failed e t' => rw [hrun] at hprinted; cases hprinted
  | stopped why => rw [hrun] at hprinted; cases hprinted

theorem reply_of_fed {fuel : Nat} {s : Session} {line : List Char} {values ws : List Value}
    {reader : Reader} {stream : Stream} {store : Store} (htrim : Text.trim line ≠ [])
    (hcommand : Command.ofText? (String.ofList (Text.trim line)) = none)
    (hreads : s.reader.drain false (s.stream.push (Reader.lineText line)) =
      ⟨values, none, reader, stream⟩)
    (hevals : takeAll (eval s.keywords fuel s.global) values s.store = .done ws store) :
    reply fuel s line = .goOn (store.printed ++ unlines (ws.map Value.inspect))
      { s with reader, stream, store := { store with printed := "" } } := by
  have hfeed : Session.feed fuel (Reader.lineText line) s =
      .done ws { s with reader, stream, store } :=
    @Session.drain_of_reads fuel false { s with stream := s.stream.push (Reader.lineText line) }
      _ _ _ _ _ hreads hevals
  have hwords : (Text.trim line).isEmpty = false := by simpa using htrim
  simp only [reply, hwords, Bool.false_eq_true, if_false, hcommand, ite_self, feedLine]
  rw [← Reader.lineText, hfeed]
  rfl

/-- The reply to a line, be it fed to the session or passed over: the session is then where reading
the line leads, and the user has what the datums that the line completes print and their values. -/
theorem reply_of_reads {fuel : Nat} {s : Session} {line : List Char} {datums : Datums}
    {ws : List Value} {store : Store} (hbetween : s.reader.BetweenLines s.stream.rest)
    (hprinted : s.store.printed = "")
    (hcommand : Command.ofText? (String.ofList (Text.trim line)) = none)
    (hblank : Text.trim line = [] →
      line.all isSpace = true ∧ (sequence s.stream.rest).open? = none)
    (hdatums : s.reader.readMany false (s.stream.rest ++ (line ++ ['\n'])) = datums)
    (hfault : datums.fault? = none)
    (hevals : takeAll (eval s.keywords fuel s.global) datums.values s.store = .done ws store) :
    ∃ stream, stream.rest = datums.rest ∧
      reply fuel s line = .goOn (store.printed ++ unlines (ws.map Value.inspect))
        { s with reader := datums.reader, stream, store := { store with printed := "" } } := by
  by_cases htrim : Text.trim line = []
  · obtain ⟨hspaces, hopen⟩ := hblank htrim
    obtain ⟨hpending, hnil⟩ := hbetween.done hopen
    -- The line would have changed nothing, so it does not matter that it is passed over.
    rw [hnil, List.nil_append, Reader.readMany_spaces hpending hspaces] at hdatums
    subst hdatums
    obtain ⟨rfl, rfl⟩ := Outcome.done.inj hevals
    refine ⟨s.stream, hnil, ?_⟩
    rw [show reply fuel s line = .goOn "" s by simp [reply, htrim], hprinted,
      show { s.store with printed := "" } = s.store by rw [← hprinted]]
    rfl
  · have hdrain := Reader.drain_lineText s.stream line (hdatums ▸ hfault)
    rw [hdatums] at hdrain
    exact ⟨_, rfl, reply_of_fed htrim hcommand hdrain hevals⟩

/-- The replies to lines that complete datums which can all be evaluated.  The streams of the
session and of the reader differ in the blank lines that the session was not fed. -/
theorem replies_of_reads {fuel : Nat} {s : Session} {stream : Stream} {lines : List (List Char)}
    {values ws : List Value} {reader : Reader} {store : Store} (hk : s.keywords.Plain)
    (hrest : s.stream.rest = stream.rest) (hbetween : s.reader.BetweenLines s.stream.rest)
    (hprinted : s.store.printed = "")
    (hcommand : ∀ line ∈ lines, Command.ofText? (String.ofList (Text.trim line)) = none)
    (hidle : IdleBlanks s.stream.rest lines)
    (hreads : s.reader.readPieces stream (lines.map Reader.lineText) = ⟨values, .ok (), reader⟩)
    (hevals : takeAll (eval s.keywords fuel s.global) values s.store = .done ws store) :
    (s.reader.drainLines stream lines).flatten = values ∧
      ∃ output, echo (eval s.keywords fuel s.global) s.store (s.reader.drainLines stream lines) =
          some output ∧
        replies fuel s lines = some (output ++ unlines [farewell]) := by
  induction lines generalizing s stream values ws store with
  | nil =>
    rw [hrest] at hbetween
    have hnil := hbetween.values_eq_nil
    rw [List.map_nil] at hreads
    rw [hreads] at hnil
    refine ⟨hnil.symm, "", rfl, ?_⟩
    simp [replies]
  | cons line lines ih =>
    obtain ⟨hline, hlines⟩ := List.forall_mem_cons.1 hcommand
    obtain ⟨hblank, hidle⟩ := hidle
    obtain ⟨hfault, others, rfl, hothers⟩ := Reader.readPieces_lineText hreads
    have hdrain := Reader.drain_lineText stream line hfault
    rw [← hrest] at hfault hdrain hothers hevals
    obtain ⟨vs, mid, ws', hvs, hws', rfl⟩ := takeAll_append_eq_done hevals
    -- What the line printed goes to the user, so the next lines start with nothing printed.
    obtain ⟨store', hafter⟩ := takeAll_after_printed hk hws'
    obtain ⟨stream', hstream, hreply⟩ :=
      reply_of_reads hbetween hprinted hline hblank rfl hfault hvs
    have hbetween' := Reader.readMany_betweenLines hfault
    have hidle' := hidle.congr (Reader.readMany_open? hfault)
    rw [← hstream] at hbetween' hidle'
    obtain ⟨hflatten, output, hecho, hreplies⟩ :=
      @ih { s with reader := _, stream := stream', store := { mid with printed := "" } }
        _ others ws' store' hk hstream hbetween' rfl hlines hidle' hothers hafter
    simp only [Reader.drainLines, hdrain, replies, hreply, echo, hvs]
    refine ⟨?_, mid.printed ++ unlines (vs.map Value.inspect) ++ output, ?_, ?_⟩
    · rw [List.flatten_cons, hflatten, hrest]
    · rw [hecho, Option.map_some]
    · rw [hreplies, Option.map_some, ← String.append_assoc]

/-- The conversation on a text without carriage returns that can be read, in which no line is a
command and each blank line is idle, and of which all datums can be evaluated in order.  The lines
complete the datums of the text, and the output after the banner is, line by line, what the
evaluation of the datums that the line completes prints and then their values, and the farewell at
the end. -/
theorem transcript_of_readAll {fuel : Nat} {text : String} {datums ws : List Value}
    {reader : Reader} {store : Store} (hreturn : '\r' ∉ text.toList)
    (hcommand : ∀ line ∈ Text.lines text.toList,
      Command.ofText? (String.ofList (Text.trim line)) = none)
    (hidle : IdleBlanks [] (Text.lines text.toList))
    (hread : Session.standard.reader.readAll text = (.ok datums, reader))
    (hevals : takeAll (eval Session.standard.keywords fuel Session.standard.global) datums
      Session.standard.store = .done ws store) :
    let groups := Session.standard.reader.drainLines .empty (Text.lines text.toList)
    groups.flatten = datums ∧
      ∃ output, echo (eval Session.standard.keywords fuel Session.standard.global)
          Session.standard.store groups = some output ∧
        transcript fuel text = some (unlines banner ++ output ++ unlines [farewell]) := by
  have hpieces := Reader.readPieces_lines rfl rfl hreturn hread
  have hk : Session.standard.keywords.Plain := fun _ => Host.plain_echo _
  obtain ⟨hflatten, output, hecho, hreplies⟩ :=
    @replies_of_reads fuel Session.standard .empty _ _ _ _ _ hk rfl (.inl ⟨rfl, rfl⟩) rfl
      hcommand hidle hpieces hevals
  refine ⟨hflatten, output, hecho, ?_⟩
  rw [transcript, hreplies, Option.map_some, String.append_assoc]

/-- A text with a blank line between two datums and one inside a datum. -/
theorem transcript_of_readAll_blanks :
    let text := "(print 'a)\n\n(define x '(1\n  \n 2)) x"
    ∃ datums reader ws store, '\r' ∉ text.toList ∧
      (∀ line ∈ Text.lines text.toList, Command.ofText? (String.ofList (Text.trim line)) = none) ∧
      IdleBlanks [] (Text.lines text.toList) ∧
      Session.standard.reader.readAll text = (.ok datums, reader) ∧
      takeAll (eval Session.standard.keywords 9 Session.standard.global) datums
        Session.standard.store = .done ws store ∧
      (Session.standard.reader.drainLines .empty (Text.lines text.toList)).flatten = datums ∧
      ∃ output, echo (eval Session.standard.keywords 9 Session.standard.global)
          Session.standard.store
          (Session.standard.reader.drainLines .empty (Text.lines text.toList)) = some output ∧
        transcript 9 text = some (unlines banner ++ output ++ unlines [farewell]) := by
  intro text
  have hsome : (Session.evalText 9 text Session.standard).value?.isSome = true := by decide +kernel
  obtain ⟨v, hvalue⟩ := Option.isSome_iff_exists.1 hsome
  obtain ⟨t, hdone⟩ := Outcome.eq_done_of_value? hvalue
  obtain ⟨datums, reader, ws, store, hread, hevals, -, -⟩ := Session.evalText_eq_done hdone
  have hreturn : '\r' ∉ text.toList := by decide +kernel
  have hcommand : ∀ line ∈ Text.lines text.toList,
      Command.ofText? (String.ofList (Text.trim line)) = none := by decide +kernel
  have hidle : IdleBlanks [] (Text.lines text.toList) := by decide +kernel
  exact ⟨datums, reader, ws, store, hreturn, hcommand, hidle, hread, hevals,
    transcript_of_readAll hreturn hcommand hidle hread hevals⟩

/-- A blank line inside a quoted text is lost: the user does not get the value of the text. -/
theorem transcript_loses_blank :
    let text := "\"a\n\nb\""
    let output := echo (eval Session.standard.keywords 9 Session.standard.global)
      Session.standard.store (Session.standard.reader.drainLines .empty (Text.lines text.toList))
    '\r' ∉ text.toList ∧
      (∀ line ∈ Text.lines text.toList, Command.ofText? (String.ofList (Text.trim line)) = none) ∧
      (Session.evalText 9 text Session.standard).value?.map Value.inspect = some "\"a\\n\\nb\"" ∧
      output = some (unlines ["\"a\\n\\nb\""]) ∧
      transcript 9 text = some (unlines banner ++ unlines ["\"a\\nb\""] ++ unlines [farewell]) ∧
      transcript 9 text ≠ output.map (unlines banner ++ · ++ unlines [farewell]) := by
  decide +kernel

end Repl

end Lisplet
