import Lisplet.Proofs.Reader.Alike
import Lisplet.Proofs.Reader.Descent

/-! Where a text may be cut.  `Stopped` says what a reader holds back of a text when it has taken
all datums that the text completes, and `readPieces_silent_iff` says which ends of a text give no
datum and no error.  From both it follows that the reader is clean exactly if the text may be cut
there: whatever comes next is read as if it stood alone. -/

namespace Lisplet

/-- The same error `count` bytes further on. -/
def ReadError.shift (count : Nat) (e : ReadError) : ReadError :=
  { e with offset := count + e.offset }

/-- The text gave no datum and no error. -/
def Harvest.Silent (h : Harvest) : Prop := h.values = [] ∧ h.outcome = .ok ()

theorem Harvest.silent_congr {a b : Harvest} {f : ReadError → ReadError}
    (hvalues : a.values.map Value.bare = b.values.map Value.bare)
    (houtcome : a.outcome = b.outcome.mapError f) : a.Silent ↔ b.Silent := by
  refine and_congr ?_ ?_
  · rw [← List.map_eq_nil_iff (f := Value.bare), hvalues, List.map_eq_nil_iff]
  · rw [houtcome]
    cases b.outcome with
    | ok _ => exact iff_of_true rfl rfl
    | error e => exact iff_of_false (fun h => by cases h) (fun h => by cases h)

namespace Token

/-- A quoted text without an end is found whether or not the text is complete. -/
theorem scan_true_of_openString {cs here : List Char} (h : scan false cs = .openString here) :
    scan true cs = .openString here := by
  simp only [scan] at h ⊢
  split at h
  · cases h
  · cases h
  · split at h
    · split at h <;> cases h
    · exact h
    · cases h

/-- What is held back and is no token is a comment. -/
theorem skipGap_of_held {cs here : List Char} (h : scan false cs = .held here)
    (hend : scan true cs = .finished) : skipGap none cs = .comment here := by
  simp only [scan] at h hend
  split at h
  · next start hgap =>
    obtain rfl : start = here := Scan.held.inj h
    exact hgap
  · cases h
  · next c tail hgap =>
    split at h
    · next t rest hlex =>
      rw [hgap] at hend
      simp only [hlex] at hend
      cases hend
    · cases h
    · cases h

/-- A comment that the text ends in goes on in any text in which it does not end. -/
theorem scan_comment_append {cs start ds : List Char} (h : skipGap none cs = .comment start)
    (hds : ∀ c ∈ ds, endsComment c = false) : scan true (start ++ ds) = .finished := by
  have hgap : skipGap none (start ++ ds) = .comment (start ++ ds) := by
    rw [skipGap_restart ds h, ← List.append_nil ds, ← List.append_assoc, skipGap_inside _ _ hds]
    rfl
  simp only [scan, hgap, if_true]

end Token

namespace Reader

open Token

variable {r r' : Reader}

/-! ### What is held back -/

theorem attach_failed (r : Reader) (v : Value) : (r.attach v).reader.failed = r.failed := by
  simp only [attach]
  split <;> rfl

/-- Only a token that is refused makes a reader fail. -/
theorem accept_failed {t : Token} (h : ∀ fault r', r.accept t ≠ .refused fault r') :
    (r.accept t).reader.failed = r.failed := by
  cases t with
  | openList => rfl
  | quote kind => rfl
  | string text => exact attach_failed _ _
  | atom text =>
    have hatom : (r.atom text).2.failed = r.failed := by rw [Grammar.atom_frame]
    exact (attach_failed _ _).trans hatom
  | closeList =>
    simp only [accept] at h ⊢
    split
    · exact attach_failed _ _
    · next hs => exact absurd (by rw [hs]) (h _ _)
    · next hs => exact absurd (by rw [hs]) (h _ _)

theorem readFrom_failed {final : Bool} {cs rest : List Char} {v? : Option Value}
    (h : r.readFrom final cs = ⟨r', rest, .ok v?⟩) : r'.failed = r.failed := by
  fun_induction readFrom final r cs with
  | case1 r cs hscan | case2 r cs here hscan | case3 r cs here hscan =>
    obtain ⟨rfl, -, -⟩ := Reading.mk.inj h
    rfl
  | case4 r cs here hscan => cases h
  | case5 r cs t here rest' hscan fault r₁ hacc => cases h
  | case6 r cs t here rest' hscan r₁ hacc ih =>
    have hkeep := accept_failed (r := r) (t := t) (by simp [hacc])
    rw [hacc] at hkeep
    exact (ih h).trans hkeep
  | case7 r cs t here rest' hscan v r₁ hacc =>
    have hkeep := accept_failed (r := r) (t := t) (by simp [hacc])
    rw [hacc] at hkeep
    obtain ⟨rfl, -, -⟩ := Reading.mk.inj h
    exact hkeep

theorem readChars_failed {final : Bool} {cs rest : List Char} {v? : Option Value}
    (h : r.readChars final cs = ⟨r', rest, .ok v?⟩) : r'.failed = r.failed :=
  readFrom_failed (r := { r with pending := none }) h

/-- How a reader that has stopped for want of text stands to what it left unread. -/
inductive Stopped (r : Reader) : List Char → Prop
  | finished (pending : r.pending = none) : Stopped r []
  | held {rest : List Char} (pending : r.pending = some .token)
      (scan : scan false rest = .held rest) : Stopped r rest
  | openString {rest : List Char} (pending : r.pending = some .string)
      (scan : scan false rest = .openString rest) : Stopped r rest

theorem Stopped.rest_eq_nil {rest : List Char} (h : Stopped r rest) (hpending : r.pending = none) :
    rest = [] := by
  cases h with
  | finished => rfl
  | held hheld => rw [hpending] at hheld; cases hheld
  | openString hopen => rw [hpending] at hopen; cases hopen

theorem readFrom_stopped {cs rest : List Char} (hpending : r.pending = none)
    (h : r.readFrom false cs = ⟨r', rest, .ok none⟩) : Stopped r' rest := by
  fun_induction readFrom false r cs with
  | case1 r cs hscan =>
    obtain ⟨rfl, rfl, -⟩ := Reading.mk.inj h
    exact .finished hpending
  | case2 r cs here hscan =>
    obtain ⟨rfl, rfl, -⟩ := Reading.mk.inj h
    have hagain := scan_append false cs []
    simp only [hscan, List.append_nil] at hagain
    exact .held rfl hagain.symm
  | case3 r cs here hscan =>
    obtain ⟨rfl, rfl, -⟩ := Reading.mk.inj h
    have hagain := scan_append false cs []
    simp only [hscan, List.append_nil] at hagain
    exact .openString rfl hagain.symm
  | case4 r cs here hscan => cases h
  | case5 r cs t here rest' hscan fault r₁ hacc => cases h
  | case6 r cs t here rest' hscan r₁ hacc ih =>
    have hkeep := accept_pending r t
    rw [hacc] at hkeep
    exact ih (hkeep.trans hpending) h
  | case7 r cs t here rest' hscan v r₁ hacc => cases h

/-- Reading a complete text stops at its end or at the quoted text that it ends in. -/
theorem readFrom_end {cs rest : List Char} (hpending : r.pending = none)
    (h : r.readFrom true cs = ⟨r', rest, .ok none⟩) :
    (r'.pending = none ∧ rest = []) ∨
      r'.pending = some .string ∧ (sequence cs).open? = some rest := by
  fun_induction readFrom true r cs with
  | case1 r cs hscan =>
    obtain ⟨rfl, rfl, -⟩ := Reading.mk.inj h
    exact .inl ⟨hpending, rfl⟩
  | case2 r cs here hscan => exact absurd hscan (scan_true_ne_held cs here)
  | case3 r cs here hscan =>
    obtain ⟨rfl, rfl, -⟩ := Reading.mk.inj h
    exact .inr ⟨rfl, by rw [sequence_eq, hscan]⟩
  | case4 r cs here hscan => cases h
  | case5 r cs t here rest' hscan fault r₁ hacc => cases h
  | case6 r cs t here rest' hscan r₁ hacc ih =>
    have hkeep := accept_pending r t
    rw [hacc] at hkeep
    have hopen : (sequence cs).open? = (sequence rest').open? := by rw [sequence_eq, hscan]
    rw [hopen]
    exact ih (hkeep.trans hpending) h
  | case7 r cs t here rest' hscan v r₁ hacc => cases h

theorem readMany_stopped {cs : List Char} (h : (r.readMany false cs).fault? = none) :
    Stopped (r.readMany false cs).reader (r.readMany false cs).rest ∧
      (r.readMany false cs).reader.failed = r.failed := by
  fun_induction readMany false r cs with
  | case1 r cs r₁ rest v hfirst =>
    rename_i ih
    obtain ⟨hstopped, hfailed⟩ := ih h
    exact ⟨hstopped, hfailed.trans (readFrom_failed (r := { r with pending := none }) hfirst)⟩
  | case2 r cs r₁ rest hfirst =>
    exact ⟨readFrom_stopped rfl hfirst, readFrom_failed (r := { r with pending := none }) hfirst⟩
  | case3 r cs r₁ rest fault hfirst => cases h

/-! ### Ends that give nothing -/

theorem place_eq_none {q : QuoteSymbols} {v : Value} {s : Supply} {stack : List Context}
    (h : (place q v s stack).1 = none) : (place q v s stack).2.1 ≠ [] := by
  induction stack generalizing v s with
  | nil => cases h
  | cons c stack ih =>
    cases c with
    | list items => exact List.cons_ne_nil _ _
    | quote kind => exact ih h

theorem attach_ongoing {v : Value} (h : r.attach v = .ongoing r') : r'.stack ≠ [] := by
  have hplace : (place r.quotes v r.supply r.stack).1 = none → _ := place_eq_none
  simp only [attach] at h
  split at h
  · cases h
  · next stack s hnone =>
    rw [hnone] at hplace
    obtain rfl := Accepted.ongoing.inj h
    exact hplace rfl

/-- A token that completes no datum leaves something open. -/
theorem accept_ongoing {t : Token} (h : r.accept t = .ongoing r') : r'.stack ≠ [] := by
  cases t with
  | openList =>
    obtain rfl := Accepted.ongoing.inj h
    exact List.cons_ne_nil _ _
  | quote kind =>
    obtain rfl := Accepted.ongoing.inj h
    exact List.cons_ne_nil _ _
  | string text => exact attach_ongoing h
  | atom text => exact attach_ongoing h
  | closeList =>
    simp only [accept] at h
    split at h
    · exact attach_ongoing h
    · cases h
    · cases h

theorem missing?_eq_none_iff : r.missing? = none ↔ r.pending ≠ some .string ∧ r.stack = [] := by
  by_cases hpending : r.pending = some .string
  · simp [missing?, hpending]
  · rcases hs : r.stack with _ | ⟨items | kind, stack⟩ <;> simp [missing?, hpending, hs]

/-- A complete text that gives nothing and leaves nothing open has no tokens. -/
theorem scan_of_readFrom {cs rest : List Char} (h : r.readFrom true cs = ⟨r', rest, .ok none⟩)
    (hmissing : r'.missing? = none) : scan true cs = .finished ∧ r.stack = [] := by
  obtain ⟨hpending, hstack⟩ := missing?_eq_none_iff.1 hmissing
  fun_induction readFrom true r cs with
  | case1 r cs hscan =>
    obtain ⟨rfl, -, -⟩ := Reading.mk.inj h
    exact ⟨hscan, hstack⟩
  | case2 r cs here hscan => exact absurd hscan (scan_true_ne_held cs here)
  | case3 r cs here hscan =>
    obtain ⟨rfl, -, -⟩ := Reading.mk.inj h
    exact absurd rfl hpending
  | case4 r cs here hscan => cases h
  | case5 r cs t here rest' hscan fault r₁ hacc => cases h
  | case6 r cs t here rest' hscan r₁ hacc ih => exact absurd (ih h).2 (accept_ongoing hacc)
  | case7 r cs t here rest' hscan v r₁ hacc => cases h

theorem readPieces_nil (r : Reader) (s : Stream) :
    r.readPieces s [] =
      let datums := r.readMany true s.rest
      ⟨datums.values,
        (datums.fault?.or datums.reader.missing?).elim (.ok ()) fun fault =>
          .error ⟨fault, (s.moveTo datums.rest).offset⟩,
        datums.reader⟩ := by
  simp only [readPieces, drain_eq_readMany true r s]
  rcases r.readMany true s.rest with ⟨values, r', rest, _ | fault⟩
  · simp only [Option.map_none, finish, finishAt, Option.none_or]
    cases r'.missing? <;> rfl
  · rfl

/-- The rest of a text is silent exactly if it has no tokens and nothing is open before it. -/
theorem readPieces_silent_iff {s : Stream} :
    (r.readPieces s []).Silent ↔ scan true s.rest = .finished ∧ r.stack = [] := by
  rw [Harvest.Silent, readPieces_nil, readMany_eq]
  constructor
  · rintro ⟨hvalues, houtcome⟩
    rcases hread : r.readChars true s.rest with ⟨r', rest, fault | _ | v⟩
    · rw [hread] at houtcome
      cases houtcome
    · rw [hread] at houtcome
      have hmissing : r'.missing? = none := by
        cases hm : r'.missing? with
        | none => rfl
        | some fault => simp [hm] at houtcome
      exact scan_of_readFrom (r := { r with pending := none }) hread hmissing
    · rw [hread] at hvalues
      cases hvalues
  · rintro ⟨hscan, hstack⟩
    have hread : r.readChars true s.rest = ⟨{ r with pending := none }, [], .ok none⟩ := by
      rw [readChars, readFrom_eq, hscan]
    have hmissing : { r with pending := none }.missing? = none :=
      missing?_eq_none_iff.2 ⟨by simp, hstack⟩
    rw [hread]
    simp [hmissing]

/-! ### Cuts -/

theorem readPieces_alike (h : r.Alike r') (s s' : Stream) (count : Nat) (hrest : s.rest = s'.rest)
    (hoffset : s.offset = count + s'.offset) :
    (r.readPieces s []).values.map Value.bare = (r'.readPieces s' []).values.map Value.bare ∧
      (r.readPieces s []).outcome = (r'.readPieces s' []).outcome.mapError (.shift count) := by
  have hdatums := readMany_alike h true s'.rest
  rw [readPieces_nil, readPieces_nil, hrest]
  refine ⟨hdatums.values, ?_⟩
  simp only [hdatums.fault?, missing?_alike hdatums.reader, hdatums.rest, Stream.moveTo, hrest,
    hoffset]
  cases (r'.readMany true s'.rest).fault?.or (r'.readMany true s'.rest).reader.missing? with
  | none => rfl
  | some fault =>
    exact congrArg (fun place => Except.error (ReadError.mk fault place)) (Nat.add_assoc _ _ _)

/-- Reads a text in one piece. -/
def readWhole (r : Reader) (text : String) : Harvest := r.readPieces (.ofText text) []

theorem readWhole_append {text : String}
    (h : (r.drain false (Stream.empty.push text)).error? = none) (more : String) :
    r.readWhole (text ++ more) =
      let drained := r.drain false (Stream.empty.push text)
      let rest := drained.reader.readPieces (drained.stream.push more) []
      { rest with values := drained.values ++ rest.values } := by
  have hwhole := readPieces_eq r .empty [text, more]
  have hrest := fun r' s => readPieces_eq r' s [more]
  rw [show String.join [text, more] = text ++ more by simp] at hwhole
  rw [show String.join [more] = more by simp] at hrest
  rw [readWhole, show Stream.ofText (text ++ more) = Stream.empty.push (text ++ more) from rfl,
    ← hwhole, readPieces]
  generalize r.drain false (Stream.empty.push text) = drained at h ⊢
  obtain ⟨values, _ | e, r', s'⟩ := drained
  · dsimp only
    rw [hrest]
  · cases h

theorem readWhole_alike (h : r.Alike r') (text : String) :
    (r.readWhole text).values.map Value.bare = (r'.readWhole text).values.map Value.bare ∧
      (r.readWhole text).outcome = (r'.readWhole text).outcome := by
  have hzero : ReadError.shift 0 = id := funext fun e => by simp [ReadError.shift]
  obtain ⟨hvalues, houtcome⟩ :=
    readPieces_alike h (.ofText text) (.ofText text) 0 rfl (Nat.zero_add _).symm
  refine ⟨hvalues, houtcome.trans ?_⟩
  rw [hzero, readWhole]
  cases (r'.readPieces (.ofText text) []).outcome <;> rfl

theorem drain_stopped (hr : r.Plain) {text : String} (drained : Drained)
    (hdrained : r.drain false (Stream.empty.push text) = drained) (h : drained.error? = none) :
    drained.reader.Plain ∧ drained.reader.failed = r.failed ∧
      Stopped drained.reader drained.stream.rest ∧
      drained.stream.offset + utf8Length drained.stream.rest = utf8Length text.toList := by
  rw [drain_eq_readMany] at hdrained
  change (let datums := r.readMany false text.toList; _) = drained at hdrained
  obtain rfl := hdrained
  obtain ⟨hstopped, hfailed⟩ := readMany_stopped (Option.map_eq_none_iff.1 h)
  obtain ⟨front, hfront⟩ := readMany_suffix false r text.toList
  have htotal := Stream.moveTo_total (s := Stream.empty.push text) hfront.symm
  exact ⟨(readMany_alike hr.alike false text.toList).reader.left, hfailed, hstopped,
    htotal.trans (Nat.zero_add _)⟩

theorem isClean_iff : r.isClean = true ↔ r.stack = [] ∧ r.pending = none ∧ r.failed = false := by
  simp [isClean, and_assoc]

/-- A clean reader reads what comes next as a fresh one reads it alone. -/
theorem readPieces_of_isClean (hr : r.Plain) {s : Stream} (hstopped : Stopped r s.rest)
    (hclean : r.isClean = true) (table : SymbolTable) (supply : Supply) (more : String) :
    let rest := r.readPieces (s.push more) []
    let alone := (ofTable table supply).readWhole more
    rest.values.map Value.bare = alone.values.map Value.bare ∧
      rest.outcome = alone.outcome.mapError (.shift (s.offset + utf8Length s.rest)) := by
  obtain ⟨hstack, hpending, hfailed⟩ := isClean_iff.1 hclean
  obtain ⟨offset, rest⟩ := s
  obtain rfl : rest = [] := hstopped.rest_eq_nil hpending
  have halike : r.Alike (ofTable table supply) :=
    ⟨hr, plain_ofTable _ _, by rw [hstack]; rfl, hpending, hfailed⟩
  exact readPieces_alike halike _ _ _ rfl rfl

theorem Stopped.pending_eq_none {rest : List Char} (h : Stopped r rest)
    (hend : scan true rest = .finished) (hclose : scan true (rest ++ [')']) ≠ .finished) :
    r.pending = none := by
  cases h with
  | finished hpending => exact hpending
  | held hpending hscan =>
    -- What is held back is no token, so it is a comment, and a comment swallows the parenthesis.
    exact absurd (scan_comment_append (skipGap_of_held hscan hend)
      (List.forall_mem_singleton.2 rfl)) hclose
  | openString hpending hscan =>
    rw [scan_true_of_openString hscan] at hend
    cases hend

/-- A reader that gives nothing for a text exactly if a fresh one gives nothing for it is clean: it
is enough to ask for the empty text and for a closing parenthesis. -/
theorem isClean_of_silent {s : Stream} (hstopped : Stopped r s.rest) (hfailed : r.failed = false)
    (h : ∀ more : String, scan true (s.rest ++ more.toList) = .finished ∧ r.stack = [] ↔
      scan true more.toList = .finished) : r.isClean = true := by
  obtain ⟨hend, hstack⟩ := (h "").2 rfl
  rw [String.toList_empty, List.append_nil] at hend
  have hclose : scan true (s.rest ++ [')']) ≠ .finished := by
    intro hfinished
    have hfound : scan true ")".toList = .found .closeList [')'] [] := rfl
    rw [(h ")").1 ⟨hfinished, hstack⟩] at hfound
    cases hfound
  exact isClean_iff.2 ⟨hstack, hstopped.pending_eq_none hend hclose, hfailed⟩

/-- A reader that has taken all datums of a text without an error is clean exactly if the text may
be cut there: for every text that follows, reading both in one piece gives the datums of the first
and then those of the second read alone, and ends as that does, at a place as many bytes further on
as the first text has. -/
theorem isClean_iff_cut (table table₁ table₂ : SymbolTable) (supply supply₁ supply₂ : Supply)
    (text : String) :
    let drained := (ofTable table supply).drain false (Stream.empty.push text)
    drained.error? = none →
      (drained.reader.isClean = true ↔
        ∀ more : String,
          let whole := (ofTable table₁ supply₁).readWhole (text ++ more)
          let alone := (ofTable table₂ supply₂).readWhole more
          whole.values.map Value.bare = (drained.values ++ alone.values).map Value.bare ∧
            whole.outcome = alone.outcome.mapError (.shift (utf8Length text.toList))) := by
  intro drained herror
  obtain ⟨hplain, hfailed, hstopped, hoffset⟩ :=
    drain_stopped (plain_ofTable table supply) drained rfl herror
  -- Both texts in one piece are the first and then, by the reader it leaves, the second.
  have hwhole : ∀ more,
      let whole := (ofTable table₁ supply₁).readWhole (text ++ more)
      let rest := drained.reader.readPieces (drained.stream.push more) []
      whole.values.map Value.bare = (drained.values ++ rest.values).map Value.bare ∧
        whole.outcome = rest.outcome := by
    intro more
    have halike := readWhole_alike (alike_ofTable table₁ table supply₁ supply) (text ++ more)
    rw [readWhole_append herror more] at halike
    exact halike
  constructor
  · intro hclean more whole alone
    obtain ⟨hvalues, houtcome⟩ := readPieces_of_isClean hplain hstopped hclean table₂ supply₂ more
    obtain ⟨hwvalues, hwoutcome⟩ := hwhole more
    rw [hoffset] at houtcome
    refine ⟨hwvalues.trans ?_, hwoutcome.trans houtcome⟩
    rw [List.map_append, List.map_append, hvalues]
  · intro hcut
    refine isClean_of_silent hstopped hfailed fun more => ?_
    obtain ⟨hwvalues, hwoutcome⟩ := hwhole more
    obtain ⟨hvalues, houtcome⟩ := hcut more
    rw [hwvalues, List.map_append, List.map_append, List.append_cancel_left_eq] at hvalues
    rw [hwoutcome] at houtcome
    have hsilent := Harvest.silent_congr hvalues houtcome
    rw [readWhole, readPieces_silent_iff, readPieces_silent_iff] at hsilent
    exact hsilent.trans (and_iff_left rfl)

/-- A text after which a comment is still open may not be cut there. -/
theorem isClean_iff_cut_comment :
    let r := ofTable (.empty 0) (.ofOwner 0)
    let drained := r.drain false (Stream.empty.push "(a 1) ; b")
    drained.error? = none ∧ ¬ ∀ more : String,
      let whole := r.readWhole ("(a 1) ; b" ++ more)
      let alone := r.readWhole more
      whole.values.map Value.bare = (drained.values ++ alone.values).map Value.bare ∧
        whole.outcome = alone.outcome.mapError (.shift (utf8Length "(a 1) ; b".toList)) := by
  have herror : ((ofTable (.empty 0) (.ofOwner 0)).drain false
    (Stream.empty.push "(a 1) ; b")).error? = none := by decide +kernel
  refine ⟨herror, fun hcut => ?_⟩
  have hclean := (isClean_iff_cut (.empty 0) (.empty 0) (.empty 0) (.ofOwner 0) (.ofOwner 0)
    (.ofOwner 0) "(a 1) ; b" herror).2 hcut
  revert hclean
  decide +kernel

end Reader

end Lisplet
