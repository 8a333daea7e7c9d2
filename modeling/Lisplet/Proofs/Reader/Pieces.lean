import Lisplet.Proofs.Reader.Step
import Lisplet.Proofs.Token.Append

/-! Reading in pieces.  A host pushes a text onto a stream piece by piece and takes the datums that
each piece completes; at the end it declares the text complete.  However the text is cut, the datums,
the outcome and the reader are those of reading the text as a whole: `read_push` says what one call
makes of more text, `drain_push` what a run of calls makes of it, and `readPieces_eq` follows by
induction on the pieces. -/

namespace Lisplet

/-! ### Streams -/

theorem utf8Length_le_of_suffix {cs ds : List Char} (h : cs <:+ ds) :
    utf8Length cs ≤ utf8Length ds := by
  obtain ⟨front, rfl⟩ := h
  rw [utf8Length_append]
  omega

namespace Stream

/-- Moving to a place and on to a later one is moving to the later one. -/
theorem moveTo_moveTo {s : Stream} {mid rest : List Char} (hmid : mid <:+ s.rest)
    (hrest : rest <:+ mid) : (s.moveTo mid).moveTo rest = s.moveTo rest := by
  have h1 := utf8Length_le_of_suffix hmid
  have h2 := utf8Length_le_of_suffix hrest
  simp only [moveTo, mk.injEq, and_true]
  omega

/-- Text may be added before or after moving. -/
theorem moveTo_push (s : Stream) (text : String) (rest : List Char) :
    (s.push text).moveTo (rest ++ text.toList) = (s.moveTo rest).push text := by
  simp only [moveTo, push, utf8Length_append, Nat.add_sub_add_right]

theorem push_push (s : Stream) (t u : String) : (s.push t).push u = s.push (t ++ u) := by
  simp [push]

end Stream

namespace Reader

/-! ### One datum -/

/-- Reading a datum of a text that goes on.  A reading that stopped for want of text goes on from
where it stopped; every other is the same and leaves what follows unread. -/
theorem readFrom_append {r : Reader} (hpending : r.pending = none) (final : Bool)
    (cs ds : List Char) :
    r.readFrom final (cs ++ ds) =
      match r.readFrom false cs with
      | ⟨r', rest, .ok none⟩ => r'.readChars final (rest ++ ds)
      | ⟨r', rest, answer⟩ => ⟨r', rest ++ ds, answer⟩ := by
  have hscan := Token.scan_append final cs ds
  fun_induction readFrom false r cs with
  | case1 r cs h =>
    rw [h] at hscan
    rw [readFrom_eq, hscan, ← readFrom_eq]
    exact (readChars_eq_readFrom hpending final ds).symm
  | case2 r cs here h | case3 r cs here h =>
    rw [h] at hscan
    rw [readFrom_eq, hscan, ← readFrom_eq]
    exact (readChars_eq_readFrom hpending final (here ++ ds)).symm
  | case4 r cs here h => exact absurd h (Token.scan_ne_unreadable _ _ _)
  | case5 r cs t here rest h fault r' hacc =>
    rw [h] at hscan
    rw [readFrom_eq, hscan]
    simp only [hacc]
  | case6 r cs t here rest h r' hacc ih =>
    have hpending' : r'.pending = none := by
      have hkeep := accept_pending r t
      rw [hacc] at hkeep
      exact hkeep.trans hpending
    rw [h] at hscan
    rw [readFrom_eq, hscan]
    simp only [hacc]
    exact ih hpending' (Token.scan_append final rest ds)
  | case7 r cs t here rest h v r' hacc =>
    rw [h] at hscan
    rw [readFrom_eq, hscan]
    simp only [hacc]

/-- Reading a datum from a stream that gets more text. -/
theorem read_push (final : Bool) (r : Reader) (s : Stream) (text : String) :
    r.read final (s.push text) =
      match r.read false s with
      | (.ok none, r', s') => r'.read final (s'.push text)
      | (answer, r', s') => (answer, r', s'.push text) := by
  have happ : r.readChars final (s.push text).rest = _ :=
    readFrom_append (r := { r with pending := none }) rfl final s.rest text.toList
  have hsuffix : (r.readChars false s.rest).rest <:+ s.rest := readFrom_suffix _ _ _
  change _ = match r.readChars false s.rest with
    | ⟨r', rest, .ok none⟩ => r'.readChars final (rest ++ text.toList)
    | ⟨r', rest, answer⟩ => ⟨r', rest ++ text.toList, answer⟩ at happ
  match hread : r.readChars false s.rest with
  | ⟨r', rest, .ok (some v)⟩ =>
    rw [hread] at happ
    simp only [read, happ, hread, Stream.moveTo_push]
  | ⟨r', rest, .error fault⟩ =>
    rw [hread] at happ
    simp only [read, happ, hread, Stream.moveTo_push]
    rfl
  | ⟨r', rest, .ok none⟩ =>
    rw [hread] at happ hsuffix
    -- The second call starts where the first one stopped.
    have hmove : (s.push text).moveTo (r'.readChars final (rest ++ text.toList)).rest =
        ((s.moveTo rest).push text).moveTo (r'.readChars final (rest ++ text.toList)).rest := by
      rw [← Stream.moveTo_push]
      refine (Stream.moveTo_moveTo ?_ (readFrom_suffix _ _ _)).symm
      obtain ⟨front, hfront⟩ := hsuffix
      exact ⟨front, by rw [Stream.push, ← hfront, List.append_assoc]⟩
    simp only [read, happ, hread, hmove]
    rfl

end Reader

/-! ### Many datums -/

/-- The datums that a stream gave, what was wrong with the text after them, if anything was, and the
reader and the stream afterwards. -/
structure Drained where
  values : List Value
  error? : Option ReadError
  reader : Reader
  stream : Stream

/-- What a host gets from a text: the datums, whether the text ended well, and the reader
afterwards. -/
structure Harvest where
  values : List Value
  outcome : Except ReadError Unit
  reader : Reader

namespace Reader

/-- Reads datums from a stream until it gives no other or something is wrong. -/
def drain (final : Bool) (r : Reader) (s : Stream) : Drained :=
  match _ : r.read final s with
  | (.ok (some v), r', s') =>
    let more := r'.drain final s'
    { more with values := v :: more.values }
  | (.ok none, r', s') => ⟨[], none, r', s'⟩
  | (.error e, r', s') => ⟨[], some e, r', s'⟩
termination_by s.rest.length
decreasing_by exact read_length (by assumption)

/-- Pushes the pieces of a text one after the other and takes the datums that each completes; then
takes the datums that the end of the text completes, and declares that end.  The first error is the
last thing that happens. -/
def readPieces (r : Reader) (s : Stream) : List String → Harvest
  | [] =>
    match r.drain true s with
    | ⟨values, some e, r', _⟩ => ⟨values, .error e, r'⟩
    | ⟨values, none, r', s'⟩ => ⟨values, r'.finish s', r'⟩
  | piece :: pieces =>
    match r.drain false (s.push piece) with
    | ⟨values, some e, r', _⟩ => ⟨values, .error e, r'⟩
    | ⟨values, none, r', s'⟩ =>
      let more := r'.readPieces s' pieces
      { more with values := values ++ more.values }

theorem drain_eq (final : Bool) (r : Reader) (s : Stream) :
    r.drain final s =
      match r.read final s with
      | (.ok (some v), r', s') =>
        { r'.drain final s' with values := v :: (r'.drain final s').values }
      | (.ok none, r', s') => ⟨[], none, r', s'⟩
      | (.error e, r', s') => ⟨[], some e, r', s'⟩ := by
  rw [drain]
  split
  case _ h | _ h | _ h => rw [h]

/-- Taking all datums of a stream that gets more text: first those that it gives without, and then,
if nothing was wrong with them, the others. -/
theorem drain_push (final : Bool) (r : Reader) (s : Stream) (text : String) :
    r.drain final (s.push text) =
      match r.drain false s with
      | ⟨values, some e, r', s'⟩ => ⟨values, some e, r', s'.push text⟩
      | ⟨values, none, r', s'⟩ =>
        { r'.drain final (s'.push text) with
          values := values ++ (r'.drain final (s'.push text)).values } := by
  fun_induction drain false r s with
  | case1 r s v r' s' h more ih =>
    have hpush := read_push final r s text
    rw [h] at hpush
    rw [drain_eq, hpush]
    simp only [ih, more]
    rcases r'.drain false s' with ⟨values, _ | e, r'', s''⟩ <;> rfl
  | case2 r s r' s' h =>
    have hpush := read_push final r s text
    rw [h] at hpush
    rw [drain_eq, hpush, ← drain_eq]
    rfl
  | case3 r s e r' s' h =>
    have hpush := read_push final r s text
    rw [h] at hpush
    rw [drain_eq, hpush]

/-- Reading the pieces is reading the whole of them after what the stream holds. -/
theorem readPieces_eq (r : Reader) (s : Stream) (pieces : List String) :
    r.readPieces s pieces = r.readPieces (s.push (String.join pieces)) [] := by
  induction pieces generalizing r s with
  | nil => simp [Stream.push]
  | cons piece pieces ih =>
    rw [String.join_cons, ← Stream.push_push]
    simp only [readPieces, drain_push true r (s.push piece)]
    rcases r.drain false (s.push piece) with ⟨values, _ | e, r', s'⟩
    · simp only [ih r' s', readPieces]
      rcases r'.drain true (s'.push (String.join pieces)) with ⟨others, _ | e, r'', s''⟩ <;> rfl
    · rfl

/-! ### Whole texts -/

/-- Taking datums from a stream call by call gives what reading its text gives. -/
theorem drain_eq_readMany (final : Bool) (r : Reader) (s : Stream) :
    r.drain final s =
      let datums := r.readMany final s.rest
      let s' := s.moveTo datums.rest
      ⟨datums.values, datums.fault?.map (⟨·, s'.offset⟩), datums.reader, s'⟩ := by
  generalize hcs : s.rest = cs
  fun_induction readMany final r cs generalizing s with
  | case1 r cs r' rest v h more ih =>
    have hread : r.read final s = (.ok (some v), r', s.moveTo rest) := by
      simp only [read, hcs, h]
    have hrest : (r.readChars final cs).rest <:+ cs := readFrom_suffix _ _ _
    rw [h] at hrest
    have hmove : (s.moveTo rest).moveTo more.rest = s.moveTo more.rest :=
      Stream.moveTo_moveTo (hcs ▸ hrest) (readMany_suffix _ _ _)
    rw [drain_eq, hread]
    simp only [ih (s.moveTo rest) rfl, more] at hmove ⊢
    rw [hmove]
  | case2 r cs r' rest h | case3 r cs r' rest fault h =>
    rw [drain_eq]
    simp only [read, hcs, h]
    rfl

/-- Reading all of a text is taking its datums from a stream to the end. -/
theorem readAll_eq_readPieces (r : Reader) (text : String) :
    r.readAll text =
      let whole := r.readPieces (.ofText text) []
      (whole.outcome.map fun _ => whole.values, whole.reader) := by
  have hdrain := drain_eq_readMany true r (.ofText text)
  simp only [readAll, readPieces, hdrain]
  rw [show (Stream.ofText text).rest = text.toList from rfl]
  rcases r.readMany true text.toList with ⟨values, r', rest, _ | fault⟩ <;> rfl

/-- However a text is cut into pieces, empty ones among them, a reader with whatever factories gives
the same datums, the same outcome with the same place of an error, and is left in the same state with
the same symbols as when it reads the text as a whole, and that is what `readAll` reports. -/
theorem readPieces_eq_whole (r : Reader) (pieces : List String) :
    let whole := r.readPieces (.ofText (String.join pieces)) []
    r.readPieces .empty pieces = whole ∧
      r.readAll (String.join pieces) = (whole.outcome.map fun _ => whole.values, whole.reader) := by
  refine ⟨?_, readAll_eq_readPieces r _⟩
  rw [readPieces_eq]
  rfl

end Reader

end Lisplet
