import Lisplet.Proofs.Reader.Descent
import Lisplet.Proofs.Symbol.Calls

/-! What reading adds to the symbol table: the atoms among the tokens that have been taken from the
text, less those that are claimed by a factory and those that are numbers.  Whatever ends a reading,
these are the tokens of the text that begin before the place where it stopped. -/

namespace Lisplet

namespace Token

/-- The tokens of a text that begin before the place from which on `rest` is left. -/
def upTo (cs rest : List Char) : List Token :=
  ((sequence cs).placed.filter fun p => rest.length < p.here.length).map Placed.token

/-- What a scan of a text means for a scan of it as a complete text. -/
theorem scan_complete (final : Bool) (cs : List Char) :
    match scan final cs with
    | .finished => scan true cs = .finished
    | .held here => scan true cs = .finished ∨ ∃ t rest, scan true cs = .found t here rest
    | .openString here => scan true cs = .openString here
    | .unreadable here => scan true cs = .unreadable here
    | .found t here rest => scan true cs = .found t here rest := by
  cases hgap : skipGap none cs with
  | comment here => cases final <;> simp [scan, hgap]
  | before here =>
    cases here with
    | nil => simp [scan, hgap]
    | cons c here =>
      cases hlex : lexeme (c :: here) with
      | token t rest =>
        by_cases hheld : (!final && rest.isEmpty && mayGrow t) = true
        · simp only [scan, hgap, hlex, hheld, if_true]
          simp
        · simp only [scan, hgap, hlex, if_neg hheld]
          simp
      | openString => simp [scan, hgap, hlex]
      | unreadable => simp [scan, hgap, hlex]

theorem scan_found_here {final : Bool} {cs here rest : List Char} {t : Token}
    (h : scan final cs = .found t here rest) : rest.length < here.length := by
  simp only [scan] at h
  split at h
  · split at h <;> cases h
  · cases h
  · split at h
    · next hlex =>
      split at h
      · cases h
      · obtain ⟨rfl, rfl, rfl⟩ := Scan.found.inj h
        exact lexeme_length hlex
    · cases h
    · cases h

theorem placed_found {final : Bool} {cs here rest : List Char} {t : Token}
    (h : scan final cs = .found t here rest) :
    (sequence cs).placed = ⟨t, here⟩ :: (sequence rest).placed := by
  have htrue := scan_complete final cs
  rw [h] at htrue
  rw [sequence_eq, htrue]

theorem placed_length {cs : List Char} {p : Placed} (hp : p ∈ (sequence cs).placed) :
    p.here.length ≤ cs.length :=
  ((sequence_suffix cs).1 p hp).length_le

theorem upTo_of_length_le {cs rest : List Char} (h : cs.length ≤ rest.length) :
    upTo cs rest = [] := by
  rw [upTo, List.filter_eq_nil_iff.2, List.map_nil]
  intro p hp
  have hle := placed_length hp
  simp only [decide_eq_true_eq]
  omega

theorem upTo_found {final : Bool} {cs here rest place : List Char} {t : Token}
    (h : scan final cs = .found t here rest) (hplace : place.length ≤ rest.length) :
    upTo cs place = t :: upTo rest place := by
  have hlt : place.length < here.length := Nat.lt_of_le_of_lt hplace (scan_found_here h)
  simp only [upTo, placed_found h, List.filter_cons, hlt, decide_true, if_true, List.map_cons]

theorem upTo_found_here {final : Bool} {cs here rest : List Char} {t : Token}
    (h : scan final cs = .found t here rest) : upTo cs here = [] := by
  have hrest := upTo_of_length_le (Nat.le_of_lt (scan_found_here h))
  simpa only [upTo, placed_found h, List.filter_cons, Nat.lt_irrefl, decide_false,
    Bool.false_eq_true, if_false] using hrest

theorem upTo_stopped {final : Bool} {cs here : List Char}
    (h : scan final cs = .held here ∨ scan final cs = .openString here) : upTo cs here = [] := by
  have htrue := scan_complete final cs
  rcases h with h | h
  · rw [h] at htrue
    rcases htrue with hfinished | ⟨t, rest, hfound⟩
    · rw [upTo, sequence_eq, hfinished]
      rfl
    · exact upTo_found_here hfound
  · rw [h] at htrue
    rw [upTo, sequence_eq, htrue]
    rfl

theorem upTo_finished {final : Bool} {cs : List Char} (h : scan final cs = .finished)
    (rest : List Char) : upTo cs rest = [] := by
  have htrue := scan_complete final cs
  rw [h] at htrue
  rw [upTo, sequence_eq, htrue]
  rfl

end Token

namespace Reader

open Token

/-- The atom is a name: no factory claims it, and it denotes no number. -/
def isWord (r : Reader) (text : String) : Bool :=
  (r.factories.findSome? (· text)).isNone && (Number.ofAtom? text.toList).isNone

def word? (r : Reader) : Token → Option String
  | .atom text => if r.isWord text then some text else none
  | _ => none

/-- The names among some tokens. -/
def words (r : Reader) (tokens : List Token) : List String := tokens.filterMap r.word?

/-- The second reader has the factories of the first, and in its table also the names among the
tokens, each name once. -/
structure Adds (r : Reader) (tokens : List Token) (r' : Reader) : Prop where
  factories : r'.factories = r.factories
  names : ∀ name, name ∈ r'.table.names ↔ name ∈ r.table.names ∨ name ∈ r.words tokens
  nodup : r.table.names.Nodup → r'.table.names.Nodup

variable {r r' r'' : Reader} {ts us : List Token}

theorem words_congr (h : r'.factories = r.factories) (ts : List Token) :
    r'.words ts = r.words ts := by
  have hword : ∀ text, r'.isWord text = r.isWord text := fun text => by rw [isWord, isWord, h]
  have hwords : r'.word? = r.word? := by
    funext t
    cases t <;> simp only [word?, hword]
  rw [words, words, hwords]

theorem adds_of_table (hfactories : r'.factories = r.factories) (htable : r'.table = r.table)
    (hwords : r.words ts = []) : r.Adds ts r' :=
  ⟨hfactories, fun name => by simp [htable, hwords], fun h => htable ▸ h⟩

theorem Adds.trans (h : r.Adds ts r') (h' : r'.Adds us r'') : r.Adds (ts ++ us) r'' := by
  refine ⟨h'.factories.trans h.factories, fun name => ?_, fun hnodup => h'.nodup (h.nodup hnodup)⟩
  rw [h'.names, h.names, words_congr h.factories, words, words, words, List.filterMap_append,
    List.mem_append, or_assoc]

/-! ### One token -/

theorem attach_adds (h : r.Adds ts r') (v : Value) : r.Adds ts (r'.attach v).reader := by
  simp only [attach]
  split
  · exact ⟨h.factories, h.names, h.nodup⟩
  · exact ⟨h.factories, h.names, h.nodup⟩

theorem atom_adds (r : Reader) (text : String) : r.Adds [.atom text] (r.atom text).2 := by
  have hwords : r.words [.atom text] = if r.isWord text then [text] else [] := by
    cases hword : r.isWord text <;> simp [words, word?, hword]
  simp only [atom]
  split
  · next make hmake =>
    have hword : r.isWord text = false := by rw [isWord, hmake]; rfl
    exact adds_of_table rfl rfl (by simp [hwords, hword])
  · next hunclaimed =>
    split
    · next n hn =>
      have hword : r.isWord text = false := by rw [isWord, hunclaimed, hn]; rfl
      exact adds_of_table rfl rfl (by simp [hwords, hword])
    · next hn =>
      have hword : r.isWord text = true := by rw [isWord, hunclaimed, hn]; rfl
      rw [if_pos hword] at hwords
      refine ⟨rfl, fun name => ?_, fun hnodup => SymbolTable.nodup_intern hnodup text⟩
      rw [hwords, List.mem_singleton]
      exact SymbolTable.mem_intern_iff r.table text name

theorem accept_adds (r : Reader) (t : Token) : r.Adds [t] (r.accept t).reader := by
  cases t with
  | openList => exact adds_of_table rfl rfl rfl
  | quote kind => exact adds_of_table rfl rfl rfl
  | string text =>
    refine attach_adds ?_ _
    exact adds_of_table rfl rfl rfl
  | atom text => exact attach_adds (atom_adds r text) _
  | closeList =>
    simp only [accept]
    split
    · refine attach_adds ?_ _
      exact adds_of_table rfl rfl rfl
    · exact adds_of_table rfl rfl rfl
    · exact adds_of_table rfl rfl rfl

/-! ### Texts -/

theorem readFrom_adds (final : Bool) (r : Reader) (cs : List Char) :
    r.Adds (upTo cs (r.readFrom final cs).rest) (r.readFrom final cs).reader := by
  fun_induction readFrom final r cs with
  | case1 r cs hscan => exact adds_of_table rfl rfl (by rw [upTo_finished hscan]; rfl)
  | case2 r cs here hscan =>
    exact adds_of_table rfl rfl (by rw [upTo_stopped (.inl hscan)]; rfl)
  | case3 r cs here hscan =>
    exact adds_of_table rfl rfl (by rw [upTo_stopped (.inr hscan)]; rfl)
  | case4 r cs here hscan => exact absurd hscan (scan_ne_unreadable final cs here)
  | case5 r cs t here rest hscan fault r' hacc =>
    obtain ⟨kind?, -, -, -, rfl⟩ := accept_eq_refused_iff.1 hacc
    exact adds_of_table rfl rfl (by rw [upTo_found_here hscan]; rfl)
  | case6 r cs t here rest hscan r' hacc ih =>
    have haccept := accept_adds r t
    rw [hacc] at haccept
    rw [upTo_found hscan (readFrom_suffix final r' rest).length_le]
    exact haccept.trans ih
  | case7 r cs t here rest hscan v r' hacc =>
    have haccept := accept_adds r t
    rw [hacc] at haccept
    rw [upTo_found hscan (Nat.le_refl _), upTo_of_length_le (Nat.le_refl _)]
    exact haccept

/-- After a datum the tokens of the text are those of what is left of it. -/
theorem readFrom_upTo {final : Bool} {r : Reader} {cs place : List Char} {v : Value}
    (h : (r.readFrom final cs).answer = .ok (some v))
    (hplace : place.length ≤ (r.readFrom final cs).rest.length) :
    upTo cs place =
      upTo cs (r.readFrom final cs).rest ++ upTo (r.readFrom final cs).rest place := by
  fun_induction readFrom final r cs with
  | case1 | case2 | case3 | case4 | case5 => cases h
  | case6 r cs t here rest hscan r' hacc ih =>
    have hrest := (readFrom_suffix final r' rest).length_le
    rw [upTo_found hscan (Nat.le_trans hplace hrest), upTo_found hscan hrest, ih h hplace,
      List.cons_append]
  | case7 r cs t here rest hscan v' r' hacc =>
    rw [upTo_found hscan hplace, upTo_found hscan (Nat.le_refl _),
      upTo_of_length_le (Nat.le_refl rest.length)]
    rfl

theorem readChars_adds (final : Bool) (r : Reader) (cs : List Char) :
    r.Adds (upTo cs (r.readChars final cs).rest) (r.readChars final cs).reader := by
  have hread := readFrom_adds final { r with pending := none } cs
  exact ⟨hread.factories, hread.names, hread.nodup⟩

theorem readMany_adds (final : Bool) (r : Reader) (cs : List Char) :
    r.Adds (upTo cs (r.readMany final cs).rest) (r.readMany final cs).reader := by
  fun_induction readMany final r cs with
  | case1 r cs r' rest v hfirst more ih =>
    have hadds := readChars_adds final r cs
    have hsplit : more.rest.length ≤ (r.readChars final cs).rest.length → upTo cs more.rest =
        upTo cs (r.readChars final cs).rest ++ upTo (r.readChars final cs).rest more.rest :=
      readFrom_upTo (show (r.readChars final cs).answer = .ok (some v) by rw [hfirst])
    rw [hfirst] at hadds hsplit
    rw [hsplit (readMany_suffix final r' rest).length_le]
    exact hadds.trans ih
  | case2 r cs r' rest hfirst | case3 r cs r' rest fault hfirst =>
    have hadds := readChars_adds final r cs
    rw [hfirst] at hadds
    exact hadds

theorem read_adds {final : Bool} {s s' : Stream} {answer : Except ReadError (Option Value)}
    (h : r.read final s = (answer, r', s')) : r.Adds (upTo s.rest s'.rest) r' := by
  have hadds := readChars_adds final r s.rest
  simp only [read] at h
  split at h
  · obtain ⟨-, rfl, rfl⟩ := by simpa only [Prod.mk.injEq] using h
    exact hadds
  · obtain ⟨-, rfl, rfl⟩ := by simpa only [Prod.mk.injEq] using h
    exact hadds

theorem read_upTo {final : Bool} {s s' : Stream} {v : Value}
    (h : r.read final s = (.ok (some v), r', s')) {place : List Char}
    (hplace : place.length ≤ s'.rest.length) :
    upTo s.rest place = upTo s.rest s'.rest ++ upTo s'.rest place := by
  simp only [read] at h
  split at h
  · next w hanswer =>
    obtain ⟨hw, -, rfl⟩ := by simpa only [Prod.mk.injEq] using h
    obtain rfl := Except.ok.inj hw
    exact readFrom_upTo hanswer hplace
  · cases (Prod.mk.inj h).1

theorem readAll_adds {text : String} {answer : Except ReadError (List Value)}
    (h : r.readAll text = (answer, r')) :
    r.Adds (upTo text.toList (r.readMany true text.toList).rest) r' := by
  have hadds := readMany_adds true r text.toList
  simp only [readAll] at h
  split at h
  · obtain ⟨-, rfl⟩ := Prod.mk.inj h
    exact hadds
  · obtain ⟨-, rfl⟩ := Prod.mk.inj h
    exact hadds

end Reader

end Lisplet
