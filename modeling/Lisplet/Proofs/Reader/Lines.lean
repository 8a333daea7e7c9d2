import Lisplet.Proofs.Reader.CleanCut
import Lisplet.Proofs.Token.Newline
import Lisplet.Text.Lines

/-! Reading a text line by line, each with a newline after it.  The lines make up the text, up to a
newline at its end that changes nothing.  Between two lines a reader holds nothing back but a quoted
text that has not ended; where there is none, a line of spaces leaves it as it is. -/

namespace Lisplet

/-! ### Lines -/

namespace Text

theorem dropReturn_of_not_mem {line : List Char} (h : '\r' ∉ line) : dropReturn line = line := by
  unfold dropReturn
  split
  · next front hreverse =>
    have hmem : '\r' ∈ line.reverse := by rw [hreverse]; exact List.mem_cons_self
    exact absurd (List.mem_reverse.1 hmem) h
  · rfl

theorem flatMap_linesFrom {front cs : List Char} (hfront : '\r' ∉ front) (hcs : '\r' ∉ cs) :
    (linesFrom front cs).flatMap (· ++ ['\n']) = front.reverse ++ cs ∨
      (linesFrom front cs).flatMap (· ++ ['\n']) = front.reverse ++ cs ++ ['\n'] := by
  induction cs generalizing front with
  | nil =>
    cases front with
    | nil => exact .inl rfl
    | cons c front => exact .inr (by simp [linesFrom])
  | cons c cs ih =>
    have hmore : '\r' ∉ cs := fun hmem => hcs (List.mem_cons_of_mem c hmem)
    by_cases hc : c = '\n'
    · subst hc
      have hline : dropReturn front.reverse = front.reverse :=
        dropReturn_of_not_mem fun hmem => hfront (List.mem_reverse.1 hmem)
      have hrest := @ih [] (by simp) hmore
      simp only [linesFrom, beq_self_eq_true, if_true, List.flatMap_cons, hline]
      rcases hrest with hrest | hrest
      · exact .inl (by simp [hrest])
      · exact .inr (by simp [hrest])
    · have hfront' : '\r' ∉ c :: front := by
        intro hmem
        rcases List.mem_cons.1 hmem with rfl | hmem
        · exact hcs List.mem_cons_self
        · exact hfront hmem
      have hrest := ih hfront' hmore
      simpa [linesFrom, hc] using hrest

/-- The lines of a text, each with a newline after it, are the text or the text and a newline. -/
theorem flatMap_lines {cs : List Char} (h : '\r' ∉ cs) :
    (lines cs).flatMap (· ++ ['\n']) = cs ∨ (lines cs).flatMap (· ++ ['\n']) = cs ++ ['\n'] :=
  flatMap_linesFrom (by simp) h

end Text

namespace Reader

open Token

variable {r r' : Reader}

/-- A text that can be read can be read with a newline after it, to the same datums. -/
theorem readAll_newline (hr : r.stack = []) (hp : r.pending = none) {text : String}
    {values : List Value} (h : r.readAll text = (.ok values, r')) :
    r.readAll (text ++ "\n") = (.ok values, r') := by
  obtain ⟨hopen, hseries⟩ := (readAll_eq_ok_iff hr hp).1 h
  obtain ⟨htokens, hopen'⟩ := sequence_newline text.toList
  refine (readAll_eq_ok_iff hr hp).2 ?_
  rw [String.toList_append, show "\n".toList = ['\n'] from rfl, htokens, hopen', hopen]
  exact ⟨rfl, hseries⟩

/-- The text of a line with its newline. -/
def lineText (line : List Char) : String := String.ofList (line ++ ['\n'])

theorem push_lineText_rest (s : Stream) (line : List Char) :
    (s.push (lineText line)).rest = s.rest ++ (line ++ ['\n']) := by
  rw [Stream.push, lineText, String.toList_ofList]

theorem join_lineText (lines : List (List Char)) :
    String.join (lines.map lineText) = String.ofList (lines.flatMap (· ++ ['\n'])) := by
  induction lines with
  | nil => rfl
  | cons line lines ih =>
    rw [List.map_cons, String.join_cons, ih, List.flatMap_cons, String.ofList_append]
    rfl

/-! ### Between two lines -/

theorem readFrom_open? {cs rest : List Char} {v? : Option Value}
    (h : r.readFrom false cs = ⟨r', rest, .ok v?⟩) (ds : List Char) :
    (sequence (rest ++ ds)).open? = (sequence (cs ++ ds)).open? := by
  have hscan := scan_append true cs ds
  fun_induction readFrom false r cs with
  | case1 r cs hend =>
    obtain ⟨-, rfl, -⟩ := Reading.mk.inj h
    rw [hend] at hscan
    rw [sequence_eq (cs ++ ds), hscan, ← sequence_eq, List.nil_append]
  | case2 r cs here hend | case3 r cs here hend =>
    obtain ⟨-, rfl, -⟩ := Reading.mk.inj h
    rw [hend] at hscan
    rw [sequence_eq (cs ++ ds), hscan, ← sequence_eq]
  | case4 r cs here hend => cases h
  | case5 r cs t here rest' hend fault r₁ hacc => cases h
  | case6 r cs t here rest' hend r₁ hacc ih =>
    rw [hend] at hscan
    rw [sequence_eq (cs ++ ds), hscan]
    exact ih h (scan_append true rest' ds)
  | case7 r cs t here rest' hend v r₁ hacc =>
    obtain ⟨-, rfl, -⟩ := Reading.mk.inj h
    rw [hend] at hscan
    rw [sequence_eq (cs ++ ds), hscan]

/-- What a reader leaves unread ends inside a quoted text, with whatever follows it, exactly if the
text does. -/
theorem readMany_open? {cs : List Char} (h : (r.readMany false cs).fault? = none) (ds : List Char) :
    (sequence ((r.readMany false cs).rest ++ ds)).open? = (sequence (cs ++ ds)).open? := by
  fun_induction readMany false r cs with
  | case1 r cs r₁ rest v hfirst =>
    rename_i ih
    exact (ih h).trans (readFrom_open? (r := { r with pending := none }) hfirst ds)
  | case2 r cs r₁ rest hfirst => exact readFrom_open? (r := { r with pending := none }) hfirst ds
  | case3 r cs r₁ rest fault hfirst => cases h

/-- A reader that is done with some lines, or has a quoted text among them that has not ended. -/
def BetweenLines (r : Reader) (rest : List Char) : Prop :=
  (r.pending = none ∧ rest = []) ∨ scan true rest = .openString rest

theorem BetweenLines.done {rest : List Char} (h : BetweenLines r rest)
    (hopen : (sequence rest).open? = none) : r.pending = none ∧ rest = [] := by
  rcases h with h | h
  · exact h
  · rw [sequence_eq, h] at hopen
    cases hopen

theorem readMany_betweenLines {front line : List Char}
    (h : (r.readMany false (front ++ (line ++ ['\n']))).fault? = none) :
    BetweenLines (r.readMany false (front ++ (line ++ ['\n']))).reader
      (r.readMany false (front ++ (line ++ ['\n']))).rest := by
  have hsuffix := readMany_suffix false r (front ++ (line ++ ['\n']))
  obtain ⟨hstopped, -⟩ := readMany_stopped h
  generalize (r.readMany false (front ++ (line ++ ['\n']))).rest = rest at hstopped hsuffix ⊢
  rw [← List.append_assoc] at hsuffix
  cases hstopped with
  | finished hpending => exact .inl ⟨hpending, rfl⟩
  | openString hpending hscan => exact .inr (scan_true_of_openString hscan)
  | held hpending hscan =>
    rcases List.suffix_concat_iff.1 hsuffix with hnil | ⟨front, hfront, -⟩
    · rw [hnil] at hscan
      cases hscan
    · rw [hfront] at hscan
      exact absurd hscan (scan_ne_held_of_newline _ _ _)

/-- Between two lines there is no datum that the end of the text would complete. -/
theorem BetweenLines.values_eq_nil {s : Stream} (h : BetweenLines r s.rest) :
    (r.readPieces s []).values = [] := by
  rw [readPieces_nil, readMany_eq, readChars, readFrom_eq]
  rcases h with ⟨-, hnil⟩ | hscan
  · rw [hnil]
    rfl
  · rw [hscan]

/-- A line of spaces outside a quoted text changes nothing. -/
theorem readMany_spaces (hpending : r.pending = none) {line : List Char}
    (hline : line.all isSpace = true) :
    r.readMany false (line ++ ['\n']) = ⟨[], r, [], none⟩ := by
  have hspaces : ∀ c ∈ line ++ ['\n'], isSpace c = true :=
    List.forall_mem_append.2 ⟨List.all_eq_true.1 hline, List.forall_mem_singleton.2 rfl⟩
  rw [readMany_eq, readChars_eq_readFrom hpending, readFrom_eq, scan_spaces false hspaces]

end Reader

end Lisplet
