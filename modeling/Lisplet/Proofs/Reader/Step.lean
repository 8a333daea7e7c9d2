import Lisplet.Token.Suffix
import Lisplet.Reader.Read

/-! The steps of a reading: what a token leaves alone in the reader, and what reading one datum or many
does at the next token of the text. -/

namespace Lisplet

/-- The reader after a token. -/
def Accepted.reader : Accepted → Reader
  | .refused _ r => r
  | .ongoing r => r
  | .datum _ r => r

namespace Reader

theorem attach_pending (r : Reader) (v : Value) : (r.attach v).reader.pending = r.pending := by
  simp only [attach]
  split <;> rfl

theorem atom_pending (r : Reader) (text : String) : (r.atom text).2.pending = r.pending := by
  simp only [atom]
  split
  · rfl
  · split <;> rfl

/-- A token does not touch what was noted about the end of the text. -/
theorem accept_pending (r : Reader) (t : Token) : (r.accept t).reader.pending = r.pending := by
  cases t with
  | openList => rfl
  | quote kind => rfl
  | string text => exact attach_pending _ _
  | atom text => exact (attach_pending _ _).trans (atom_pending r text)
  | closeList =>
    simp only [accept]
    split
    · exact attach_pending _ _
    · rfl
    · rfl

/-- One step of reading, by what the text begins with. -/
theorem readFrom_eq (final : Bool) (r : Reader) (cs : List Char) :
    r.readFrom final cs =
      match Token.scan final cs with
      | .finished => ⟨r, [], .ok none⟩
      | .held here => ⟨{ r with pending := some .token }, here, .ok none⟩
      | .openString here => ⟨{ r with pending := some .string }, here, .ok none⟩
      | .unreadable here => ⟨{ r with failed := true }, here, .error .unreadable⟩
      | .found t here rest =>
        match r.accept t with
        | .refused fault r => ⟨r, here, .error fault⟩
        | .ongoing r => r.readFrom final rest
        | .datum v r => ⟨r, rest, .ok (some v)⟩ := by
  rw [readFrom]
  split
  case _ h | _ h | _ h | _ h => rw [h]
  case _ t here rest h =>
    cases hacc : r.accept t <;> simp only [h, hacc]

theorem readChars_eq_readFrom {r : Reader} (h : r.pending = none) (final : Bool)
    (cs : List Char) : r.readChars final cs = r.readFrom final cs := by
  simp only [readChars, ← h]

/-- The text left unread is an end of the text. -/
theorem readFrom_suffix (final : Bool) (r : Reader) (cs : List Char) :
    (r.readFrom final cs).rest <:+ cs := by
  fun_induction readFrom final r cs with
  | case1 => exact List.nil_suffix
  | case2 r cs here hscan | case3 r cs here hscan | case4 r cs here hscan =>
    exact Token.scan_suffix hscan (by simp [Token.Scan.places])
  | case5 r cs t here rest hscan fault r' hacc =>
    exact Token.scan_suffix hscan (by simp [Token.Scan.places])
  | case6 r cs t here rest hscan r' hacc ih =>
    exact ih.trans (Token.scan_suffix hscan (by simp [Token.Scan.places]))
  | case7 r cs t here rest hscan v r' hacc =>
    exact Token.scan_suffix hscan (by simp [Token.Scan.places])

theorem readMany_eq (final : Bool) (r : Reader) (cs : List Char) :
    r.readMany final cs =
      match r.readChars final cs with
      | ⟨r', rest, .ok (some v)⟩ =>
        { r'.readMany final rest with values := v :: (r'.readMany final rest).values }
      | ⟨r', rest, .ok none⟩ => ⟨[], r', rest, none⟩
      | ⟨r', rest, .error fault⟩ => ⟨[], r', rest, some fault⟩ := by
  rw [readMany]
  split
  case _ h | _ h | _ h => rw [h]

theorem readMany_suffix (final : Bool) (r : Reader) (cs : List Char) :
    (r.readMany final cs).rest <:+ cs := by
  fun_induction readMany final r cs with
  | case1 r cs r' rest v h more ih =>
    have hrest : (r.readChars final cs).rest <:+ cs := readFrom_suffix _ _ _
    rw [h] at hrest
    exact ih.trans hrest
  | case2 r cs r' rest h | case3 r cs r' rest fault h =>
    have hrest : (r.readChars final cs).rest <:+ cs := readFrom_suffix _ _ _
    rw [h] at hrest
    exact hrest

theorem read_eq_ok {final : Bool} {r r' : Reader} {s s' : Stream} {v? : Option Value}
    (h : r.read final s = (.ok v?, r', s')) :
    r.readChars final s.rest = ⟨r', s'.rest, .ok v?⟩ := by
  simp only [read] at h
  rcases hread : r.readChars final s.rest with ⟨r₁, rest, fault | w⟩
  · rw [hread] at h
    cases h
  · rw [hread] at h
    obtain ⟨hw, rfl, rfl⟩ := by simpa only [Prod.mk.injEq] using h
    obtain rfl := Except.ok.inj hw
    rfl

theorem read_eq_error {final : Bool} {r r' : Reader} {s s' : Stream} {e : ReadError}
    (h : r.read final s = (.error e, r', s')) :
    r.readChars final s.rest = ⟨r', s'.rest, .error e.fault⟩ ∧ e.offset = s'.offset := by
  simp only [read] at h
  rcases hread : r.readChars final s.rest with ⟨r₁, rest, fault | w⟩
  · rw [hread] at h
    obtain ⟨he, rfl, rfl⟩ := by simpa only [Prod.mk.injEq] using h
    obtain rfl := Except.error.inj he
    exact ⟨rfl, rfl⟩
  · rw [hread] at h
    cases h

end Reader

end Lisplet
