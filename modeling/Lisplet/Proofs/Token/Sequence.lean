import Lisplet.Proofs.Token.Append
import Lisplet.Token.Suffix

/-! The tokens of a complete text, in order, each with the text from it on.  A text is tokenised
completely unless it ends inside a quoted text. -/

namespace Lisplet.Token

/-- A token and the text from it on. -/
structure Placed where
  token : Token
  here : List Char

/-- What a complete text is made of. -/
structure Tokenised where
  placed : List Placed
  /-- The quoted text without an end that follows the tokens, from its opening quote on. -/
  open? : Option (List Char)

/-- The tokens of a complete text. -/
def sequence (cs : List Char) : Tokenised :=
  match _ : scan true cs with
  | .found t here rest =>
    let more := sequence rest
    { more with placed := ⟨t, here⟩ :: more.placed }
  | .openString here => ⟨[], some here⟩
  | _ => ⟨[], none⟩
termination_by cs.length
decreasing_by exact scan_found_length (by assumption)

/-- The tokens without their places. -/
def Tokenised.tokens (s : Tokenised) : List Token := s.placed.map Placed.token

/-- At the end of a complete text nothing is held back. -/
theorem scan_true_ne_held (cs here : List Char) : scan true cs ≠ .held here := by
  intro h
  simp only [scan] at h
  split at h
  · simp at h
  · simp at h
  · split at h <;> simp at h

/-- The tokens of a text are its next token and those of the rest. -/
theorem sequence_eq (cs : List Char) :
    sequence cs =
      match scan true cs with
      | .found t here rest => ⟨⟨t, here⟩ :: (sequence rest).placed, (sequence rest).open?⟩
      | .openString here => ⟨[], some here⟩
      | _ => ⟨[], none⟩ := by
  rw [sequence]
  split
  case _ h | _ h => rw [h]
  case _ hfound hopen => cases h : scan true cs <;> simp_all

/-- Tokens are found in the text. -/
theorem sequence_suffix (cs : List Char) :
    (∀ p ∈ (sequence cs).placed, p.here <:+ cs) ∧
      ∀ here, (sequence cs).open? = some here → here <:+ cs := by
  fun_induction sequence cs with
  | case1 cs t here rest h more ih =>
    have hhere : here <:+ cs := scan_suffix h (by simp [Scan.places])
    have hrest : rest <:+ cs := scan_suffix h (by simp [Scan.places])
    refine ⟨fun p hp => ?_, fun place hplace => (ih.2 place hplace).trans hrest⟩
    rcases List.mem_cons.1 hp with rfl | hp
    · exact hhere
    · exact (ih.1 p hp).trans hrest
  | case2 cs here h =>
    refine ⟨by simp, fun place hplace => ?_⟩
    obtain rfl := Option.some.inj hplace
    exact scan_suffix h (by simp [Scan.places])
  | case3 => simp

end Lisplet.Token
