import Lisplet.Proofs.Reader.CleanCut
import Mathlib.Data.List.Basic

/-! Declaring the end of a text that came in pieces.  A host adds text to a stream and reads the datums
that are complete; `Drawn` keeps the text it has added and the datums it has received.  If the host
has read all there is, no token is held back and the end may be declared, then it has received every
datum of its text. -/

namespace Lisplet.Reader

open Token

/-- A host that began with the reader `r₀` and no text has added `text`, has received the datums `vs`
and has met no error. -/
inductive Drawn (r₀ : Reader) : String → List Value → Reader → Stream → Prop
  | start : Drawn r₀ "" [] r₀ .empty
  | push {text : String} {vs : List Value} {r : Reader} {s : Stream} (before : Drawn r₀ text vs r s)
      (more : String) : Drawn r₀ (text ++ more) vs r (s.push more)
  | read {text : String} {vs : List Value} {r r' : Reader} {s s' : Stream} {v? : Option Value}
      (before : Drawn r₀ text vs r s) (read : r.read false s = (.ok v?, r', s')) :
      Drawn r₀ text (vs ++ v?.toList) r' s'

variable {r₀ r r' : Reader} {text : String} {vs : List Value} {s s' : Stream}

/-- What the host receives in the end is what it has received and what it still will. -/
theorem Drawn.drain_push (h : Drawn r₀ text vs r s) (final : Bool) (more : String) :
    r₀.drain final (Stream.empty.push (text ++ more)) =
      { r.drain final (s.push more) with
        values := vs ++ (r.drain final (s.push more)).values } := by
  induction h generalizing more with
  | start => simp
  | push before piece ih => rw [String.append_assoc, ih, ← Stream.push_push]
  | @read text vs r r' s s' v? before hread ih =>
    have hpush := read_push final r s more
    rw [hread] at hpush
    rw [ih, Reader.drain_eq final r, hpush]
    cases v? with
    | none => simp [← Reader.drain_eq]
    | some v => simp

theorem finish_eq_ok_iff : r.finish s = .ok () ↔ r.missing? = none := by
  unfold finish finishAt
  cases r.missing? <;> simp

theorem finish_of_isClean (h : r.isClean = true) : r.finish s = .ok () := by
  obtain ⟨hstack, hpending, -⟩ := isClean_iff.1 h
  refine finish_eq_ok_iff.2 (missing?_eq_none_iff.2 ⟨?_, hstack⟩)
  rw [hpending]
  exact nofun

/-- The end is declared without looking at tokens that are held back and at errors before. -/
theorem isClean_of_finish (hheld : r.pending ≠ some .token) (hfailed : r.failed = false)
    (h : r.finish s = .ok ()) : r.isClean = true := by
  obtain ⟨hstring, hstack⟩ := missing?_eq_none_iff.1 (finish_eq_ok_iff.1 h)
  refine isClean_iff.2 ⟨hstack, ?_, hfailed⟩
  cases hpending : r.pending with
  | none => rfl
  | some held =>
    cases held with
    | token => exact absurd hpending hheld
    | string => exact absurd hpending hstring

/-- The states in which the end may be declared though the reader is not clean are those with nothing
begun in which a token is held back or something has gone wrong before. -/
theorem finish_agrees_iff :
    (r.finish s = .ok () ↔ r.isClean = true) ↔
      ¬ (r.stack = [] ∧ r.pending ≠ some .string ∧ (r.pending = some .token ∨ r.failed = true)) := by
  constructor
  · rintro hagree ⟨hstack, hstring, hbad⟩
    have hfinish : r.finish s = .ok () :=
      finish_eq_ok_iff.2 (missing?_eq_none_iff.2 ⟨hstring, hstack⟩)
    obtain ⟨-, hpending, hfailed⟩ := isClean_iff.1 (hagree.1 hfinish)
    rw [hpending, hfailed] at hbad
    exact hbad.elim nofun nofun
  · intro hnot
    refine ⟨fun hfinish => ?_, finish_of_isClean⟩
    obtain ⟨hstring, hstack⟩ := missing?_eq_none_iff.1 (finish_eq_ok_iff.1 hfinish)
    have hheld : r.pending ≠ some .token := fun h => hnot ⟨hstack, hstring, .inl h⟩
    have hfailed : r.failed ≠ true := fun h => hnot ⟨hstack, hstring, .inr h⟩
    exact isClean_of_finish hheld (Bool.eq_false_iff.2 hfailed) hfinish

theorem Drawn.failed (h : Drawn r₀ text vs r s) : r.failed = r₀.failed := by
  induction h with
  | start => rfl
  | push before more ih => exact ih
  | read before hread ih =>
    exact (readChars_failed (read_eq_ok hread)).trans ih

/-- With nothing left to read and nothing held back, the reader is where reading the whole text leaves
it. -/
theorem Drawn.readAll_of_isClean (h : Drawn r₀ text vs r s)
    (hread : r.read false s = (.ok none, r', s')) (hclean : r'.isClean = true) :
    r₀.readAll text = (.ok vs, r') := by
  obtain ⟨-, hpending, -⟩ := isClean_iff.1 hclean
  have hstopped := readFrom_stopped (r := { r with pending := none }) rfl (read_eq_ok hread)
  have hend : r'.readMany true s'.rest = ⟨[], r', [], none⟩ := by
    rw [hstopped.rest_eq_nil hpending, readMany_eq, readChars_eq_readFrom hpending, readFrom_eq]
    rfl
  have hdrain := (h.read hread).drain_push true ""
  have hsame : (s'.push "").rest = s'.rest := by simp [Stream.push]
  rw [String.append_empty, drain_eq_readMany true r', hsame, hend] at hdrain
  rw [readAll_eq_readPieces, readPieces, show Stream.ofText text = Stream.empty.push text from rfl,
    hdrain]
  simp [finish_of_isClean hclean, Except.map]

/-- The end of the text may be declared whenever the reader is clean, and only then, except if nothing
has begun and a token is held back or an error has occurred.  So a host that has added text and read
datums as it liked, and has then read until there was no other datum, has received every datum of its
text if the end may be declared and no token is held back. -/
theorem finish_iff_isClean (r : Reader) (s : Stream) :
    (r.isClean = true → r.finish s = .ok ()) ∧
      ((r.finish s = .ok () ↔ r.isClean = true) ↔
        ¬ (r.stack = [] ∧ r.pending ≠ some .string ∧
          (r.pending = some .token ∨ r.failed = true))) ∧
      ∀ (table : SymbolTable) (supply : Supply) (factories : List Factory) (text : String)
        (vs : List Value) (r₁ : Reader) (s₁ : Stream),
        let r₀ := { Reader.ofTable table supply with factories }
        Drawn r₀ text vs r₁ s₁ → r₁.read false s₁ = (.ok none, r, s) →
        r.pending ≠ some .token → r.finish s = .ok () →
        r.isClean = true ∧ r₀.readAll text = (.ok vs, r) := by
  refine ⟨finish_of_isClean, finish_agrees_iff, ?_⟩
  intro table supply factories text vs r₁ s₁ r₀ hdrawn hread hheld hfinish
  have hfailed : r.failed = false := (hdrawn.read hread).failed
  have hclean := isClean_of_finish hheld hfailed hfinish
  exact ⟨hclean, hdrawn.readAll_of_isClean hread hclean⟩

/-- A list that comes in two pieces. -/
theorem finish_iff_isClean_pieces :
    let r := ofTable (.empty 0) (.ofOwner 0)
    let first := r.read false (Stream.empty.push "(a ")
    let second := first.2.1.read false (first.2.2.push "b) ")
    let third := second.2.1.read false second.2.2
    let v : Value := .pair ⟨0, 1⟩ (.symbol ⟨0, 4, "a"⟩) (.pair ⟨0, 0⟩ (.symbol ⟨0, 5, "b"⟩) .nil)
    first.1 = .ok none ∧ second.1 = .ok (some v) ∧ third.1 = .ok none ∧
      third.2.1.pending ≠ some .token ∧ third.2.1.finish third.2.2 = .ok () ∧
      third.2.1.isClean = true ∧ r.readAll "(a b) " = (.ok [v], third.2.1) := by
  intro r first second third v
  have hfirst : first.1 = .ok none := by decide +kernel
  have hsecond : second.1 = .ok (some v) := by decide +kernel
  have hthird : third.1 = .ok none := by decide +kernel
  have hheld : third.2.1.pending ≠ some .token := by decide +kernel
  have hfinish : third.2.1.finish third.2.2 = .ok () := by decide +kernel
  have hdrawn : Drawn r "(a b) " [v] second.2.1 second.2.2 :=
    (((Drawn.start.push "(a ").read (Prod.ext hfirst rfl)).push "b) ").read (Prod.ext hsecond rfl)
  have hall := (finish_iff_isClean third.2.1 third.2.2).2.2 (.empty 0) (.ofOwner 0) [] "(a b) " [v]
    second.2.1 second.2.2 hdrawn (Prod.ext hthird rfl) hheld hfinish
  exact ⟨hfirst, hsecond, hthird, hheld, hfinish, hall⟩

/-- A comma or an atom at the end of what there is, is held back, and the end may be declared all the
same: nothing has been read, but the text is wrong or has a datum. -/
theorem finish_skips_held_token :
    let r := ofTable (.empty 0) (.ofOwner 0)
    ∀ text ∈ [",", "a"],
      let held := r.read false (.ofText text)
      held.1 = .ok none ∧ held.2.1.isClean = false ∧ held.2.1.finish held.2.2 = .ok () ∧
        (r.readAll text).1 ≠ .ok [] := by
  decide +kernel

end Lisplet.Reader
