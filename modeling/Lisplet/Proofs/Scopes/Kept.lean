import Lisplet.Scopes
import Mathlib.Data.List.Sort

/-! What a change of the scopes leaves as it is.  `Kept n env` speaks of the first `n` frames: their
parents stay, their names stay bound, and none but `env` gets a new name. -/

namespace Lisplet.Scopes

/-- Frames with the same names list them in the same order. -/
theorem names_ext {s t : Scopes} {f : FrameId} (h : ∀ name, name ∈ t.names f ↔ name ∈ s.names f) :
    t.names f = s.names f := by
  have : Std.Irrefl fun a b : String => compare a b = .lt :=
    ⟨fun a ha => by rw [Std.ReflOrd.compare_self] at ha; cases ha⟩
  have : Std.Antisymm fun a b : String => compare a b = .lt :=
    ⟨fun a b hab hba => by
      rw [Std.OrientedOrd.eq_swap, hba] at hab
      cases hab⟩
  exact (names_ordered t f).eq_of_mem_iff (names_ordered s f) h

theorem mem_names_set {s : Scopes} {f g : FrameId} {name other : String} {v : Value} :
    other ∈ (s.set f name v).names g ↔
      (f = g ∧ name = other ∧ f < s.frames.size) ∨ other ∈ s.names g := by
  rw [mem_names_iff, mem_names_iff, get?_set]
  split
  · next h => exact iff_of_true rfl (.inl h)
  · next h => exact (or_iff_right h).symm

@[simp] theorem size_set (s : Scopes) (f : FrameId) (name : String) (v : Value) :
    (s.set f name v).frames.size = s.frames.size := by
  simp [set]

/-- Of the first `n` frames, each keeps its parent and its names, and none but `env` gets a name. -/
structure Kept (n : Nat) (env : FrameId) (s t : Scopes) : Prop where
  size : s.frames.size ≤ t.frames.size
  parent : ∀ g < n, t.parent? g = s.parent? g
  bound : ∀ g < n, ∀ name ∈ s.names g, name ∈ t.names g
  names : ∀ g < n, g ≠ env → t.names g = s.names g

variable {n : Nat} {env : FrameId} {s t u : Scopes}

theorem Kept.refl (n : Nat) (env : FrameId) (s : Scopes) : Kept n env s s :=
  ⟨Nat.le_refl _, fun _ _ => rfl, fun _ _ _ h => h, fun _ _ _ => rfl⟩

theorem Kept.trans (h : Kept n env s t) (h' : Kept n env t u) : Kept n env s u :=
  ⟨Nat.le_trans h.size h'.size, fun g hg => (h'.parent g hg).trans (h.parent g hg),
    fun g hg name hname => h'.bound g hg name (h.bound g hg name hname),
    fun g hg hne => (h'.names g hg hne).trans (h.names g hg hne)⟩

/-- A frame that is not among the first `n` may get any names. -/
theorem Kept.outside {frame : FrameId} (h : Kept n frame s t) (hframe : n ≤ frame) (env : FrameId) :
    Kept n env s t :=
  ⟨h.size, h.parent, h.bound, fun g hg _ => h.names g hg (by omega)⟩

theorem kept_set (n : Nat) (env : FrameId) (s : Scopes) (name : String) (v : Value) :
    Kept n env s (s.set env name v) := by
  refine ⟨by simp, fun g _ => parent?_set .., fun g _ other h => mem_names_set.2 (.inr h), ?_⟩
  intro g _ hne
  refine names_ext fun other => ?_
  rw [mem_names_set]
  exact or_iff_right fun h => hne h.1.symm

/-- Binding a name anew where it is bound adds no name anywhere. -/
theorem kept_assign {f : FrameId} {name : String} {v : Value} (n : Nat) (env : FrameId)
    (h : s.assign? f name v = some t) : Kept n env s t := by
  obtain ⟨g, hg, rfl⟩ := Option.map_eq_some_iff.1 h
  have hbound : name ∈ s.names g := by
    rw [mem_names_iff]
    simpa using List.find?_some hg
  refine ⟨by simp, fun f _ => parent?_set .., fun f _ other h => mem_names_set.2 (.inr h), ?_⟩
  intro f _ _
  refine names_ext fun other => ?_
  rw [mem_names_set]
  exact or_iff_right_of_imp fun ⟨hf, hother, _⟩ => hf ▸ hother ▸ hbound

theorem frames_derive (s : Scopes) (f : FrameId) :
    ∃ parent, (s.derive f).2.frames = s.frames.push ⟨∅, parent⟩ ∧ (s.derive f).1 = s.frames.size := by
  unfold derive
  split
  · exact ⟨some f, rfl, rfl⟩
  · exact ⟨none, rfl, rfl⟩

/-- A new frame changes nothing in those before it. -/
theorem kept_derive (hn : n ≤ s.frames.size) (env f : FrameId) : Kept n env s (s.derive f).2 := by
  obtain ⟨parent, hframes, -⟩ := frames_derive s f
  have hget : ∀ g < n, (s.derive f).2.frames[g]? = s.frames[g]? := by
    intro g hg
    rw [hframes, Array.getElem?_push, if_neg (by omega)]
  have hnames : ∀ g < n, (s.derive f).2.names g = s.names g := by
    intro g hg
    simp only [Scopes.names, hget g hg]
  refine ⟨by simp [hframes], fun g hg => ?_, fun g hg name h => ?_, fun g hg _ => hnames g hg⟩
  · simp only [parent?, hget g hg]
  · rwa [hnames g hg]

end Lisplet.Scopes
