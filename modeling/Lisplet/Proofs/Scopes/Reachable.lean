import Lisplet.Scopes
import Mathlib.Data.List.Find

/-! Which frames an expression can lead to.  `Reachable` follows the frames around a frame and the
frames that the procedures in its bindings close over.  A set of frames that is `Closed` under both
is never left by looking a name up, binding it or making a frame, and `replace` says what it means
that the bindings of a frame outside the set play no part: other bindings there change nothing else.
-/

namespace Lisplet

namespace Value

/-- The frames that the procedures in a value close over, also those inside the bodies of
procedures. -/
def homes : Value → List FrameId
  | .pair _ head tail => head.homes ++ tail.homes
  | .lambda _ _ body home => home :: body.homes
  | .macroProc _ _ body => body.homes
  | _ => []

/-- A value in which no procedure closes over a frame outside the set. -/
def Within (V : FrameId → Prop) (v : Value) : Prop := ∀ f ∈ v.homes, V f

variable {V : FrameId → Prop}

theorem within_of_homes {v : Value} (h : v.homes = []) : v.Within V := by
  simp [Within, h]

theorem within_pair_iff {id : Ident} {head tail : Value} :
    (Value.pair id head tail).Within V ↔ head.Within V ∧ tail.Within V := by
  simp only [Within, homes, List.mem_append, or_imp, forall_and]

theorem within_list {items : List Value} (hitems : ∀ v ∈ items, v.Within V) (s : Supply) :
    (list items s).1.Within V := by
  induction items with
  | nil => exact within_of_homes rfl
  | cons v vs ih =>
    obtain ⟨hv, hvs⟩ := List.forall_mem_cons.1 hitems
    rw [list_cons]
    exact within_pair_iff.2 ⟨hv, ih hvs⟩

end Value

namespace Scopes

/-- The frames that evaluating an expression in a frame can lead to. -/
inductive Reachable (s : Scopes) (env : FrameId) (expr : Value) : FrameId → Prop
  | env : Reachable s env expr env
  | expr {f : FrameId} (home : f ∈ expr.homes) : Reachable s env expr f
  | parent {f p : FrameId} (inner : Reachable s env expr f) (around : s.parent? f = some p) :
      Reachable s env expr p
  | binding {f g : FrameId} {name : String} {v : Value} (frame : Reachable s env expr f)
      (bound : s.get? f name = some v) (home : g ∈ v.homes) : Reachable s env expr g

/-- The scopes in which frame `g` has other bindings. -/
def replace (s : Scopes) (g : FrameId) (bindings : Std.TreeMap String Value) : Scopes where
  frames := s.frames.modify g fun frame => { frame with bindings }
  parent_lt := by
    intro f p hp
    refine s.parent_lt f p ?_
    rw [Array.getElem?_modify] at hp
    split at hp
    · simpa [Option.bind_map, Function.comp_def] using hp
    · exact hp

/-- No frame of the set leads out of it, and the frames still to be made are in it. -/
structure Closed (V : FrameId → Prop) (s : Scopes) : Prop where
  parent : ∀ f p, V f → s.parent? f = some p → V p
  bound : ∀ f name v, V f → s.get? f name = some v → v.Within V
  fresh : ∀ f, s.frames.size ≤ f → V f

variable {V : FrameId → Prop} {s t : Scopes} {f g : FrameId} {name : String}
  {bindings : Std.TreeMap String Value}

theorem ext_frames (h : ∀ i : Nat, s.frames[i]? = t.frames[i]?) : s = t := by
  obtain ⟨frames, hs⟩ := s
  obtain ⟨frames', ht⟩ := t
  obtain rfl : frames = frames' := Array.ext_getElem? h
  rfl

/-! ### What a closed set keeps -/

theorem Closed.chain (h : Closed V s) (hf : V f) : ∀ i ∈ s.chain f, V i := by
  induction f using Nat.strongRecOn with
  | ind f ih =>
    cases hp : s.parent? f with
    | none =>
      rw [chain_of_root hp]
      exact List.forall_mem_singleton.2 hf
    | some p =>
      rw [chain_of_parent hp]
      exact List.forall_mem_cons.2 ⟨hf, ih p (s.parent_lt f p hp) (h.parent f p hf hp)⟩

theorem Closed.find? {v : Value} (h : Closed V s) (hf : V f) (hfind : s.find? f name = some v) :
    v.Within V := by
  obtain ⟨i, hi, hget⟩ := List.exists_of_findSome?_eq_some hfind
  exact h.bound i name v (h.chain hf i hi) hget

theorem Closed.binder? (h : Closed V s) (hf : V f) (hbinder : s.binder? f name = some g) : V g :=
  h.chain hf g (List.mem_of_find?_eq_some hbinder)

theorem Closed.set {v : Value} (h : Closed V s) (hv : v.Within V) (f : FrameId) (name : String) :
    Closed V (s.set f name v) := by
  refine ⟨fun i p hi hp => h.parent i p hi (by rwa [parent?_set] at hp), ?_, ?_⟩
  · intro i other w hi hget
    rw [get?_set] at hget
    split at hget
    · exact Option.some.inj hget ▸ hv
    · exact h.bound i other w hi hget
  · intro i hi
    exact h.fresh i (by simpa [Scopes.set] using hi)

theorem Closed.lt_size (h : Closed V s) (hg : ¬ V g) : g < s.frames.size :=
  Nat.lt_of_not_le fun hle => hg (h.fresh g hle)

theorem getElem?_push (s : Scopes) (parent : Option FrameId)
    (h : ∀ p, parent = some p → p < s.frames.size) (i : Nat) :
    (s.push parent h).frames[i]? = if i = s.frames.size then some ⟨∅, parent⟩ else s.frames[i]? :=
  Array.getElem?_push

theorem Closed.push {parent : Option FrameId} (h : Closed V s)
    (hp : ∀ p, parent = some p → p < s.frames.size) (hparent : ∀ p, parent = some p → V p) :
    Closed V (s.push parent hp) := by
  refine ⟨?_, ?_, ?_⟩
  · intro i p hi hip
    simp only [parent?, getElem?_push] at hip
    split at hip
    · exact hparent p hip
    · exact h.parent i p hi hip
  · intro i name v hi hget
    simp only [get?, getElem?_push] at hget
    split at hget
    · simp at hget
    · exact h.bound i name v hi hget
  · intro i hi
    have hsize : (s.push parent hp).frames.size = s.frames.size + 1 := Array.size_push _
    exact h.fresh i (by omega)

theorem Closed.derive (h : Closed V s) (hf : V f) :
    V (s.derive f).1 ∧ Closed V (s.derive f).2 := by
  unfold Scopes.derive
  split
  · next hlt =>
    refine ⟨h.fresh _ (Nat.le_refl _), h.push (by simp [hlt]) ?_⟩
    rintro p ⟨rfl⟩
    exact hf
  · exact ⟨h.fresh _ (Nat.le_refl _), h.push (by simp) nofun⟩

/-! ### Bindings outside a closed set -/

theorem getElem?_replace (s : Scopes) (g : FrameId) (bindings : Std.TreeMap String Value)
    (i : Nat) : (s.replace g bindings).frames[i]? =
      if g = i then s.frames[i]?.map ({ · with bindings }) else s.frames[i]? :=
  Array.getElem?_modify

@[simp] theorem size_replace (s : Scopes) (g : FrameId) (bindings : Std.TreeMap String Value) :
    (s.replace g bindings).frames.size = s.frames.size := by
  simp [replace]

@[simp] theorem parent?_replace (s : Scopes) (g f : FrameId)
    (bindings : Std.TreeMap String Value) :
    (s.replace g bindings).parent? f = s.parent? f := by
  simp only [parent?, getElem?_replace]
  split
  · rw [Option.bind_map]
    rfl
  · rfl

theorem get?_replace (hne : g ≠ f) : (s.replace g bindings).get? f name = s.get? f name := by
  simp only [get?, getElem?_replace, if_neg hne]

theorem set_replace {v : Value} (hne : g ≠ f) :
    (s.replace g bindings).set f name v = (s.set f name v).replace g bindings := by
  refine ext_frames fun i => ?_
  simp only [set, replace, Array.getElem?_modify]
  by_cases hgi : g = i
  · have hfi : f ≠ i := fun hfi => hne (hgi.trans hfi.symm)
    simp only [if_pos hgi, if_neg hfi]
  · simp only [if_neg hgi]

@[simp] theorem chain_replace (s : Scopes) (g f : FrameId) (bindings : Std.TreeMap String Value) :
    (s.replace g bindings).chain f = s.chain f := by
  induction f using Nat.strongRecOn with
  | ind f ih =>
    cases hp : s.parent? f with
    | none => rw [chain_of_root hp, chain_of_root (by rw [parent?_replace, hp])]
    | some p =>
      rw [chain_of_parent hp, chain_of_parent (by rw [parent?_replace, hp]),
        ih p (s.parent_lt f p hp)]

/-- The bindings that a frame has already change nothing. -/
theorem replace_self {frame : Frame} (h : s.frames[g]? = some frame) :
    s.replace g frame.bindings = s := by
  refine ext_frames fun i => ?_
  rw [getElem?_replace]
  split
  · next hi =>
    subst hi
    rw [h]
    rfl
  · rfl

section

variable (h : Closed V s) (hg : ¬ V g)
include h hg

theorem binder?_replace (hf : V f) :
    (s.replace g bindings).binder? f name = s.binder? f name := by
  unfold binder?
  rw [chain_replace]
  refine List.find?_congr fun i hi => ?_
  have hne : g ≠ i := fun hgi => hg (hgi ▸ h.chain hf i hi)
  rw [get?_replace hne]

theorem find?_replace (hf : V f) : (s.replace g bindings).find? f name = s.find? f name := by
  rw [find?_eq_binder?, find?_eq_binder?, binder?_replace h hg hf]
  refine Option.bind_congr fun i hi => ?_
  exact get?_replace fun hgi => hg (hgi ▸ h.binder? hf hi)

theorem assign?_replace {v : Value} (hf : V f) :
    (s.replace g bindings).assign? f name v =
      (s.assign? f name v).map (·.replace g bindings) := by
  unfold assign?
  rw [binder?_replace h hg hf]
  cases hbinder : s.binder? f name with
  | none => rfl
  | some i => exact congrArg some (set_replace fun hgi => hg (hgi ▸ h.binder? hf hbinder))

theorem push_replace {parent : Option FrameId} (hp : ∀ p, parent = some p → p < s.frames.size)
    (hp' : ∀ p, parent = some p → p < (s.replace g bindings).frames.size) :
    (s.replace g bindings).push parent hp' = (s.push parent hp).replace g bindings := by
  have hlt := h.lt_size hg
  refine ext_frames fun i => ?_
  simp only [getElem?_push, getElem?_replace, size_replace]
  by_cases hi : i = s.frames.size
  · have hgi : g ≠ i := fun hgi => Nat.lt_irrefl _ (hgi ▸ hi ▸ hlt)
    simp only [if_pos hi, if_neg hgi]
  · simp only [if_neg hi]

theorem derive_replace :
    (s.replace g bindings).derive f = ((s.derive f).1, (s.derive f).2.replace g bindings) := by
  unfold derive
  simp only [size_replace]
  split
  · next hlt => exact Prod.ext rfl (push_replace h hg (by simp [hlt]) (by simp [hlt]))
  · exact Prod.ext (size_replace ..) (push_replace h hg (by simp) (by simp))

end

/-- The frames that can be reached, with those still to be made, are closed. -/
theorem closed_reachable (s : Scopes) (env : FrameId) (expr : Value) :
    Closed (fun f => Reachable s env expr f ∨ s.frames.size ≤ f) s := by
  have hmissing : ∀ f, s.frames.size ≤ f → s.frames[f]? = none := fun f hf =>
    Array.getElem?_eq_none hf
  refine ⟨?_, ?_, fun f hf => .inr hf⟩
  · rintro f p (hf | hf) hp
    · exact .inl (.parent hf hp)
    · simp [parent?, hmissing f hf] at hp
  · rintro f name v (hf | hf) hget i hi
    · exact .inl (.binding hf hget hi)
    · simp [get?, hmissing f hf] at hget

/-- A closed set that has the frame of an evaluation and the frames that the expression closes over
has all that can be reached. -/
theorem Reachable.mem {env : FrameId} {expr : Value} (h : Reachable s env expr f)
    (hclosed : Closed V s) (henv : V env) (hexpr : expr.Within V) : V f := by
  induction h with
  | env => exact henv
  | expr home => exact hexpr _ home
  | parent _ around ih => exact hclosed.parent _ _ ih around
  | binding _ bound home ih => exact hclosed.bound _ _ _ ih bound _ home

end Scopes

end Lisplet
