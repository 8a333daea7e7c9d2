import Std.Data.TreeMap
import Lisplet.Value

/-! Scopes: frames of variable bindings, each with a parent or none.  A frame's parent is always an
earlier frame, so the frames above a frame form a finite chain. -/

namespace Lisplet

/-- The bindings of one frame, in the order of the names, and the frame around it. -/
structure Frame where
  bindings : Std.TreeMap String Value
  parent : Option FrameId

/-- All frames, in the order in which they were made. -/
structure Scopes where
  frames : Array Frame
  parent_lt : ∀ f p : FrameId, frames[f]?.bind Frame.parent = some p → p < f

namespace Scopes

/-- No frames at all. -/
def empty : Scopes := ⟨#[], by simp⟩

/-- The frame around a frame. -/
def parent? (s : Scopes) (f : FrameId) : Option FrameId := s.frames[f]?.bind Frame.parent

/-- The names bound in a frame itself, in order. -/
def names (s : Scopes) (f : FrameId) : List String :=
  match s.frames[f]? with
  | some frame => frame.bindings.keys
  | none => []

/-- What a frame itself binds a name to. -/
def get? (s : Scopes) (f : FrameId) (name : String) : Option Value :=
  s.frames[f]?.bind fun frame => frame.bindings[name]?

/-- A frame and the frames around it, innermost first. -/
def chain (s : Scopes) (f : FrameId) : List FrameId :=
  match _ : s.parent? f with
  | some p => f :: s.chain p
  | none => [f]
termination_by f
decreasing_by exact s.parent_lt f p (by assumption)

/-- The number of frames around a frame. -/
def depth (s : Scopes) (f : FrameId) : Nat := (s.chain f).length - 1

/-- The innermost frame of the chain that binds a name. -/
def binder? (s : Scopes) (f : FrameId) (name : String) : Option FrameId :=
  (s.chain f).find? fun g => (s.get? g name).isSome

/-- What a name means in a frame: its binding in the innermost frame of the chain that has one. -/
def find? (s : Scopes) (f : FrameId) (name : String) : Option Value :=
  (s.chain f).findSome? fun g => s.get? g name

/-- Adds a frame without bindings inside an earlier one, or inside none. -/
def push (s : Scopes) (parent : Option FrameId) (h : ∀ p, parent = some p → p < s.frames.size) :
    Scopes where
  frames := s.frames.push ⟨∅, parent⟩
  parent_lt := by
    intro f p hp
    rw [Array.getElem?_push] at hp
    split at hp
    · next hf => exact hf ▸ h p hp
    · exact s.parent_lt f p hp

/-- A new frame inside none. -/
def create (s : Scopes) : FrameId × Scopes := (s.frames.size, s.push none (by simp))

/-- A new frame inside the given one. -/
def derive (s : Scopes) (f : FrameId) : FrameId × Scopes :=
  if h : f < s.frames.size then (s.frames.size, s.push (some f) (by simp [h])) else s.create

/-- Binds a name in a frame itself. -/
def set (s : Scopes) (f : FrameId) (name : String) (v : Value) : Scopes where
  frames := s.frames.modify f fun frame => { frame with bindings := frame.bindings.insert name v }
  parent_lt := by
    intro g p hp
    refine s.parent_lt g p ?_
    rw [Array.getElem?_modify] at hp
    split at hp
    · simpa [Option.bind_map, Function.comp_def] using hp
    · exact hp

/-- Binds a name anew in a frame itself, if it is bound there. -/
def update? (s : Scopes) (f : FrameId) (name : String) (v : Value) : Option Scopes :=
  if (s.get? f name).isSome then some (s.set f name v) else none

/-- Binds a name anew in the innermost frame of the chain that binds it, if there is one. -/
def assign? (s : Scopes) (f : FrameId) (name : String) (v : Value) : Option Scopes :=
  (s.binder? f name).map fun g => s.set g name v

@[simp] theorem parent?_set (s : Scopes) (f g : FrameId) (name : String) (v : Value) :
    (s.set f name v).parent? g = s.parent? g := by
  simp only [parent?, set, Array.getElem?_modify]
  split
  · rw [Option.bind_map]
    rfl
  · rfl

theorem chain_of_parent {s : Scopes} {f p : FrameId} (h : s.parent? f = some p) :
    s.chain f = f :: s.chain p := by
  rw [chain]
  split
  · next q hq => rw [Option.some.inj (hq.symm.trans h)]
  · next hn => rw [h] at hn; cases hn

theorem chain_of_root {s : Scopes} {f : FrameId} (h : s.parent? f = none) : s.chain f = [f] := by
  rw [chain]
  split
  · next q hq => rw [h] at hq; cases hq
  · rfl

@[simp] theorem chain_set (s : Scopes) (f g : FrameId) (name : String) (v : Value) :
    (s.set f name v).chain g = s.chain g := by
  induction g using Nat.strongRecOn with
  | ind g ih =>
    cases hp : s.parent? g with
    | none => rw [chain_of_root hp, chain_of_root (by rw [parent?_set, hp])]
    | some p =>
      rw [chain_of_parent hp, chain_of_parent (by rw [parent?_set, hp]),
        ih p (s.parent_lt g p hp)]

/-- A binding changes what its own frame says of its own name and nothing else. -/
theorem get?_set (s : Scopes) (f g : FrameId) (name other : String) (v : Value) :
    (s.set f name v).get? g other =
      if f = g ∧ name = other ∧ f < s.frames.size then some v else s.get? g other := by
  simp only [get?, set, Array.getElem?_modify]
  by_cases hf : f = g
  · subst hf
    by_cases hs : f < s.frames.size
    · simp only [if_true, Array.getElem?_eq_getElem hs, Option.map_some, Option.bind_some,
        Std.TreeMap.getElem?_insert, Std.LawfulEqOrd.compare_eq_iff_eq, hs, and_true, true_and]
    · simp [hs]
  · simp [hf]

/-- The names of a frame are those it binds. -/
theorem mem_names_iff (s : Scopes) (f : FrameId) (name : String) :
    name ∈ s.names f ↔ (s.get? f name).isSome = true := by
  unfold names get?
  cases s.frames[f]? with
  | none => simp
  | some frame => exact Std.TreeMap.mem_keys.trans Std.TreeMap.mem_iff_isSome_getElem?

/-- The names of a frame are in order and without repetition. -/
theorem names_ordered (s : Scopes) (f : FrameId) :
    (s.names f).Pairwise fun a b => compare a b = .lt := by
  unfold names
  split
  · exact Std.TreeMap.ordered_keys
  · exact List.Pairwise.nil

/-- A name means what the innermost frame that binds it says. -/
theorem find?_eq_binder? (s : Scopes) (f : FrameId) (name : String) :
    s.find? f name = (s.binder? f name).bind fun g => s.get? g name := by
  unfold find? binder?
  induction s.chain f with
  | nil => rfl
  | cons g gs ih =>
    rw [List.findSome?_cons, List.find?_cons]
    cases h : s.get? g name with
    | none => simpa [h] using ih
    | some v => simp [h]

/-- A short description of a frame. -/
def describe (s : Scopes) (f : FrameId) : String :=
  "Environment \x7b bindings: " ++ toString (s.names f).length ++ ", depth: " ++
    toString (s.depth f) ++ " \x7d"

end Scopes

end Lisplet
