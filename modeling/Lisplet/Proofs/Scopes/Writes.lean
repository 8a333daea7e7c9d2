import Lisplet.Proofs.Scopes.Kept
import Lisplet.Proofs.Scopes.Reachable

/-! What one write changes, as it is seen from every frame.  A name means the new value in the frames
whose innermost binder of the name is the frame that was written, and what it meant before in all
others.  `laws_after` says so of the scopes that any steps lead to, together with what holds of their
chains and names at any time. -/

namespace Lisplet.Scopes

/-- What a host does with frames.  A handle to a frame is its place, so that a copy of the handle is
the same handle. -/
inductive Step where
  | create
  | derive (f : FrameId)
  | set (f : FrameId) (name : String) (v : Value)
  /-- Binds a name anew in the frame itself. -/
  | update (f : FrameId) (name : String) (v : Value)
  /-- Binds a name anew where it is bound. -/
  | assign (f : FrameId) (name : String) (v : Value)

/-- Whether the step was taken, and the scopes after it. -/
def Step.run (s : Scopes) : Step → Bool × Scopes
  | .create => (true, s.create.2)
  | .derive f => (true, (s.derive f).2)
  | .set f name v => (true, s.set f name v)
  | .update f name v => ((s.update? f name v).isSome, (s.update? f name v).getD s)
  | .assign f name v => ((s.assign? f name v).isSome, (s.assign? f name v).getD s)

/-- The scopes after some steps. -/
def after (s : Scopes) (steps : List Step) : Scopes :=
  steps.foldl (fun s step => (step.run s).2) s

/-- The path leads from a frame to the frame around it, and so on to one that is inside none. -/
inductive Climbs (s : Scopes) : FrameId → List FrameId → Prop
  | root {f : FrameId} (top : s.parent? f = none) : Climbs s f [f]
  | inside {f p : FrameId} {path : List FrameId} (around : s.parent? f = some p)
      (outer : Climbs s p path) : Climbs s f (f :: path)

/-- What holds of frames at any time. -/
structure Orderly (s : Scopes) : Prop where
  climbs : ∀ f, s.Climbs f (s.chain f)
  acyclic : ∀ f, (s.chain f).Nodup
  depth : ∀ f p, s.parent? f = some p → s.depth f = s.depth p + 1
  increasing : ∀ f, (s.names f).Pairwise (· < ·)
  mem_names : ∀ f name, name ∈ s.names f ↔ (s.get? f name).isSome = true

/-- A value was written under a name in frame `w`: what each frame itself binds afterwards, and what
each name means in each frame. -/
structure Wrote (s t : Scopes) (w : FrameId) (name : String) (v : Value) : Prop where
  own : ∀ g other, t.get? g other = if g = w ∧ other = name then some v else s.get? g other
  seen : ∀ g other, t.find? g other =
    if other = name ∧ t.binder? g name = some w then some v else s.find? g other

variable {s t : Scopes} {f g w : FrameId} {name other : String} {v : Value}

/-! ### Chains -/

theorem climbs_chain (s : Scopes) (f : FrameId) : s.Climbs f (s.chain f) := by
  induction f using Nat.strongRecOn with
  | ind f ih =>
    cases hp : s.parent? f with
    | none =>
      rw [chain_of_root hp]
      exact .root hp
    | some p =>
      rw [chain_of_parent hp]
      exact .inside hp (ih p (s.parent_lt f p hp))

/-- A path never comes back, because each frame is younger than the one around it. -/
theorem Climbs.le {path : List FrameId} (h : s.Climbs f path) : ∀ i ∈ path, i ≤ f := by
  induction h with
  | root top => simp
  | @inside f p path around outer ih =>
    have hp := s.parent_lt f p around
    intro i hi
    rcases List.mem_cons.1 hi with rfl | hi
    · exact Nat.le_refl _
    · exact Nat.le_trans (ih i hi) (Nat.le_of_lt hp)

theorem Climbs.nodup {path : List FrameId} (h : s.Climbs f path) : path.Nodup := by
  induction h with
  | root top => simp
  | @inside f p path around outer ih =>
    refine List.nodup_cons.2 ⟨fun hf => ?_, ih⟩
    exact Nat.not_lt_of_le (outer.le f hf) (s.parent_lt f p around)

theorem chain_ne_nil (s : Scopes) (f : FrameId) : s.chain f ≠ [] := by
  have h := s.climbs_chain f
  cases hc : s.chain f with
  | nil => rw [hc] at h; cases h
  | cons i is => simp

theorem depth_of_parent {p : FrameId} (h : s.parent? f = some p) : s.depth f = s.depth p + 1 := by
  have hpos := List.length_pos_iff.2 (s.chain_ne_nil p)
  simp only [depth, chain_of_parent h, List.length_cons]
  omega

/-- Scopes that agree on the frames around frames agree on the chains. -/
theorem chain_congr (h : ∀ i ≤ f, t.parent? i = s.parent? i) : t.chain f = s.chain f := by
  induction f using Nat.strongRecOn with
  | ind f ih =>
    cases hp : s.parent? f with
    | none => rw [chain_of_root hp, chain_of_root ((h f (Nat.le_refl f)).trans hp)]
    | some p =>
      have hlt := s.parent_lt f p hp
      have houter : t.chain p = s.chain p :=
        ih p hlt fun i hi => h i (Nat.le_trans hi (Nat.le_of_lt hlt))
      rw [chain_of_parent hp, chain_of_parent ((h f (Nat.le_refl f)).trans hp), houter]

theorem orderly (s : Scopes) : s.Orderly where
  climbs := s.climbs_chain
  acyclic f := (s.climbs_chain f).nodup
  depth _ _ := depth_of_parent
  increasing f := (s.names_ordered f).imp compareOfLessAndEq_eq_lt.1
  mem_names := s.mem_names_iff

/-! ### Steps -/

theorem parent?_push {parent : Option FrameId} (h : ∀ p, parent = some p → p < s.frames.size) :
    (s.push parent h).parent? g = if g = s.frames.size then parent else s.parent? g := by
  simp only [parent?, getElem?_push]
  split
  · rfl
  · rfl

theorem derive_of_lt (h : f < s.frames.size) :
    s.derive f = (s.frames.size, s.push (some f) (by simp [h])) := dif_pos h

theorem derive_of_not_lt (h : ¬ f < s.frames.size) : s.derive f = s.create := dif_neg h

/-- No step takes a frame out of the frame it is in, and none takes a frame away. -/
theorem Step.kept (step : Step) (h : g < s.frames.size) :
    g < (step.run s).2.frames.size ∧ (step.run s).2.parent? g = s.parent? g := by
  have hpush : ∀ (parent : Option FrameId) (hp : ∀ p, parent = some p → p < s.frames.size),
      g < (s.push parent hp).frames.size ∧ (s.push parent hp).parent? g = s.parent? g := by
    intro parent hp
    rw [parent?_push, if_neg (Nat.ne_of_lt h)]
    refine ⟨?_, rfl⟩
    simp only [push, Array.size_push]
    exact Nat.lt_succ_of_lt h
  have hset : ∀ (f : FrameId) (name : String) (v : Value),
      g < (s.set f name v).frames.size ∧ (s.set f name v).parent? g = s.parent? g := by
    intro f name v
    exact ⟨by rwa [size_set], parent?_set ..⟩
  cases step with
  | create => exact hpush none (by simp)
  | derive f =>
    by_cases hf : f < s.frames.size
    · simp only [run, derive_of_lt hf]
      exact hpush (some f) (by simp [hf])
    · simp only [run, derive_of_not_lt hf]
      exact hpush none (by simp)
  | set f name v => exact hset f name v
  | update f name v =>
    simp only [run, update?]
    split
    · exact hset f name v
    · exact ⟨h, rfl⟩
  | assign f name v =>
    simp only [run, assign?]
    cases s.binder? f name with
    | none => exact ⟨h, rfl⟩
    | some w => exact hset w name v

theorem kept_after (s : Scopes) (steps : List Step) (h : g < s.frames.size) :
    g < (s.after steps).frames.size ∧ (s.after steps).parent? g = s.parent? g := by
  induction steps generalizing s with
  | nil => exact ⟨h, rfl⟩
  | cons step steps ih =>
    obtain ⟨hsize, hparent⟩ := step.kept h
    obtain ⟨hsize', hparent'⟩ := ih (step.run s).2 hsize
    exact ⟨hsize', hparent'.trans hparent⟩

theorem depth_after (s : Scopes) (steps : List Step) (h : g < s.frames.size) :
    (s.after steps).depth g = s.depth g := by
  have hchain : (s.after steps).chain g = s.chain g :=
    chain_congr fun i hi => (s.kept_after steps (Nat.lt_of_le_of_lt hi h)).2
  rw [depth, depth, hchain]

theorem derived (h : f < s.frames.size) :
    let (g, t) := s.derive f
    t.parent? g = some f ∧ t.names g = [] ∧ t.depth g = s.depth f + 1 := by
  rw [derive_of_lt h]
  have hparent : (s.push (some f) (by simp [h])).parent? s.frames.size = some f := by
    rw [parent?_push, if_pos rfl]
  have hchain : (s.push (some f) (by simp [h])).chain f = s.chain f := by
    refine chain_congr fun i hi => ?_
    rw [parent?_push, if_neg (Nat.ne_of_lt (Nat.lt_of_le_of_lt hi h))]
  refine ⟨hparent, ?_, ?_⟩
  · simp only [names, getElem?_push, if_true]
    rfl
  · rw [depth_of_parent hparent, depth, hchain, ← depth]

/-! ### Writes -/

/-- The first frame of a path that says something about a name, after a write. -/
theorem findSome?_set (h : w < s.frames.size) (path : List FrameId) :
    path.findSome? (fun i => (s.set w name v).get? i name) =
      if path.find? (fun i => ((s.set w name v).get? i name).isSome) = some w then some v
      else path.findSome? fun i => s.get? i name := by
  induction path with
  | nil => simp
  | cons i is ih =>
    rw [List.findSome?_cons, List.find?_cons, List.findSome?_cons]
    by_cases hi : w = i
    · subst hi
      have hget : (s.set w name v).get? w name = some v := by
        rw [get?_set, if_pos ⟨rfl, rfl, h⟩]
      simp [hget]
    · have hget : (s.set w name v).get? i name = s.get? i name := by
        rw [get?_set, if_neg fun hw => hi hw.1]
      rw [hget]
      cases hs : s.get? i name with
      | none => simpa [hs] using ih
      | some u => simp [Ne.symm hi]

theorem wrote_set (h : w < s.frames.size) (name : String) (v : Value) :
    Wrote s (s.set w name v) w name v := by
  refine ⟨fun g other => ?_, fun g other => ?_⟩
  · rw [get?_set]
    by_cases hg : g = w ∧ other = name
    · rw [if_pos hg, if_pos ⟨hg.1.symm, hg.2.symm, h⟩]
    · rw [if_neg hg, if_neg fun hw => hg ⟨hw.1.symm, hw.2.1.symm⟩]
  · rw [find?, find?, binder?, chain_set]
    by_cases hname : other = name
    · subst hname
      simpa only [true_and] using findSome?_set h (s.chain g)
    · rw [if_neg fun hw => hname hw.1]
      congr 1
      funext i
      rw [get?_set, if_neg fun hw => hname hw.2.1.symm]

theorem lt_size_of_get? (h : (s.get? f name).isSome = true) : f < s.frames.size := by
  by_contra hf
  have hnone : s.frames[f]? = none := Array.getElem?_eq_none (Nat.le_of_not_lt hf)
  simp [get?, hnone] at h

theorem get?_of_binder? (h : s.binder? f name = some w) : (s.get? w name).isSome = true := by
  simpa using List.find?_some h

/-- Binding anew where a name is bound already adds no name anywhere. -/
theorem names_set_of_bound (h : (s.get? w name).isSome = true) (g : FrameId) :
    (s.set w name v).names g = s.names g := by
  refine names_ext fun other => ?_
  rw [mem_names_set]
  refine or_iff_right_of_imp ?_
  rintro ⟨rfl, rfl, -⟩
  exact (s.mem_names_iff ..).2 h

theorem assign_of_bound (h : (s.find? f name).isSome = true) (v : Value) :
    ∃ w t, s.binder? f name = some w ∧ (Step.assign f name v).run s = (true, t) ∧
      Wrote s t w name v ∧ ∀ g, t.names g = s.names g := by
  rw [find?_eq_binder?] at h
  cases hw : s.binder? f name with
  | none => simp [hw] at h
  | some w =>
    have hbound := get?_of_binder? hw
    refine ⟨w, s.set w name v, rfl, ?_, wrote_set (lt_size_of_get? hbound) name v,
      names_set_of_bound hbound⟩
    simp [Step.run, assign?, hw]

theorem assign_of_unbound (h : s.find? f name = none) (v : Value) :
    (Step.assign f name v).run s = (false, s) := by
  have hnone : s.binder? f name = none := by
    rw [find?_eq_binder?] at h
    cases hw : s.binder? f name with
    | none => rfl
    | some w =>
      have hbound := get?_of_binder? hw
      simp only [hw, Option.bind_some] at h
      simp [h] at hbound
  simp [Step.run, assign?, hnone]

theorem update_of_bound (h : (s.get? f name).isSome = true) (v : Value) :
    ∃ t, (Step.update f name v).run s = (true, t) ∧ Wrote s t f name v ∧
      ∀ g, t.names g = s.names g := by
  refine ⟨s.set f name v, ?_, wrote_set (lt_size_of_get? h) name v, names_set_of_bound h⟩
  simp [Step.run, update?, h]

theorem update_of_unbound (h : s.get? f name = none) (v : Value) :
    (Step.update f name v).run s = (false, s) := by
  simp [Step.run, update?, h]

/-- Whatever steps were taken: the frames that there were are where they were, chains climb to a
frame inside none without coming back, and the names of a frame are those it binds, in order.  A new
frame is one deeper than the frame it is in.  Binding a name in a frame writes that frame; binding it
anew writes the innermost frame that binds it, and adds no name, or else changes nothing, which is so
exactly if the name meant nothing.  Both ways the written value is seen from the frames whose
innermost binder is the written one, and nothing else looks different from anywhere. -/
theorem laws_after (s : Scopes) (steps : List Step) :
    let t := s.after steps
    (∀ g < s.frames.size, t.parent? g = s.parent? g ∧ t.depth g = s.depth g) ∧
      t.Orderly ∧
      (∀ f < t.frames.size, (t.derive f).2.parent? (t.derive f).1 = some f ∧
        (t.derive f).2.names (t.derive f).1 = [] ∧
        (t.derive f).2.depth (t.derive f).1 = t.depth f + 1) ∧
      (∀ f < t.frames.size, ∀ name v, ∃ u,
        (Step.set f name v).run t = (true, u) ∧ Wrote t u f name v) ∧
      (∀ f name v, (t.find? f name).isSome = true → ∃ w u,
        t.binder? f name = some w ∧ (Step.assign f name v).run t = (true, u) ∧
          Wrote t u w name v ∧ ∀ g, u.names g = t.names g) ∧
      (∀ f name v, t.find? f name = none → (Step.assign f name v).run t = (false, t)) ∧
      (∀ f name v, (t.get? f name).isSome = true → ∃ u,
        (Step.update f name v).run t = (true, u) ∧ Wrote t u f name v ∧
          ∀ g, u.names g = t.names g) ∧
      (∀ f name v, t.get? f name = none → (Step.update f name v).run t = (false, t)) := by
  intro t
  refine ⟨fun g hg => ⟨(s.kept_after steps hg).2, s.depth_after steps hg⟩, t.orderly,
    fun f hf => derived hf, fun f hf name v => ⟨_, rfl, wrote_set hf name v⟩,
    fun f name v h => assign_of_bound h v, fun f name v h => assign_of_unbound h v,
    fun f name v h => update_of_bound h v, fun f name v h => update_of_unbound h v⟩

/-- A frame in a frame in a frame, of which the outer two bind `x`.  Binding `x` anew from the
innermost frame writes the middle one, and the outermost sees what it saw. -/
theorem laws_after_shadowed :
    let t := Scopes.empty.after [.create, .derive 0, .derive 1, .set 0 "x" .nil,
      .set 1 "x" (.number 1)]
    (t.find? 2 "x").isSome = true ∧ ∃ u,
      (Step.assign 2 "x" (.number 2)).run t = (true, u) ∧ Wrote t u 1 "x" (.number 2) ∧
        u.find? 2 "x" = some (.number 2) ∧ u.find? 0 "x" = t.find? 0 "x" ∧
        ∀ g, u.names g = t.names g := by
  intro t
  have hbound : (t.find? 2 "x").isSome = true := by decide +kernel
  have hbinder : t.binder? 2 "x" = some 1 := by decide +kernel
  obtain ⟨-, -, -, -, hassign, -⟩ := laws_after Scopes.empty
    [.create, .derive 0, .derive 1, .set 0 "x" .nil, .set 1 "x" (.number 1)]
  obtain ⟨w, u, hw, hrun, hwrote, hnames⟩ := hassign 2 "x" (.number 2) hbound
  obtain rfl : w = 1 := Option.some.inj (hw.symm.trans hbinder)
  have hu : ((t.assign? 2 "x" (.number 2)).getD t) = u := (Prod.mk.inj hrun).2
  refine ⟨hbound, u, hrun, hwrote, ?_, ?_, hnames⟩
  · rw [hwrote.seen, if_pos ⟨rfl, by rw [← hu]; decide +kernel⟩]
  · rw [hwrote.seen, if_neg fun h => absurd h.2 (by rw [← hu]; decide +kernel)]

end Lisplet.Scopes
