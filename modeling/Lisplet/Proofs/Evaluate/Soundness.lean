import Lisplet.Proofs.Evaluate.Bound
import Lisplet.Proofs.Scopes.Kept

/-! Frames that there are.  Scopes are sound if no value bound in them closes over a frame that does
not exist.  Frames are only ever added, so evaluation in a frame that exists keeps the scopes sound,
and the value it gives closes over frames that exist by then. -/

namespace Lisplet

theorem Value.Within.imp {V V' : FrameId → Prop} {v : Value} (h : v.Within V)
    (hV : ∀ f, V f → V' f) : v.Within V' := fun f hf => hV f (h f hf)

namespace Scopes

/-- Whatever is bound closes over frames that there are. -/
def Sound (s : Scopes) : Prop := s.AllBound (Value.Within (· < s.frames.size))

variable {s : Scopes}

theorem Sound.set (h : s.Sound) {w : Nat} (hw : w ≤ s.frames.size) {v : Value}
    (hv : v.Within (· < w)) (f : FrameId) (name : String) :
    s.frames.size ≤ (s.set f name v).frames.size ∧ (s.set f name v).Sound := by
  unfold Sound
  rw [size_set]
  exact ⟨Nat.le_refl _, AllBound.set h (hv.imp fun _ hf => Nat.lt_of_lt_of_le hf hw) f name⟩

theorem size_derive (s : Scopes) (f : FrameId) :
    (s.derive f).2.frames.size = s.frames.size + 1 := by
  obtain ⟨parent, hframes, -⟩ := frames_derive s f
  rw [hframes, Array.size_push]

theorem Sound.derive (h : s.Sound) (f : FrameId) : (s.derive f).2.Sound := by
  unfold Sound
  rw [size_derive]
  exact (AllBound.derive h f).imp fun v hv => hv.imp fun g hg => Nat.lt_succ_of_lt hg

end Scopes

/-- From sound scopes with at least `w` frames the computation leads to sound scopes with no fewer
frames, and its value has the property for a number of frames that there are by then. -/
def Soundly {α : Type} (w : Nat) (Q : Nat → α → Prop) (x : Eval α) : Prop :=
  ∀ s : Store, w ≤ s.scopes.frames.size → s.scopes.Sound →
    (x s).EndsWith (fun a t => ∃ w', w ≤ w' ∧ w' ≤ t.scopes.frames.size ∧ Q w' a)
      fun t => s.scopes.frames.size ≤ t.scopes.frames.size ∧ t.scopes.Sound

section

variable {α β : Type} {w : Nat} {Q : Nat → α → Prop}

theorem soundly_build {make : Supply → Value × Supply} {P : Nat → Value → Prop}
    (hmake : ∀ supply, P w (make supply).1) : Soundly w P (Eval.build make) :=
  fun s hw hs => ⟨⟨w, Nat.le_refl _, hw, hmake s.supply⟩, Nat.le_refl _, hs⟩

theorem Soundly.bind {Q' : Nat → β → Prop} {x : Eval α} {f : α → Eval β} (hx : Soundly w Q x)
    (hf : ∀ w' a, w ≤ w' → Q w' a → Soundly w' Q' (f a)) : Soundly w Q' (x >>= f) := by
  intro s hw hs
  have hfirst := hx s hw hs
  cases hrun : x s with
  | failed e t =>
    rw [hrun] at hfirst
    rw [Run.bind_failed hrun]
    exact hfirst
  | stopped why =>
    rw [Run.bind_stopped hrun]
    trivial
  | done a t =>
    rw [hrun] at hfirst
    obtain ⟨⟨w₁, hw₁, hw₁t, ha⟩, hsize, ht⟩ := hfirst
    rw [Run.bind_done hrun]
    have hsecond := hf w₁ a hw₁ ha t hw₁t ht
    cases hrun' : f a t with
    | failed e u =>
      rw [hrun'] at hsecond
      exact ⟨Nat.le_trans hsize hsecond.1, hsecond.2⟩
    | stopped why => trivial
    | done b u =>
      rw [hrun'] at hsecond
      obtain ⟨⟨w₂, hw₂, hw₂u, hb⟩, hsize', hu⟩ := hsecond
      exact ⟨⟨w₂, Nat.le_trans hw₁ hw₂, hw₂u, hb⟩, Nat.le_trans hsize hsize', hu⟩

end

/-- The rules of soundness: the world is a number of frames that exist. -/
theorem steps_sound (k : Keywords) :
    Steps (· ≤ ·) k (fun w => Value.Within (· < w)) (fun w f => f < w) (fun w f => f < w)
      fun _ w Q x => Soundly w Q x where
  refl := Nat.le_refl
  trans := Nat.le_trans
  later hw h := h.imp fun _ hf => Nat.lt_of_lt_of_le hf hw
  laterFrame hw h := Nat.lt_of_lt_of_le h hw
  home h := h
  nil _ := Value.within_of_homes rfl
  number _ _ := Value.within_of_homes rfl
  t _ := Value.within_of_homes rfl
  quote _ := Value.within_of_homes rfl
  quoteProcedure _ := Value.within_of_homes rfl
  pair := Value.within_pair_iff.1
  lambda h := ⟨fun f hf => h f (List.mem_cons_of_mem _ hf), h _ List.mem_cons_self⟩
  macroProc h := h
  value {_ w _ _} ha _ hw hs := ⟨⟨w, Nat.le_refl w, hw, ha⟩, Nat.le_refl _, hs⟩
  fail _ _ _ hs := ⟨Nat.le_refl _, hs⟩
  exhausted _ _ _ := trivial
  bind hx hf := hx.bind hf
  cons hhead htail hlist := by
    rw [Eval.cons_eq_fresh _ hlist]
    exact soundly_build fun _ => Value.within_pair_iff.2 ⟨hhead, htail⟩
  list hitems := by
    rw [Eval.list_eq_build]
    exact soundly_build (Value.within_list hitems)
  makeLambda hbody hhome := soundly_build fun _ => List.forall_mem_cons.2 ⟨hhome, hbody⟩
  makeMacro hbody := soundly_build fun _ => hbody
  derive {w f} _ s hw hs := by
    obtain ⟨-, -, hframe⟩ := Scopes.frames_derive s.scopes f
    have hsize := Scopes.size_derive s.scopes f
    have hnew : (s.scopes.derive f).1 < s.scopes.frames.size + 1 := by
      rw [hframe]
      exact Nat.lt_succ_self _
    have hmore : s.scopes.frames.size ≤ (s.scopes.derive f).2.frames.size := by omega
    exact ⟨⟨_, Nat.le_succ_of_le hw, Nat.le_of_eq hsize.symm, hnew⟩, hmore, hs.derive f⟩
  find? _ s hw hs := ⟨⟨_, hw, Nat.le_refl _, fun _ hv => hs.find? hv⟩, Nat.le_refl _, hs⟩
  set {w f name v} _ hv s hw hs := by
    have hset := hs.set hw hv f name
    exact ⟨⟨w, Nat.le_refl w, Nat.le_trans hw hset.1, trivial⟩, hset⟩
  assign {w f name v} _ hv s hw hs := by
    simp only [Eval.assign, Run.change_apply]
    split
    · next scopes hassign =>
      obtain ⟨g, -, rfl⟩ := Option.map_eq_some_iff.1 hassign
      have hset := hs.set hw hv g name
      exact ⟨⟨w, Nat.le_refl w, Nat.le_trans hw hset.1, trivial⟩, hset⟩
    · exact ⟨⟨w, Nat.le_refl w, hw, trivial⟩, Nat.le_refl _, hs⟩
  print {w _} _ hw hs := ⟨⟨w, Nat.le_refl w, hw, trivial⟩, Nat.le_refl _, hs⟩

/-- Evaluation of an expression that closes over frames that there are, in one of them, keeps the
scopes sound, and what it gives closes over frames that there are. -/
theorem sound_eval {k : Keywords} (hk : k.Plain) (fuel : Nat) {env : FrameId} {expr : Value}
    {s : Store} (hs : s.scopes.Sound) (henv : env < s.scopes.frames.size)
    (hexpr : expr.Within (· < s.scopes.frames.size)) :
    (eval k fuel env expr s).EndsWith (fun v t => v.Within (· < t.scopes.frames.size))
      fun t => s.scopes.frames.size ≤ t.scopes.frames.size ∧ t.scopes.Sound := by
  have hends := ((steps_sound k).rules hk).eval fuel _ env expr henv hexpr s (Nat.le_refl _) hs
  cases hrun : eval k fuel env expr s with
  | done v t =>
    rw [hrun] at hends
    obtain ⟨⟨w, -, hw, hv⟩, ht⟩ := hends
    exact ⟨hv.imp fun _ hf => Nat.lt_of_lt_of_le hf hw, ht⟩
  | failed e t =>
    rw [hrun] at hends
    exact hends
  | stopped why => trivial

end Lisplet
