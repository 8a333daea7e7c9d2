import Lisplet.Proofs.Evaluate.Containment
import Lisplet.Proofs.Evaluate.Logic
import Lisplet.Proofs.Scopes.Reachable

/-! What evaluation can see.  A computation is local to a set of frames if it stays inside the set
as long as nothing leads out of it, and if other bindings of a frame outside the set change nothing
about it.  Evaluation in a frame is local to every closed set that has the frame and the frames that
the expression closes over, so it neither changes nor sees a frame that cannot be reached. -/

namespace Lisplet

open Scopes

/-- The store in which frame `g` has other bindings. -/
def Store.replace (s : Store) (g : FrameId) (bindings : Std.TreeMap String Value) : Store :=
  { s with scopes := s.scopes.replace g bindings }

/-- From a state in which the set of frames is closed the computation leaves it closed and gives a
value with the property, and it does the same whatever a frame outside the set binds. -/
structure Local {α : Type} (V : FrameId → Prop) (P : α → Prop) (x : Eval α) : Prop where
  stays : ∀ s : Store, Closed V s.scopes → (x s).Ends P fun t => Closed V t.scopes
  blind : ∀ (s : Store) (g : FrameId) (bindings : Std.TreeMap String Value),
    Closed V s.scopes → ¬ V g → x (s.replace g bindings) = (x s).mapState (·.replace g bindings)

section

variable {α β : Type} {V : FrameId → Prop} {P : α → Prop} {Q : β → Prop}

theorem local_pure {a : α} (ha : P a) : Local V P (pure a : Eval α) :=
  ⟨fun _ h => ⟨ha, h⟩, fun _ _ _ _ _ => rfl⟩

theorem local_fail (e : EvalError) : Local V P (.fail e : Eval α) :=
  ⟨fun _ h => h, fun _ _ _ _ _ => rfl⟩

theorem local_print (text : String) : Local V (fun _ => True) (Eval.print text) :=
  ⟨fun _ h => ⟨trivial, h⟩, fun _ _ _ _ _ => rfl⟩

theorem local_build {make : Supply → Value × Supply} {P : Value → Prop}
    (hmake : ∀ supply, P (make supply).1) : Local V P (Eval.build make) :=
  ⟨fun s h => ⟨hmake s.supply, h⟩, fun _ _ _ _ _ => rfl⟩

theorem local_find? {f : FrameId} (hf : V f) (name : String) :
    Local V (fun found => ∀ v, found = some v → v.Within V) (Eval.find? f name) := by
  refine ⟨fun s h => ⟨fun v hv => h.find? hf hv, h⟩, fun s g bindings h hg => ?_⟩
  change Outcome.done ((s.scopes.replace g bindings).find? f name) _ = _
  rw [find?_replace h hg hf]
  rfl

theorem local_set {f : FrameId} (hf : V f) (name : String) {v : Value} (hv : v.Within V) :
    Local V (fun _ => True) (Eval.set f name v) := by
  refine ⟨fun s h => ⟨trivial, h.set hv f name⟩, fun s g bindings h hg => ?_⟩
  have hne : g ≠ f := fun hgf => hg (hgf ▸ hf)
  simp only [Eval.set, Run.change_apply, Store.replace, set_replace hne, Outcome.mapState]

theorem local_assign {f : FrameId} (hf : V f) (name : String) {v : Value} (hv : v.Within V) :
    Local V (fun _ => True) (Eval.assign f name v) := by
  constructor
  · intro s h
    simp only [Eval.assign, Run.change_apply]
    split
    · next scopes hassign =>
      obtain ⟨i, -, rfl⟩ := Option.map_eq_some_iff.1 hassign
      exact ⟨trivial, h.set hv i name⟩
    · exact ⟨trivial, h⟩
  · intro s g bindings h hg
    simp only [Eval.assign, Run.change_apply, Store.replace, assign?_replace h hg hf]
    cases s.scopes.assign? f name v <;> rfl

theorem local_derive {f : FrameId} (hf : V f) : Local V V (Eval.derive f) := by
  refine ⟨fun s h => h.derive hf, fun s g bindings h hg => ?_⟩
  simp only [Eval.derive, Run.change_apply, Store.replace, derive_replace h hg, Outcome.mapState]

theorem Local.commutes {x : Eval α} (hx : Local V P x) {g : FrameId} (hg : ¬ V g)
    (bindings : Std.TreeMap String Value) :
    Commutes (·.replace g bindings) (fun s => Closed V s.scopes) P x :=
  ⟨hx.stays, fun s h => hx.blind s g bindings h hg⟩

theorem Local.bind {x : Eval α} {f : α → Eval β} (hx : Local V P x)
    (hf : ∀ a, P a → Local V Q (f a)) : Local V Q (x >>= f) := by
  refine ⟨Keeps.bind hx.stays fun a ha => (hf a ha).stays, fun s g bindings h hg => ?_⟩
  have hboth := (hx.commutes hg bindings).bind fun a ha => (hf a ha).commutes hg bindings
  exact hboth.same s h

end

/-- The rules of locality: the values admitted close over frames of the set only. -/
theorem steps_local (k : Keywords) (V : FrameId → Prop) :
    Steps (fun _ _ => True) k (fun _ : Unit => Value.Within V) (fun _ => V) (fun _ => V)
      fun _ _ Q x => Local V (Q ()) x where
  refl _ := trivial
  trans _ _ := trivial
  later _ h := h
  laterFrame _ h := h
  home h := h
  nil _ := Value.within_of_homes rfl
  number _ _ := Value.within_of_homes rfl
  t _ := Value.within_of_homes rfl
  quote _ := Value.within_of_homes rfl
  quoteProcedure _ := Value.within_of_homes rfl
  pair := Value.within_pair_iff.1
  lambda h := ⟨fun f hf => h f (List.mem_cons_of_mem _ hf), h _ List.mem_cons_self⟩
  macroProc h := h
  value ha := local_pure ha
  fail e := local_fail e
  exhausted := ⟨fun _ _ => trivial, fun _ _ _ _ _ => rfl⟩
  bind hx hf := hx.bind fun a ha => hf () a trivial ha
  cons hhead htail hlist := by
    rw [Eval.cons_eq_fresh _ hlist]
    exact local_build fun _ => Value.within_pair_iff.2 ⟨hhead, htail⟩
  list hitems := by
    rw [Eval.list_eq_build]
    exact local_build (Value.within_list hitems)
  makeLambda hbody hhome := local_build fun _ => List.forall_mem_cons.2 ⟨hhome, hbody⟩
  makeMacro hbody := local_build fun _ => hbody
  derive hf := local_derive hf
  find? hf := local_find? hf _
  set hf hv := local_set hf _ hv
  assign hf hv := local_assign hf _ hv
  print := local_print _

/-- Evaluation is local to every set that has its frame and the frames that the expression closes
over, whatever fuel it has. -/
theorem local_eval {k : Keywords} (hk : k.Plain) (fuel : Nat) {V : FrameId → Prop} {env : FrameId}
    {expr : Value} (henv : V env) (hexpr : expr.Within V) :
    Local V (Value.Within V) (eval k fuel env expr) :=
  ((steps_local k V).rules hk).eval fuel () env expr henv hexpr

/-- A frame whose own bindings of before change nothing afterwards has kept them. -/
theorem frame_of_replace_eq {s t : Store} {env g : FrameId} {frame : Frame}
    (hframe : s.scopes.frames[g]? = some frame)
    (hkept : Kept s.scopes.frames.size env s.scopes t.scopes)
    (heq : t = t.replace g frame.bindings) : t.scopes.frames[g]? = some frame := by
  obtain ⟨hlt, -⟩ := Array.getElem?_eq_some_iff.1 hframe
  obtain ⟨after, hafter⟩ : ∃ after, t.scopes.frames[g]? = some after :=
    ⟨_, Array.getElem?_eq_getElem (Nat.lt_of_lt_of_le hlt hkept.size)⟩
  have hbindings : t.scopes.frames[g]? = some { after with bindings := frame.bindings } := by
    conv_lhs => rw [heq]
    simp only [Store.replace, getElem?_replace, if_true, hafter, Option.map_some]
  have hparent := hkept.parent g hlt
  simp only [parent?, hframe, hafter, Option.bind_some] at hparent
  rw [hbindings, hparent]

/-- A frame that cannot be reached from the frame of an evaluation, nor from the frames that the
expression closes over, plays no part: however the evaluation ends, the frame is what it was, and if
it has whatever other bindings beforehand, the evaluation ends with the same value or error, and in
a store that differs in those bindings only.  The procedures of the host program are plain: they reach
no frame but through the call and through evaluation. -/
theorem eval_of_not_reachable {k : Keywords} (hk : k.Plain) {fuel : Nat} {env g : FrameId}
    {expr : Value} {s : Store} (hsize : g < s.scopes.frames.size)
    (hg : ¬ Reachable s.scopes env expr g) :
    ((eval k fuel env expr s).Leaves fun t => t.scopes.frames[g]? = s.scopes.frames[g]?) ∧
      ∀ bindings, eval k fuel env expr (s.replace g bindings) =
        (eval k fuel env expr s).mapState (·.replace g bindings) := by
  have hclosed := closed_reachable s.scopes env expr
  have hout : ¬ (Reachable s.scopes env expr g ∨ s.scopes.frames.size ≤ g) := by
    rintro (hreach | hle)
    · exact hg hreach
    · exact Nat.not_le_of_lt hsize hle
  have hlocal : Local (fun f => Reachable s.scopes env expr f ∨ s.scopes.frames.size ≤ f) _
      (eval k fuel env expr) := local_eval hk fuel (.inl .env) fun f hf => .inl (.expr hf)
  have hblind := fun bindings => hlocal.blind s g bindings hclosed hout
  refine ⟨?_, hblind⟩
  -- With the bindings that it has, the frame is the same before, so it is the same afterwards.
  have hframe : s.scopes.frames[g]? = some s.scopes.frames[g] := Array.getElem?_eq_getElem hsize
  have hself := hblind s.scopes.frames[g].bindings
  have hkept := confined_eval (confinedRules_of_plain hk) fuel s.scopes.frames.size env expr s
    (Nat.le_refl _)
  rw [show s.replace g s.scopes.frames[g].bindings = s by rw [Store.replace, replace_self hframe]]
    at hself
  rw [hframe]
  cases heval : eval k fuel env expr s with
  | done v t =>
    rw [heval] at hself hkept
    exact frame_of_replace_eq hframe hkept (Outcome.done.inj hself).2
  | failed e t =>
    rw [heval] at hself hkept
    exact frame_of_replace_eq hframe hkept (Outcome.failed.inj hself).2
  | stopped why => trivial

/-- Of two frames without bindings neither leads to the other. -/
theorem closed_two_roots : Closed (· ≠ 1) Scopes.empty.create.2.create.2 := by
  have hframes : ∀ (i : Nat) (frame : Frame),
      Scopes.empty.create.2.create.2.frames[i]? = some frame → frame = ⟨∅, none⟩ := by
    intro i frame h
    have hmem := Array.mem_of_getElem? h
    simpa [create, push, Scopes.empty] using hmem
  refine ⟨?_, ?_, ?_⟩
  · intro f p _ hp
    obtain ⟨frame, hframe, hparent⟩ := Option.bind_eq_some_iff.1 hp
    rw [hframes f frame hframe] at hparent
    cases hparent
  · intro f name v _ hget
    obtain ⟨frame, hframe, hbound⟩ := Option.bind_eq_some_iff.1 hget
    rw [hframes f frame hframe] at hbound
    simp at hbound
  · rintro f hf rfl
    exact absurd hf (by decide)

/-- The call `(f ())` in a frame that binds `f` to a procedure with parameter `x`, beside a frame
that binds `x` and that nothing leads to. -/
theorem eval_of_not_reachable_call :
    let f := Value.lambda ⟨0, 0⟩ ⟨["x"], none⟩ (.pair ⟨0, 1⟩ (.symbol ⟨0, 1, "x"⟩) .nil) 0
    let scopes := (Scopes.empty.create.2.create.2.set 0 "f" f).set 1 "x" (.number 7)
    let s : Store := ⟨scopes, .ofOwner 0, ""⟩
    let k := (Keywords.intern (.empty 1) (.ofOwner 1) fun _ => .echo).1
    let expr := Value.pair ⟨2, 0⟩ (.symbol ⟨0, 0, "f"⟩) (.pair ⟨2, 1⟩ .nil .nil)
    1 < scopes.frames.size ∧ ¬ Reachable scopes 0 expr 1 ∧
      ((eval k 4 0 expr s).Leaves fun t => t.scopes.frames[1]? = scopes.frames[1]?) ∧
      ∀ bindings, eval k 4 0 expr (s.replace 1 bindings) =
        (eval k 4 0 expr s).mapState (·.replace 1 bindings) := by
  intro f scopes s k expr
  have hf : f.Within (· ≠ 1) := by
    simp [f, Value.Within, Value.homes]
  have hclosed : Closed (· ≠ 1) scopes :=
    (closed_two_roots.set hf 0 "f").set (Value.within_of_homes rfl) 1 "x"
  have hsize : 1 < scopes.frames.size := by decide
  have hreach : ¬ Reachable scopes 0 expr 1 := fun h =>
    h.mem hclosed (by decide) (Value.within_of_homes rfl) rfl
  have hk : k.Plain := fun _ => Host.plain_echo k
  exact ⟨hsize, hreach, eval_of_not_reachable hk hsize hreach⟩

end Lisplet
