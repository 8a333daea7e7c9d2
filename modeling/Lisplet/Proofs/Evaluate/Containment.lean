import Lisplet.Proofs.Evaluate.Logic
import Lisplet.Proofs.Scopes.Kept

/-! Where evaluation can add names.  A computation is confined to a frame if, of the frames that there
are, it gives new names to that one only.  If the procedures of the host program bind nothing,
evaluation in a frame is confined to it, however it ends. -/

namespace Lisplet

open Scopes

/-- The property holds of the state in which the computation ended, if it did. -/
def Outcome.Leaves {σ ε α : Type} (P : σ → Prop) : Outcome σ ε α → Prop
  | .done _ t => P t
  | .failed _ t => P t
  | .stopped _ => True

theorem Outcome.Leaves.imp {σ ε α : Type} {P Q : σ → Prop} (hPQ : ∀ t, P t → Q t)
    {o : Outcome σ ε α} (h : o.Leaves P) : o.Leaves Q := by
  cases o with
  | done a t => exact hPQ t h
  | failed e t => exact hPQ t h
  | stopped why => trivial

theorem Outcome.Ends.leaves {σ ε α : Type} {P : α → Prop} {Q : σ → Prop} {o : Outcome σ ε α}
    (h : o.Ends P Q) : o.Leaves Q := by
  cases o with
  | done a t => exact h.2
  | failed e t => exact h
  | stopped why => trivial

theorem Outcome.Leaves.ends {σ ε α : Type} {Q : σ → Prop} {o : Outcome σ ε α} (h : o.Leaves Q) :
    o.Ends (fun _ => True) Q := by
  cases o with
  | done a t => exact ⟨trivial, h⟩
  | failed e t => exact h
  | stopped why => trivial

/-! ### Procedures of the host program -/

namespace Host

/-- What a procedure of the host program that is called from `env` can make of the scopes `s` if it
binds nothing in them: it can change them in every way that leaves the frames there were their parents
and their names, and have expressions evaluated in the frame of the call and in frames that were made
since. -/
inductive Asked (ev : Evaluation) (env : FrameId) (s : Scopes) : Scopes → Prop
  | nothing : Asked ev env s s
  | changed {t u : Scopes} (before : Asked ev env s t) (size : t.frames.size ≤ u.frames.size)
      (same : ∀ g < s.frames.size, u.parent? g = t.parent? g ∧ u.names g = t.names g) :
      Asked ev env s u
  | valued {t u : Store} {f : FrameId} {e v : Value} (before : Asked ev env s t.scopes)
      (frame : f = env ∨ s.frames.size ≤ f) (run : ev f e t = .done v u) : Asked ev env s u.scopes
  | unvalued {t u : Store} {f : FrameId} {e : Value} {error : EvalError}
      (before : Asked ev env s t.scopes) (frame : f = env ∨ s.frames.size ≤ f)
      (run : ev f e t = .failed error u) : Asked ev env s u.scopes

/-- However a call of the procedure ends, it has bound nothing itself. -/
def BindsNothing (h : Host) : Prop :=
  ∀ ev env args s, (h ev env args s).Leaves fun t => Asked ev env s.scopes t.scopes

end Host

/-- An evaluation in such a frame can be asked for. -/
theorem Host.keeps_asked (ev : Evaluation) {env f : FrameId} {s : Scopes}
    (hf : f = env ∨ s.frames.size ≤ f) (e : Value) :
    Keeps (fun t => Asked ev env s t.scopes) (fun _ => True) (ev f e) := by
  intro t ht
  cases hrun : ev f e t with
  | done v u => exact ⟨trivial, .valued ht hf hrun⟩
  | failed error u => exact Asked.unvalued ht hf hrun
  | stopped why => trivial

/-! ### Confinement -/

/-- However it ends, the computation keeps the first `n` frames and adds names to none of them but
`env`. -/
def Confined {α : Type} (n : Nat) (env : FrameId) (x : Eval α) : Prop :=
  ∀ s : Store, n ≤ s.scopes.frames.size →
    (x s).Leaves fun t => Kept n env s.scopes t.scopes

/-- From the scopes `s` the first `n` frames have been kept, and none but `env` has got names. -/
def KeptSince (n : Nat) (env : FrameId) (s t : Scopes) : Prop := n ≤ t.frames.size ∧ Kept n env s t

theorem KeptSince.trans {n : Nat} {env : FrameId} {s t u : Scopes} (h : KeptSince n env s t)
    (hkept : Kept n env t u) : KeptSince n env s u :=
  ⟨Nat.le_trans h.1 hkept.size, h.2.trans hkept⟩

/-- What has been asked for keeps what each evaluation keeps. -/
theorem Host.Asked.keptSince {ev : Evaluation} {n : Nat} {env f : FrameId} {s t u : Scopes}
    (hev : ∀ g e, g = env ∨ n ≤ g →
      Keeps (fun t => KeptSince n env s t.scopes) (fun _ => True) (ev g e))
    (hf : f = env ∨ n ≤ f) (ht : KeptSince n env s t) (h : Asked ev f t u) :
    KeptSince n env s u := by
  have hframe : ∀ {g}, g = f ∨ t.frames.size ≤ g → g = env ∨ n ≤ g := by
    rintro g (rfl | hg)
    · exact hf
    · exact .inr (Nat.le_trans ht.1 hg)
  induction h with
  | nothing => exact ht
  | @changed t u before size same ih =>
    have hsame : ∀ g < n, u.parent? g = t.parent? g ∧ u.names g = t.names g :=
      fun g hg => same g (Nat.lt_of_lt_of_le hg ht.1)
    refine ih.trans ⟨size, fun g hg => (hsame g hg).1, fun g hg name hname => ?_, ?_⟩
    · rwa [(hsame g hg).2]
    · exact fun g hg _ => (hsame g hg).2
  | @valued t u g e v before frame run ih =>
    have hends := hev g e (hframe frame) t ih
    rw [run] at hends
    exact hends.2
  | @unvalued t u g e error before frame run ih =>
    have hends := hev g e (hframe frame) t ih
    rw [run] at hends
    exact hends

/-- The rules of confinement, from scopes `s`: names may be bound in `env` and in frames that are not
among the first `n`, and procedures may close over any frame. -/
theorem steps_confined (k : Keywords) (n : Nat) (env : FrameId) (s : Scopes) :
    Steps (fun _ _ => True) k (fun (_ : Unit) _ => True) (fun _ f => f = env ∨ n ≤ f)
      (fun _ _ => True) fun _ _ Q x => Keeps (fun t => KeptSince n env s t.scopes) (Q ()) x where
  refl _ := trivial
  trans _ _ := trivial
  later _ _ := trivial
  laterFrame _ h := h
  home _ := trivial
  nil _ := trivial
  number _ _ := trivial
  t _ := trivial
  quote _ := trivial
  quoteProcedure _ := trivial
  pair _ := ⟨trivial, trivial⟩
  lambda _ := ⟨trivial, trivial⟩
  macroProc _ := trivial
  value ha _ h := ⟨ha, h⟩
  fail _ _ h := h
  exhausted _ _ := trivial
  bind hx hf := hx.bind fun a ha => hf () a trivial ha
  cons _ _ hlist t h := by
    rw [Eval.cons_eq_fresh _ hlist]
    exact ⟨trivial, h⟩
  list _ t h := by
    rw [Eval.list_eq_build]
    exact ⟨trivial, h⟩
  makeLambda _ _ _ h := ⟨trivial, h⟩
  makeMacro _ _ h := ⟨trivial, h⟩
  derive {_ f} _ t h := by
    obtain ⟨-, -, hframe⟩ := frames_derive t.scopes f
    have hnew : n ≤ (t.scopes.derive f).1 := by rw [hframe]; exact h.1
    exact ⟨.inr hnew, h.trans (kept_derive h.1 env f)⟩
  find? _ _ h := ⟨fun _ _ => trivial, h⟩
  set {_ f name v} hf _ t h := by
    have hkept : Kept n env t.scopes (t.scopes.set f name v) := by
      rcases hf with rfl | hf
      · exact kept_set n f t.scopes name v
      · exact (kept_set n f t.scopes name v).outside hf env
    exact ⟨trivial, h.trans hkept⟩
  assign _ _ t h := by
    simp only [Eval.assign, Run.change_apply]
    split
    · next scopes hassign => exact ⟨trivial, h.trans (kept_assign n env hassign)⟩
    · exact ⟨trivial, h⟩
  print _ h := ⟨trivial, h⟩

/-- The rules of confinement. -/
def ConfinedRules (k : Keywords) : Prop :=
  ∀ n env s, Rules (fun _ _ => True) k (fun (_ : Unit) _ => True) (fun _ f => f = env ∨ n ≤ f)
    (fun _ _ => True) fun _ _ Q x => Keeps (fun t => KeptSince n env s t.scopes) (Q ()) x

theorem confinedRules_of_plain {k : Keywords} (hk : k.Plain) : ConfinedRules k :=
  fun n env s => (steps_confined k n env s).rules hk

theorem confinedRules_of_bindsNothing {k : Keywords}
    (hhosts : ∀ code, (k.hosts code).BindsNothing) : ConfinedRules k := fun n env s =>
  { steps_confined k n env s with
    host := fun {_ f args} ev code hev hf _ t ht => by
      have hasked := hhosts code ev f args t
      refine (hasked.imp fun u hu => ?_).ends
      exact hu.keptSince (fun g e hg => hev () g e hg trivial) hf ht }

/-- Evaluation in a frame is confined to it, whatever fuel it has. -/
theorem confined_eval {k : Keywords} (hR : ConfinedRules k) (fuel n : Nat) (env : FrameId)
    (expr : Value) : Confined n env (eval k fuel env expr) := by
  intro s hn
  have hends := (hR n env s.scopes).eval fuel () env expr (.inl rfl) trivial s
    ⟨hn, .refl n env s.scopes⟩
  exact hends.leaves.imp fun _ ht => ht.2

/-- However an evaluation ends, each frame that there was before has the parent and the names that it
had, and none but the frame of the evaluation has other names.  The procedures of the host program may
do what they like, as long as they bind nothing. -/
theorem eval_keeps_scopes {k : Keywords} (hhosts : ∀ code, (k.hosts code).BindsNothing) (fuel : Nat)
    (env : FrameId) (expr : Value) (s : Store) :
    (eval k fuel env expr s).Leaves fun t => ∀ g < s.scopes.frames.size,
      t.scopes.parent? g = s.scopes.parent? g ∧
        (∀ name ∈ s.scopes.names g, name ∈ t.scopes.names g) ∧
        (g ≠ env → t.scopes.names g = s.scopes.names g) := by
  have hkept := confined_eval (confinedRules_of_bindsNothing hhosts) fuel s.scopes.frames.size env
    expr s (Nat.le_refl _)
  exact hkept.imp fun t ht g hg => ⟨ht.parent g hg, ht.bound g hg, ht.names g hg⟩

/-- Says that it was called, and gives the values of its first argument in a new frame and in the frame
of the call. -/
def Host.twice : Host := fun ev env args => do
  Eval.print "twice\n"
  let frame ← Eval.derive env
  match args.elements with
  | [] => .fail (.raised "nothing to do")
  | e :: _ =>
    let v ← ev frame e
    let w ← ev env e
    Eval.list [v, w]

theorem Host.bindsNothing_twice : Host.twice.BindsNothing := by
  intro ev env args s
  let t : Store := { s with
    scopes := (s.scopes.derive env).2
    printed := s.printed ++ "twice\n" }
  have ht : Asked ev env s.scopes t.scopes := by
    have hkept := kept_derive (Nat.le_refl s.scopes.frames.size) s.scopes.frames.size env
    refine .changed .nothing hkept.size fun g hg => ?_
    exact ⟨hkept.parent g hg, hkept.names g hg (Nat.ne_of_lt hg)⟩
  have hnew : s.scopes.frames.size ≤ (s.scopes.derive env).1 := by
    obtain ⟨-, -, hframe⟩ := frames_derive s.scopes env
    exact Nat.le_of_eq hframe.symm
  let rest : List Value → Eval Value
    | [] => .fail (.raised "nothing to do")
    | e :: _ => ev (s.scopes.derive env).1 e >>= fun v => ev env e >>= fun w => Eval.list [v, w]
  have hrun : twice ev env args s = rest args.elements t := by
    simp only [twice, rest]
    cases args.elements <;> rfl
  rw [hrun]
  cases args.elements with
  | nil => exact ht
  | cons e es =>
    have hlist : ∀ v w, Keeps (fun u => Asked ev env s.scopes u.scopes) (fun _ => True)
        (Eval.list [v, w]) := by
      intro v w u hu
      rw [Eval.list_eq_build]
      exact ⟨trivial, hu⟩
    have hboth := (keeps_asked ev (.inr hnew) e).bind fun v _ =>
      (keeps_asked ev (.inl rfl) e).bind fun w _ => hlist v w
    exact (hboth t ht).leaves

/-- A definition that is evaluated twice, in a frame with `x` around it. -/
theorem eval_keeps_scopes_twice :
    let k := (Keywords.intern (.empty 1) (.ofOwner 1) fun _ => .twice).1
    let scopes := (Scopes.empty.create.2.set 0 "x" .nil).derive 0
    let s : Store := ⟨scopes.2, .ofOwner 0, ""⟩
    let a := Value.symbol ⟨0, 0, "a"⟩
    let define := (Value.list [.primitive ⟨2, 0⟩ (.builtin (.form .define)), a, .nil] (.ofOwner 3)).1
    let expr := (Value.list [.primitive ⟨2, 1⟩ (.host "twice" 0), define] (.ofOwner 4)).1
    ∃ v t, eval k 4 scopes.1 expr s = .done v t ∧ v.inspect = "(a a)" ∧ t.printed = "twice\n" ∧
      t.scopes.names 1 = ["a"] ∧ t.scopes.names 2 = ["a"] ∧ t.scopes.names 0 = s.scopes.names 0 := by
  intro k scopes s a define expr
  have hrun : (match eval k 4 scopes.1 expr s with
      | .done v t => decide (v.inspect = "(a a)" ∧ t.printed = "twice\n" ∧
          t.scopes.names 1 = ["a"] ∧ t.scopes.names 2 = ["a"])
      | _ => false) = true := by decide +kernel
  have hkept := eval_keeps_scopes (k := k) (fun _ => Host.bindsNothing_twice) 4 scopes.1 expr s
  cases heval : eval k 4 scopes.1 expr s with
  | done v t =>
    rw [heval] at hrun hkept
    obtain ⟨hv, hprinted, hhere, hnew⟩ := of_decide_eq_true hrun
    exact ⟨v, t, rfl, hv, hprinted, hhere, hnew, (hkept 0 (by decide)).2.2 (by decide)⟩
  | failed e t => rw [heval] at hrun; cases hrun
  | stopped why => rw [heval] at hrun; cases hrun

end Lisplet
