import Lisplet.Proofs.Evaluate.Binding
import Lisplet.Proofs.Evaluate.Soundness

/-! Calls of procedures that were made by `lambda`.  Parameters are bound while later arguments are
still to be evaluated, but nothing leads from the caller to the new frame: it is the parent of none
and no value closes over it.  So evaluating an argument neither sees what the frame binds nor changes
it, and the call is that of a language in which all arguments are evaluated first. -/

namespace Lisplet

open Scopes

/-! ### The new frame is out of reach -/

theorem closed_derived {s : Store} (hs : s.scopes.Sound) {home : FrameId}
    (hhome : home < s.scopes.frames.size) :
    Closed (· ≠ s.scopes.frames.size) (s.derived home).scopes := by
  have hframe : ∀ f, f ≠ s.scopes.frames.size →
      (s.derived home).scopes.frames[f]? = s.scopes.frames[f]? := fun f hf => by
    rw [getElem?_derived hhome, if_neg hf]
  refine ⟨fun f p hf hp => ?_, fun f name v hf hv => ?_, fun f hf => ?_⟩
  · have hold : s.scopes.parent? f = some p := by rwa [parent?, ← hframe f hf]
    obtain ⟨frame, hget, -⟩ := Option.bind_eq_some_iff.1 hold
    obtain ⟨hlt, -⟩ := Array.getElem?_eq_some_iff.1 hget
    exact Nat.ne_of_lt (Nat.lt_trans (s.scopes.parent_lt f p hold) hlt)
  · have hold : s.scopes.get? f name = some v := by rwa [get?, ← hframe f hf]
    exact (hs f name v hold).imp fun i hi => Nat.ne_of_lt hi
  · have hsize : (s.derived home).scopes.frames.size = s.scopes.frames.size + 1 := size_derive ..
    rw [hsize] at hf
    exact Nat.ne_of_gt hf

theorem Commutes.anyValue {α : Type} {f : Store → Store} {I : Store → Prop} {Q : α → Prop}
    {x : Eval α} (h : Commutes f I Q x) : Commutes f I (fun _ => True) x := by
  refine ⟨fun s hs => ?_, h.same⟩
  have hends := h.keeps s hs
  cases hrun : x s with
  | done a t =>
    rw [hrun] at hends
    exact ⟨trivial, hends.2⟩
  | failed e t =>
    rw [hrun] at hends
    exact hends
  | stopped why => trivial

theorem ignores_eval {k : Keywords} (hk : k.Plain) (fuel : Nat) {g env : FrameId} {arg : Value}
    (henv : env ≠ g) (harg : arg.Within (· ≠ g)) :
    Ignores g (fun t => Closed (· ≠ g) t.scopes) (eval k fuel env arg) := by
  intro b
  have hlocal : Local (· ≠ g) (Value.Within (· ≠ g)) (eval k fuel env arg) :=
    local_eval hk fuel henv harg
  exact (hlocal.commutes (fun hg => hg rfl) b).anyValue

theorem kept_takeAll {k : Keywords} (hk : k.Plain) (fuel : Nat) (env : FrameId) (args : List Value)
    (s : Store) :
    (takeAll (eval k fuel env) args s).Leaves fun t =>
      Kept s.scopes.frames.size env s.scopes t.scopes := by
  have hR := confinedRules_of_plain hk s.scopes.frames.size env s.scopes
  have hargs : ∀ v ∈ args, True := fun _ _ => trivial
  have hends := hR.takeAll (w := ()) env (fun w v henv hv => hR.eval fuel w env v henv hv)
    (.inl rfl) hargs s ⟨Nat.le_refl _, .refl _ _ _⟩
  exact hends.leaves.imp fun t ht => ht.2

section

variable {k : Keywords} (hk : k.Plain) (fuel : Nat) {s : Store} {home env : FrameId}
  {args : List Value} (hsound : s.scopes.Sound) (hhome : home < s.scopes.frames.size)
  (henv : env < s.scopes.frames.size) (hargs : ∀ arg ∈ args, arg.Within (· < s.scopes.frames.size))

include hk henv hargs in
theorem ignores_args : ∀ arg ∈ args, Ignores s.scopes.frames.size
    (fun t => Closed (· ≠ s.scopes.frames.size) t.scopes) (eval k fuel env arg) := by
  intro arg harg
  exact ignores_eval hk fuel (Nat.ne_of_lt henv) ((hargs arg harg).imp fun _ => Nat.ne_of_lt)

include hk hsound hhome henv hargs

/-- While an argument is evaluated, other bindings of the new frame make no difference to the
evaluation, and the frame keeps them. -/
theorem arg_isolated {firsts others vs : List Value} {arg : Value} {u : Store}
    (hsplit : args = firsts ++ arg :: others)
    (hrun : takeAll (eval k fuel env) firsts (s.derived home) = .done vs u)
    (b : Std.TreeMap String Value) :
    eval k fuel env arg (u.replace s.scopes.frames.size b) =
        (eval k fuel env arg u).mapState (·.replace s.scopes.frames.size b) ∧
      (eval k fuel env arg (u.replace s.scopes.frames.size b)).Leaves fun w =>
        ∀ name, w.scopes.get? s.scopes.frames.size name = b[name]? := by
  have hignores := ignores_args hk fuel henv hargs
  have hfirsts := ignores_takeAll fun a (ha : a ∈ firsts) => hignores a (by simp [hsplit, ha])
  have hkeeps := (hfirsts b).keeps _ (closed_derived hsound hhome)
  rw [hrun] at hkeeps
  have hsame := (hignores arg (by simp [hsplit]) b).same u hkeeps.2
  refine ⟨hsame, ?_⟩
  -- The frame is still there afterwards, inside the frame that it was made in.
  have hsize : (s.derived home).scopes.frames.size = s.scopes.frames.size + 1 := size_derive ..
  have hlt : s.scopes.frames.size < (s.derived home).scopes.frames.size := by omega
  have hkept := kept_takeAll hk fuel env firsts (s.derived home)
  rw [hrun] at hkept
  have hkept' := confined_eval (confinedRules_of_plain hk) fuel u.scopes.frames.size env arg u
    (Nat.le_refl _)
  have hparent : ∀ w : Store, Kept u.scopes.frames.size env u.scopes w.scopes →
      w.scopes.parent? s.scopes.frames.size = some home := by
    intro w hw
    rw [hw.parent _ (Nat.lt_of_lt_of_le hlt hkept.size), hkept.parent _ hlt, parent?_derived hhome]
  rw [hsame]
  cases heval : eval k fuel env arg u with
  | done v w =>
    rw [heval] at hkept'
    exact get?_replace_self (hparent w hkept') b
  | failed e w =>
    rw [heval] at hkept'
    exact get?_replace_self (hparent w hkept') b
  | stopped why => trivial

theorem callLambda_phased {formals : Formals} (hnodup : formals.names.Nodup) (body : Value) :
    match takeAll (eval k fuel env) (formals.needed args) (s.derived home) with
    | .stopped why =>
      Closure.callLambda (eval k fuel) env formals body home args s = .stopped why
    | .failed e t => ∃ t', Store.Aside s.scopes.frames.size t t' ∧
      Closure.callLambda (eval k fuel) env formals body home args s = .failed e t'
    | .done vs t => ∃ t', Store.Aside s.scopes.frames.size t t' ∧
      (¬ formals.Fits args.length → Closure.callLambda (eval k fuel) env formals body home args s =
        .failed (.arity "lambda" formals.arity args.length) t') ∧
      (formals.Fits args.length →
        Closure.Binds t'.scopes s.scopes.frames.size home formals vs ∧
        Closure.callLambda (eval k fuel) env formals body home args s =
          evalBody (eval k fuel) s.scopes.frames.size body.elements t') := by
  have hbinds := Closure.bindAll_derived hhome (ignores_args hk fuel henv hargs)
    (closed_derived hsound hhome) "lambda" formals
  have hkept := kept_takeAll hk fuel env (formals.needed args) (s.derived home)
  have hcall : Closure.callLambda (eval k fuel) env formals body home args s =
      (Closure.bindAll (eval k fuel env) s.scopes.frames.size "lambda" formals args >>= fun _ =>
        evalBody (eval k fuel) s.scopes.frames.size body.elements) (s.derived home) :=
    Run.bind_done (derive_apply home s)
  rw [hcall]
  cases hrun : takeAll (eval k fuel env) (formals.needed args) (s.derived home) with
  | stopped why =>
    rw [hrun] at hbinds
    exact Run.bind_stopped hbinds
  | failed e t =>
    rw [hrun] at hbinds
    obtain ⟨b, hb⟩ := hbinds
    exact ⟨_, ⟨b, 0, rfl⟩, Run.bind_failed hb⟩
  | done vs t =>
    rw [hrun] at hbinds hkept
    by_cases hfits : formals.Fits args.length
    · obtain ⟨n, hn⟩ := hbinds.1 hfits
      have hlen : vs.length = args.length := by rw [length_of_takeAll hrun, hfits.needed]
      have hlt : s.scopes.frames.size < (s.derived home).scopes.frames.size := by
        have hsize : (s.derived home).scopes.frames.size = s.scopes.frames.size + 1 :=
          size_derive ..
        omega
      have hparent : t.scopes.parent? s.scopes.frames.size = some home := by
        rw [hkept.parent _ hlt, parent?_derived hhome]
      refine ⟨_, ⟨_, n, rfl⟩, fun hnot => absurd hfits hnot, fun _ => ⟨?_, Run.bind_done hn⟩⟩
      exact Closure.binds_bound hnodup (hlen ▸ hfits) hparent t.supply
    · obtain ⟨b, hb⟩ := hbinds.2 hfits
      exact ⟨_, ⟨b, 0, rfl⟩, fun _ => Run.bind_failed hb, fun h => absurd h hfits⟩

end

end Lisplet
