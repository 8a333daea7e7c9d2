import Lisplet.Proofs.Evaluate.LambdaCall
import Lisplet.Proofs.Session.Contents
import Lisplet.Proofs.Session.Pieces

/-! Calls in a session.  In every state that a session reaches, what it has bound closes over frames
that exist, which is all that a call needs to bind its parameters as if its arguments had been
evaluated before. -/

namespace Lisplet

theorem lasting_within : Lasting fun _ n => Value.Within (· < n) where
  readable _ := {
    later := fun _ h => h
    symbol := fun _ => Value.within_of_homes rfl
    number := fun _ _ => Value.within_of_homes rfl
    string := fun _ _ _ => Value.within_of_homes rfl
    list := fun h supply => Value.within_list h supply }
  larger hn h := h.imp fun _ hf => Nat.lt_of_lt_of_le hf hn
  primitive _ _ _ _ := Value.within_of_homes rfl
  eval _ hk fuel _ _ _ henv hbound hexpr := sound_eval hk fuel hbound henv hexpr

/-- If no factory makes a procedure that closes over a frame that does not exist, the scopes of a
session are sound in every state, and the procedures of the host program are plain. -/
theorem Session.Reached.sound {vs : List Value} {s : Session}
    (h : Reached (fun s f => f.Makes (Value.Within (· < s.store.scopes.frames.size))) vs s) :
    s.store.scopes.Sound ∧ s.global < s.store.scopes.frames.size ∧ s.keywords.Plain := by
  have hholds := Reached.keeps lasting_within h
  exact ⟨hholds.bound, hholds.global, hholds.plain⟩

/-- A call of a procedure that was made by `lambda`, in sound scopes, from any frame and with any
arguments, where the procedures of the host program are plain.  The arguments that are needed are
evaluated in order in the caller's frame, and if that fails, so does the call, with the same error.
Then the call fails if the number of all arguments does not fit.  Else the body is evaluated in a new
frame inside the one that was closed over, which binds the parameters to the values and nothing else.
And whatever the new frame binds while an argument is evaluated, it binds afterwards, and the
evaluation does not depend on it. -/
theorem call_binds_arguments {k : Keywords} (hk : k.Plain) (fuel : Nat) {home : FrameId}
    {written procedure : Value} (hmade : Closure.Made k home written procedure) {s : Store}
    (hsound : s.scopes.Sound) (hhome : home < s.scopes.frames.size) {env : FrameId}
    (henv : env < s.scopes.frames.size) {args : Value}
    (hargs : args.Within (· < s.scopes.frames.size)) :
    ∃ formals body, Closure.parts "lambda" written = .ok (formals, body) ∧
      (match takeAll (eval k fuel env) (formals.needed args.elements) (s.derived home) with
      | .stopped why => call k (eval k fuel) env procedure args s = .stopped why
      | .failed e t => ∃ t', Store.Aside s.scopes.frames.size t t' ∧
        call k (eval k fuel) env procedure args s = .failed e t'
      | .done vs t => ∃ t', Store.Aside s.scopes.frames.size t t' ∧
        (¬ formals.Fits args.elements.length → call k (eval k fuel) env procedure args s =
          .failed (.arity "lambda" formals.arity args.elements.length) t') ∧
        (formals.Fits args.elements.length →
          Closure.Binds t'.scopes s.scopes.frames.size home formals vs ∧
          call k (eval k fuel) env procedure args s =
            evalBody (eval k fuel) s.scopes.frames.size body.elements t')) ∧
      ∀ firsts arg others vs u, args.elements = firsts ++ arg :: others →
        takeAll (eval k fuel env) firsts (s.derived home) = .done vs u → ∀ bindings,
        eval k fuel env arg (u.replace s.scopes.frames.size bindings) =
            (eval k fuel env arg u).mapState (·.replace s.scopes.frames.size bindings) ∧
          (eval k fuel env arg (u.replace s.scopes.frames.size bindings)).Leaves fun w =>
            ∀ name, w.scopes.get? s.scopes.frames.size name = bindings[name]? := by
  obtain ⟨id, formals, body, hparts, rfl⟩ := hmade.parts
  have helements := ((steps_sound k).rules hk).elements hargs
  refine ⟨formals, body, hparts, ?_, fun firsts arg others vs u hsplit hrun bindings => ?_⟩
  · exact callLambda_phased hk fuel hsound hhome henv helements (Closure.parts_nodup hparts) body
  · exact arg_isolated hk fuel hsound hhome henv helements hsplit hrun bindings

/-- The procedure of `((x *y) x)`, called with `((define x 7) x)` in a session in which `x` is 1: the
first argument binds `x` anew for the caller, and the parameter `x` keeps the value it got. -/
theorem call_binds_arguments_redefined :
    let x := Value.symbol ⟨0, 5, "x"⟩
    let body := Value.pair ⟨0, 3⟩ x .nil
    let written := Value.pair ⟨0, 2⟩ (.pair ⟨0, 1⟩ x (.pair ⟨0, 0⟩ (.symbol ⟨0, 6, "*y"⟩) .nil)) body
    let define := Value.pair ⟨0, 6⟩ (.symbol ⟨0, 7, "define"⟩)
      (.pair ⟨0, 5⟩ x (.pair ⟨0, 4⟩ (.number 7) .nil))
    let args := Value.pair ⟨0, 8⟩ define (.pair ⟨0, 7⟩ x .nil)
    ∃ vs s procedure ws t,
      Session.Reached (fun s f => f.Makes (Value.Within (· < s.store.scopes.frames.size))) vs s ∧
      Closure.Made s.keywords s.global written procedure ∧
      ws.map Value.inspect = ["x", "7"] ∧
      Closure.Binds t.scopes s.store.scopes.frames.size s.global ⟨["x"], some "y"⟩ ws ∧
      call s.keywords (eval s.keywords 5) s.global procedure args s.store =
        evalBody (eval s.keywords 5) s.store.scopes.frames.size body.elements t := by
  intro x body written define args
  have hfed : ((Session.feed 9 "(define x 1)" .standard).result?.any fun result =>
      (takeAll (eval result.2.keywords 5 result.2.global) args.elements
        (result.2.store.derived result.2.global)).result?.any fun run =>
          run.1.map Value.inspect == ["x", "7"]) = true := by
    decide +kernel
  obtain ⟨⟨vs, s⟩, hresult, hrun⟩ := (Option.any_eq_true _ _).1 hfed
  obtain ⟨⟨ws, t⟩, htaken, hws⟩ := (Option.any_eq_true _ _).1 hrun
  have hreached : Session.Reached
      (fun s f => f.Makes (Value.Within (· < s.store.scopes.frames.size))) vs s :=
    .done .standard 9 (.feed _) (Outcome.eq_done_of_result? hresult)
  obtain ⟨hsound, hglobal, hk⟩ := hreached.sound
  have hparts : Closure.parts "lambda" written = .ok (⟨["x"], some "y"⟩, body) := by rfl
  have hmade : Closure.Made s.keywords s.global written
      (.lambda ⟨1, 0⟩ ⟨["x"], some "y"⟩ body s.global) := by
    refine ⟨fun _ _ => pure .nil, Store.empty (.ofOwner 1), Store.empty ⟨1, 1⟩, ?_⟩
    simp only [Primitive.call, Primitive.name, hparts]
    rfl
  have hargs : args.Within (· < s.store.scopes.frames.size) := Value.within_of_homes rfl
  obtain ⟨formals, body', hparts', hcall, -⟩ :=
    call_binds_arguments hk 5 hmade hsound hglobal hglobal hargs
  obtain ⟨rfl, rfl⟩ := Prod.mk.inj (Except.ok.inj (hparts.symm.trans hparts'))
  rw [show Formals.needed ⟨["x"], some "y"⟩ args.elements = args.elements from rfl,
    Outcome.eq_done_of_result? htaken] at hcall
  obtain ⟨t', -, -, hfits⟩ := hcall
  obtain ⟨hbinds, hbody⟩ := hfits ⟨by decide, fun hrest => by cases hrest⟩
  exact ⟨vs, s, _, ws, t', hreached, hmade, by simpa using hws, hbinds, hbody⟩

end Lisplet
