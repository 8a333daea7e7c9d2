import Lisplet.Proofs.Evaluate.Binding

/-! Procedures applied to values.  A procedure is applied by writing down its call, with each value
quoted, and evaluating that in the caller's frame.  The reserved symbol `quote` means the same in
every frame, so each quoted value gives the value back, and the callee is run on the values
themselves: nothing of the caller's frame has a part in it. -/

namespace Lisplet

variable {k : Keywords} {forms vs : List Value}

/-! ### Quoted values -/

/-- The form is the list of the reserved symbol `quote` and the value. -/
def Value.Quotes (k : Keywords) (form v : Value) : Prop :=
  ∃ i q j, form = .pair i (.symbol q) (.pair j v .nil) ∧ q.same k.quotes.quote = true

theorem eval_quotes {form v : Value} (h : form.Quotes k v) (fuel : Nat) (env : FrameId) :
    eval k (fuel + 2) env form = pure v := by
  obtain ⟨i, q, j, rfl, hq⟩ := h
  have hhead : eval k (fuel + 1) env (.symbol q) = pure k.quoteProcedure := if_pos hq
  rw [eval, evalStep, hhead, pure_bind]
  rfl

theorem eval_quotes_congr {form v : Value} (h : form.Quotes k v) (fuel : Nat)
    (env₁ env₂ : FrameId) : eval k fuel env₁ form = eval k fuel env₂ form := by
  match fuel with
  | 0 => rfl
  | 1 =>
    obtain ⟨i, q, j, rfl, -⟩ := h
    rfl
  | fuel + 2 => rw [eval_quotes h, eval_quotes h]

theorem takes_of_quotes (h : List.Forall₂ (Value.Quotes k) forms vs) (fuel : Nat) (env : FrameId) :
    List.Forall₂ (fun form v => eval k (fuel + 2) env form = pure v) forms vs :=
  h.imp fun _ _ hform => eval_quotes hform fuel env

theorem takes_congr (h : List.Forall₂ (Value.Quotes k) forms vs) (fuel : Nat)
    (env₁ env₂ : FrameId) :
    List.Forall₂ (fun a b => eval k fuel env₁ a = eval k fuel env₂ b) forms forms := by
  induction h with
  | nil => exact .nil
  | cons hform _ ih => exact .cons (eval_quotes_congr hform fuel env₁ env₂) ih

/-- Quoting values takes two identities for each. -/
theorem quoteForms_apply (k : Keywords) (vs : List Value) (s : Store) :
    ∃ forms, takeAll (fun v => Eval.list [.symbol k.quotes.quote, v]) vs s =
        .done forms (s.skip (2 * vs.length)) ∧ List.Forall₂ (Value.Quotes k) forms vs := by
  induction vs generalizing s with
  | nil => exact ⟨[], rfl, .nil⟩
  | cons v vs ih =>
    obtain ⟨forms, hrun, hforms⟩ := ih (s.skip 2)
    have hform := Eval.list_apply [.symbol k.quotes.quote, v] s
    have hquotes : Value.Quotes k (Value.list [.symbol k.quotes.quote, v] s.supply).1 v :=
      ⟨_, k.quotes.quote, _, by rw [Value.list_cons, Value.list_cons, Value.list_nil],
        by simp [Symbol.same]⟩
    have hall : takeAll (fun v => Eval.list [.symbol k.quotes.quote, v]) (v :: vs) s =
        .done (_ :: forms) ((s.skip 2).skip (2 * vs.length)) := takeAll_cons hform hrun
    rw [Store.skip_skip, Nat.add_comm, ← Nat.mul_succ] at hall
    exact ⟨_, hall, .cons hquotes hforms⟩

/-- Writing a call down takes three identities for each of its values, and one for itself. -/
theorem applyValues_eq (k : Keywords) {procedure : Value} (h : procedure.isProcedure = true)
    (vs : List Value) (s : Store) :
    ∃ i args, List.Forall₂ (Value.Quotes k) args.elements vs ∧ ∀ (ev : Evaluation) env,
      applyValues k ev env procedure vs s =
        ev env (.pair i procedure args) (s.skip (3 * vs.length + 1)) := by
  obtain ⟨forms, hrun, hforms⟩ := quoteForms_apply k vs s
  let supply := (s.skip (2 * vs.length)).supply
  have hcount : 2 * vs.length + (procedure :: forms).length = 3 * vs.length + 1 := by
    rw [List.length_cons, hforms.length_eq]
    omega
  have hcall := Eval.list_apply (procedure :: forms) (s.skip (2 * vs.length))
  rw [Store.skip_skip, hcount, Value.list_cons] at hcall
  refine ⟨(Value.list forms supply).2.ident, (Value.list forms supply).1, ?_, fun ev env => ?_⟩
  · rwa [Value.elements_list]
  · rw [applyValues, if_pos h, Run.bind_done hrun, Run.bind_done hcall]

/-! ### Calls with quoted values -/

theorem eval_procedure {procedure : Value} (h : procedure.isProcedure = true) (fuel : Nat)
    (env : FrameId) : eval k (fuel + 1) env procedure = pure procedure := by
  cases procedure with
  | primitive id p => rfl
  | lambda id formals body home => rfl
  | macroProc id formals body => rfl
  | _ => cases h

theorem apply_eq_call (k : Keywords) {procedure : Value} (h : procedure.isProcedure = true)
    (vs : List Value) (s : Store) :
    ∃ args, List.Forall₂ (Value.Quotes k) args.elements vs ∧ ∀ env,
      apply k 0 env procedure vs s = .stopped .fuel ∧
      apply k 1 env procedure vs s = .stopped .fuel ∧
      ∀ fuel, apply k (fuel + 2) env procedure vs s =
        call k (eval k (fuel + 1)) env procedure args (s.skip (3 * vs.length + 1)) := by
  obtain ⟨i, args, hargs, hcall⟩ := applyValues_eq k h vs s
  have happly : ∀ fuel env, apply k fuel env procedure vs s =
      eval k fuel env (.pair i procedure args) (s.skip (3 * vs.length + 1)) :=
    fun fuel env => hcall (eval k fuel) env
  refine ⟨args, hargs, fun env => ⟨happly 0 env, happly 1 env, fun fuel => ?_⟩⟩
  rw [happly, eval, evalStep, eval_procedure h, pure_bind]

/-- What an operation gives for values, with the number of them checked first. -/
def Operation.checked (k : Keywords) (o : Operation) (vs : List Value) : Eval Value :=
  if o.arity.admits vs.length then o.apply k vs else .fail (.arity o.name o.arity vs.length)

theorem invoke_quotes (o : Operation) (h : List.Forall₂ (Value.Quotes k) forms vs) (fuel : Nat)
    (env : FrameId) :
    Builtin.invoke k (eval k (fuel + 2)) env (.operation o) forms = o.checked k vs := by
  have htake : takeAll (eval k (fuel + 2) env) forms = pure vs := by
    rw [takeAll_congr (takes_of_quotes h fuel env), takeAll_pure]
  simp only [Builtin.invoke, Operation.checked, Builtin.arity, Builtin.name, htake, pure_bind,
    h.length_eq]

namespace Closure

section

variable {take take' : Value → Eval Value} {args args' : List Value}

theorem bindFixed_congr {β : Type} {f f' : List Value → Eval β}
    (hf : ∀ extra extra', List.Forall₂ (fun a b => take a = take' b) extra extra' →
      f extra = f' extra')
    (h : List.Forall₂ (fun a b => take a = take' b) args args') (frame : FrameId)
    (missing : EvalError) (names : List String) :
    (bindFixed take frame missing names args >>= f) =
      (bindFixed take' frame missing names args' >>= f') := by
  induction names generalizing args args' with
  | nil =>
    simp only [bindFixed, pure_bind]
    exact hf _ _ h
  | cons name names ih =>
    cases h with
    | nil => rfl
    | cons ha h => simp only [bindFixed, bind_assoc, ha, ih h]

theorem bindAll_congr (h : List.Forall₂ (fun a b => take a = take' b) args args')
    (frame : FrameId) (command : String) (formals : Formals) :
    bindAll take frame command formals args = bindAll take' frame command formals args' := by
  rw [bindAll, bindAll, h.length_eq]
  refine bindFixed_congr (fun extra extra' hextra => ?_) h frame _ _
  cases formals.rest with
  | some name => simp only [takeAll_congr hextra]
  | none => cases hextra <;> rfl

end

theorem callLambda_quotes (h : List.Forall₂ (Value.Quotes k) forms vs) (fuel : Nat)
    (env : FrameId) (formals : Formals) (body : Value) (home : FrameId) :
    callLambda (eval k (fuel + 2)) env formals body home forms = (do
      let frame ← Eval.derive home
      bindAll pure frame "lambda" formals vs
      evalBody (eval k (fuel + 2)) frame body.elements) := by
  simp only [callLambda, bindAll_congr (takes_of_quotes h fuel env)]

/-- A procedure that is called with values runs its body in a frame for them, whoever calls it. -/
theorem bindAll_values {formals : Formals} (hnodup : formals.names.Nodup) (vs : List Value)
    {s : Store} {home : FrameId} (hhome : home < s.scopes.frames.size) (command : String) :
    ∃ t, Store.Aside s.scopes.frames.size (s.derived home) t ∧
      (formals.Fits vs.length → Binds t.scopes s.scopes.frames.size home formals vs ∧
        bindAll pure s.scopes.frames.size command formals vs (s.derived home) = .done () t) ∧
      (¬ formals.Fits vs.length →
        bindAll pure s.scopes.frames.size command formals vs (s.derived home) =
          .failed (.arity command formals.arity vs.length) t) := by
  have htake : ∀ v ∈ vs, Ignores s.scopes.frames.size (fun _ => True) (pure v : Eval Value) :=
    fun v _ => ignores_pure v
  have hbinds := bindAll_derived hhome htake trivial command formals
  rw [takeAll_pure] at hbinds
  by_cases hfits : formals.Fits vs.length
  · obtain ⟨n, hn⟩ := hbinds.1 hfits
    rw [hfits.needed] at hn
    refine ⟨_, ⟨_, n, rfl⟩, fun _ => ⟨?_, hn⟩, fun hnot => absurd hfits hnot⟩
    exact binds_bound hnodup hfits (parent?_derived hhome) _
  · obtain ⟨b', hb'⟩ := hbinds.2 hfits
    exact ⟨_, ⟨b', 0, rfl⟩, fun h => absurd h hfits, fun _ => hb'⟩

end Closure

/-! ### Applying procedures -/

theorem apply_operation (k : Keywords) (o : Operation) (id : Ident) (vs : List Value) (s : Store)
    (fuel : Nat) (env : FrameId) :
    apply k (fuel + 3) env (.primitive id (.builtin (.operation o))) vs s =
      o.checked k vs (s.skip (3 * vs.length + 1)) := by
  have hprocedure : (Value.primitive id (.builtin (.operation o))).isProcedure = true := rfl
  obtain ⟨args, hargs, happly⟩ := apply_eq_call k hprocedure vs s
  rw [(happly env).2.2 (fuel + 1), ← invoke_quotes o hargs fuel env]
  rfl

theorem apply_made {home : FrameId} {written procedure : Value}
    (h : Closure.Made k home written procedure) (vs : List Value) {s : Store}
    (hhome : home < s.scopes.frames.size) :
    ∃ formals body t, Closure.parts "lambda" written = .ok (formals, body) ∧
      Store.Aside s.scopes.frames.size (s.derived home) t ∧
      (formals.Fits vs.length →
        Closure.Binds t.scopes s.scopes.frames.size home formals vs ∧
        ∀ fuel env, apply k (fuel + 3) env procedure vs s =
          evalBody (eval k (fuel + 2)) s.scopes.frames.size body.elements t) ∧
      (¬ formals.Fits vs.length → ∀ fuel env, apply k (fuel + 3) env procedure vs s =
        .failed (.arity "lambda" formals.arity vs.length) t) := by
  obtain ⟨args, hargs, happly⟩ := apply_eq_call k h.isProcedure vs s
  obtain ⟨id, formals, body, hparts, rfl⟩ := h.parts
  generalize hmid : s.skip (3 * vs.length + 1) = mid at happly
  have hscopes : mid.scopes = s.scopes := by
    rw [← hmid]
    rfl
  have hcall : ∀ fuel env, apply k (fuel + 3) env (.lambda id formals body home) vs s =
      (Closure.bindAll pure s.scopes.frames.size "lambda" formals vs >>= fun _ =>
        evalBody (eval k (fuel + 2)) s.scopes.frames.size body.elements) (mid.derived home) := by
    intro fuel env
    rw [(happly env).2.2 (fuel + 1), call, Closure.callLambda_quotes hargs fuel env,
      Run.bind_done (derive_apply home mid), hscopes]
  obtain ⟨t, ⟨b, n, ht⟩, hfits, hnot⟩ := Closure.bindAll_values (Closure.parts_nodup hparts) vs
    (hscopes ▸ hhome : home < mid.scopes.frames.size) "lambda"
  rw [hscopes] at ht hfits hnot
  refine ⟨formals, body, t, hparts, ⟨b, 3 * vs.length + 1 + n, ?_⟩, fun h => ?_, fun h fuel env => ?_⟩
  · rw [ht, ← hmid]
    exact Store.skip_skip ((s.derived home).replace s.scopes.frames.size b) _ n
  · obtain ⟨hbinds, hdone⟩ := hfits h
    exact ⟨hbinds, fun fuel env => by rw [hcall, Run.bind_done hdone]⟩
  · rw [hcall, Run.bind_failed (hnot h)]

/-- Who calls an operation or a procedure made by `lambda` with values makes no difference, whatever
fuel there is. -/
theorem apply_congr {procedure : Value}
    (h : (∃ id o, procedure = .primitive id (.builtin (.operation o))) ∨
      ∃ home written, Closure.Made k home written procedure)
    (vs : List Value) (s : Store) (fuel : Nat) (env₁ env₂ : FrameId) :
    apply k fuel env₁ procedure vs s = apply k fuel env₂ procedure vs s := by
  have hprocedure : procedure.isProcedure = true := by
    rcases h with ⟨id, o, rfl⟩ | ⟨home, written, hmade⟩
    · rfl
    · exact hmade.isProcedure
  obtain ⟨args, hargs, happly⟩ := apply_eq_call k hprocedure vs s
  match fuel with
  | 0 => rw [(happly env₁).1, (happly env₂).1]
  | 1 => rw [(happly env₁).2.1, (happly env₂).2.1]
  | fuel + 2 =>
    rw [(happly env₁).2.2, (happly env₂).2.2]
    refine congrFun ?_ _
    have htakes := takes_congr hargs (fuel + 1) env₁ env₂
    rcases h with ⟨id, o, rfl⟩ | ⟨home, written, hmade⟩
    · simp only [call, Primitive.call, Builtin.invoke, takeAll_congr htakes]
      rfl
    · obtain ⟨id, formals, body, -, rfl⟩ := hmade.parts
      simp only [call, Closure.callLambda, Closure.bindAll_congr htakes]
      rfl

/-- Applying a procedure to values is transparent and does not depend on the caller.  An operation
gives what it gives for the values themselves once their number has been checked, and so it does when
it is invoked on the quoted values.  A procedure made by `lambda` runs its body in a new frame that
binds its parameters to the values, or fails because of their number.  And whatever two frames bind,
the procedure ends the same way from both, in the same store. -/
theorem apply_transparent (k : Keywords) (vs : List Value) (s : Store) :
    (∀ o fuel env,
      (∀ id, apply k (fuel + 3) env (.primitive id (.builtin (.operation o))) vs s =
        o.checked k vs (s.skip (3 * vs.length + 1))) ∧
      ∀ forms, List.Forall₂ (Value.Quotes k) forms vs →
        Builtin.invoke k (eval k (fuel + 2)) env (.operation o) forms s = o.checked k vs s) ∧
    (∀ home written procedure, Closure.Made k home written procedure →
      home < s.scopes.frames.size →
      ∃ formals body t, Closure.parts "lambda" written = .ok (formals, body) ∧
        Store.Aside s.scopes.frames.size (s.derived home) t ∧
        (formals.Fits vs.length →
          Closure.Binds t.scopes s.scopes.frames.size home formals vs ∧
          ∀ fuel env, apply k (fuel + 3) env procedure vs s =
            evalBody (eval k (fuel + 2)) s.scopes.frames.size body.elements t) ∧
        (¬ formals.Fits vs.length → ∀ fuel env, apply k (fuel + 3) env procedure vs s =
          .failed (.arity "lambda" formals.arity vs.length) t)) ∧
    ∀ procedure, ((∃ id o, procedure = .primitive id (.builtin (.operation o))) ∨
        ∃ home written, Closure.Made k home written procedure) →
      ∀ fuel env₁ env₂, apply k fuel env₁ procedure vs s = apply k fuel env₂ procedure vs s := by
  refine ⟨fun o fuel env => ⟨fun id => ?_, fun forms hforms => ?_⟩, ?_, ?_⟩
  · exact apply_operation k o id vs s fuel env
  · rw [invoke_quotes o hforms fuel env]
  · exact fun home written procedure hmade hhome => apply_made hmade vs hhome
  · exact fun procedure h fuel env₁ env₂ => apply_congr h vs s fuel env₁ env₂

/-- The procedure of `((x *quote) x)`, made in a frame that binds `quote` and called, from there and
from another frame, with the symbols `quote` and `x`. -/
theorem apply_transparent_rebound :
    let k := (Keywords.intern (.empty 0) (.ofOwner 0) fun _ => .echo).1
    let x := Value.symbol ⟨0, 5, "x"⟩
    let body := Value.pair ⟨0, 3⟩ x .nil
    let written :=
      Value.pair ⟨0, 2⟩ (.pair ⟨0, 1⟩ x (.pair ⟨0, 0⟩ (.symbol ⟨0, 6, "*quote"⟩) .nil)) body
    let p := Value.lambda ⟨1, 0⟩ ⟨["x"], some "quote"⟩ body 0
    let scopes := Scopes.empty.create.2.create.2.set 0 "quote" (.number 7)
    let s : Store := ⟨scopes, .ofOwner 2, ""⟩
    let vs := [.symbol k.quotes.quote, x]
    Closure.Made k 0 written p ∧ 0 < s.scopes.frames.size ∧
      (∃ formals body t, Closure.parts "lambda" written = .ok (formals, body) ∧
        formals.Fits vs.length ∧ Closure.Binds t.scopes s.scopes.frames.size 0 formals vs ∧
        apply k 5 1 p vs s = evalBody (eval k 4) s.scopes.frames.size body.elements t) ∧
      ∀ fuel, apply k fuel 0 p vs s = apply k fuel 1 p vs s := by
  intro k x body written p scopes s vs
  have hparts : Closure.parts "lambda" written = .ok (⟨["x"], some "quote"⟩, body) := by rfl
  have hmade : Closure.Made k 0 written p := by
    refine ⟨fun _ _ => pure .nil, Store.empty (.ofOwner 1), Store.empty ⟨1, 1⟩, ?_⟩
    simp only [Primitive.call, Primitive.name, hparts]
    rfl
  have hsize : 0 < s.scopes.frames.size := by decide
  obtain ⟨-, hlambda, hcongr⟩ := apply_transparent k vs s
  obtain ⟨formals, body', t, hparts', -, hfits, -⟩ := hlambda 0 written p hmade hsize
  obtain ⟨rfl, rfl⟩ := Prod.mk.inj (Except.ok.inj (hparts.symm.trans hparts'))
  have hcount : Formals.Fits ⟨["x"], some "quote"⟩ vs.length :=
    ⟨by decide, fun hrest => by cases hrest⟩
  obtain ⟨hbinds, happly⟩ := hfits hcount
  exact ⟨hmade, hsize, ⟨_, _, t, hparts, hcount, hbinds, happly 2 1⟩,
    fun fuel => hcongr p (.inr ⟨0, written, hmade⟩) fuel 0 1⟩

end Lisplet
