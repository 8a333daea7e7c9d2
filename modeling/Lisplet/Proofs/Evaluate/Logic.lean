import Lisplet.Evaluate

/-! A logic for evaluation.  A judgement on computations says of each that it ends with some property
if it starts where some values and frames are admitted, which may depend on a world that grows as the
computation goes on.  `Steps` lists what a judgement must say of the basic steps and `Rules` adds what
it must say of the host program's procedures; `Rules.eval` is what it then says of every evaluation.
The proofs follow the evaluator: one lemma for each way of calling a procedure, as long as the
evaluation of the expressions inside is judged well. -/

namespace Lisplet

/-- The rules of a judgement `R` for the basic steps, for the values that `P` admits, evaluation in the
frames that `F` admits, and procedures that close over the frames that `H` admits.  What is made of
admitted parts is admitted, and so are the parts of what is admitted. -/
structure Steps {W : Type} (Grows : W → W → Prop) (k : Keywords) (P : W → Value → Prop)
    (F H : W → FrameId → Prop) (R : (α : Type) → W → (W → α → Prop) → Eval α → Prop) : Prop where
  refl : ∀ w, Grows w w
  trans : ∀ {w w' w''}, Grows w w' → Grows w' w'' → Grows w w''
  later : ∀ {w w' v}, Grows w w' → P w v → P w' v
  laterFrame : ∀ {w w' f}, Grows w w' → F w f → F w' f
  home : ∀ {w f}, F w f → H w f
  nil : ∀ w, P w .nil
  number : ∀ w n, P w (.number n)
  t : ∀ w, P w (.symbol k.t)
  quote : ∀ w, P w (.symbol k.quotes.quote)
  quoteProcedure : ∀ w, P w k.quoteProcedure
  pair : ∀ {w id head tail}, P w (.pair id head tail) → P w head ∧ P w tail
  lambda : ∀ {w id formals body home}, P w (.lambda id formals body home) → P w body ∧ H w home
  macroProc : ∀ {w id formals body}, P w (.macroProc id formals body) → P w body
  value : ∀ {α : Type} {w} {Q : W → α → Prop} {a : α}, Q w a → R α w Q (pure a)
  fail : ∀ {α : Type} {w} {Q : W → α → Prop} (e : EvalError), R α w Q (.fail e)
  exhausted : ∀ {α : Type} {w} {Q : W → α → Prop}, R α w Q (.stop .fuel)
  bind : ∀ {α β : Type} {w} {Q : W → α → Prop} {Q' : W → β → Prop} {x : Eval α} {f : α → Eval β},
    R α w Q x → (∀ w' a, Grows w w' → Q w' a → R β w' Q' (f a)) → R β w Q' (x >>= f)
  cons : ∀ {w head tail}, P w head → P w tail → tail.isList = true →
    R Value w P (Eval.cons head tail)
  list : ∀ {w items}, (∀ v ∈ items, P w v) → R Value w P (Eval.list items)
  makeLambda : ∀ {w formals body home}, P w body → H w home →
    R Value w P (Eval.fresh fun id => .lambda id formals body home)
  makeMacro : ∀ {w formals body}, P w body →
    R Value w P (Eval.fresh fun id => .macroProc id formals body)
  derive : ∀ {w f}, H w f → R FrameId w F (Eval.derive f)
  find? : ∀ {w f name}, F w f →
    R (Option Value) w (fun w found => ∀ v, found = some v → P w v) (Eval.find? f name)
  set : ∀ {w f name v}, F w f → P w v → R Unit w (fun _ _ => True) (Eval.set f name v)
  assign : ∀ {w f name v}, F w f → P w v → R Bool w (fun _ _ => True) (Eval.assign f name v)
  print : ∀ {w text}, R Unit w (fun _ _ => True) (Eval.print text)

/-- The evaluation of admitted expressions in admitted frames is judged well. -/
def Judges {W : Type} (P : W → Value → Prop) (F : W → FrameId → Prop)
    (R : (α : Type) → W → (W → α → Prop) → Eval α → Prop) (ev : Evaluation) : Prop :=
  ∀ w env e, F w env → P w e → R Value w P (ev env e)

/-- The rules of a judgement, which judges the procedures of the host program well if it judges the
evaluations that they ask for well. -/
structure Rules {W : Type} (Grows : W → W → Prop) (k : Keywords) (P : W → Value → Prop)
    (F H : W → FrameId → Prop) (R : (α : Type) → W → (W → α → Prop) → Eval α → Prop) : Prop
    extends Steps Grows k P F H R where
  host : ∀ {w env args} (ev : Evaluation) (code : Nat), Judges P F R ev → F w env → P w args →
    R Value w P (k.hosts code ev env args)

/-- A procedure of the host program is plain if it is put together from the basic steps and from
evaluation, so that every judgement of these judges it well. -/
def Host.Plain (k : Keywords) (h : Host) : Prop :=
  ∀ {W : Type} {Grows : W → W → Prop} {P : W → Value → Prop} {F H : W → FrameId → Prop}
    {R : (α : Type) → W → (W → α → Prop) → Eval α → Prop}, Steps Grows k P F H R →
    ∀ (ev : Evaluation) w env args, Judges P F R ev → F w env → P w args →
      R Value w P (h ev env args)

/-- All procedures of the host program are plain. -/
def Keywords.Plain (k : Keywords) : Prop := ∀ code, (k.hosts code).Plain k

theorem Host.plain_echo (k : Keywords) : Host.echo.Plain k :=
  fun hR _ _ _ _ _ _ hargs => hR.value hargs

theorem Steps.rules {W : Type} {Grows : W → W → Prop} {k : Keywords} {P : W → Value → Prop}
    {F H : W → FrameId → Prop} {R : (α : Type) → W → (W → α → Prop) → Eval α → Prop}
    (hR : Steps Grows k P F H R) (hk : k.Plain) : Rules Grows k P F H R :=
  { hR with host := fun ev code => hk code hR ev _ _ _ }

namespace Rules

variable {W : Type} {Grows : W → W → Prop} {k : Keywords} {P : W → Value → Prop}
  {F H : W → FrameId → Prop} {R : (α : Type) → W → (W → α → Prop) → Eval α → Prop} {w : W}
  {env : FrameId} (hR : Rules Grows k P F H R)

/-! ### Values -/

section

include hR

theorem laterAll {w' : W} {vs : List Value} (hw : Grows w w') (h : ∀ v ∈ vs, P w v) :
    ∀ v ∈ vs, P w' v := fun v hv => hR.later hw (h v hv)

theorem truth (w : W) (condition : Bool) : P w (k.truth condition) := by
  cases condition with
  | false => exact hR.nil w
  | true => exact hR.t w

theorem elements {v : Value} (h : P w v) : ∀ e ∈ v.elements, P w e := by
  induction v with
  | pair id head tail _ ih =>
    obtain ⟨hhead, htail⟩ := hR.pair h
    exact List.forall_mem_cons.2 ⟨hhead, ih htail⟩
  | _ => nofun

theorem spliced {v : Value} (h : P w v) : ∀ e ∈ Template.spliced v, P w e := by
  unfold Template.spliced
  split
  · exact hR.elements h
  · exact List.forall_mem_singleton.2 h

/-- The arguments of a hole are parts of the element. -/
theorem part {element : Value} {args : List Value} (h : P w element)
    (hpart : Template.part k element = .hole args ∨ Template.part k element = .splice args) :
    ∀ v ∈ args, P w v := by
  cases element with
  | pair id head rest =>
    have hrest := hR.elements (hR.pair h).2
    simp only [Template.part] at hpart
    split at hpart
    · simp at hpart
    · split at hpart
      · simp only [Template.Part.hole.injEq, reduceCtorEq, or_false] at hpart
        exact hpart ▸ hrest
      · split at hpart
        · simp only [Template.Part.splice.injEq, reduceCtorEq, false_or] at hpart
          exact hpart ▸ hrest
        · simp at hpart
  | _ => simp [Template.part] at hpart

theorem parts {command : String} {args body : Value} {formals : Formals} (hargs : P w args)
    (h : Closure.parts command args = .ok (formals, body)) : P w body := by
  unfold Closure.parts at h
  split at h
  · next id params rest =>
    cases hformals : Formals.ofValue command params with
    | error e => rw [hformals] at h; cases h
    | ok f =>
      rw [hformals] at h
      obtain ⟨-, rfl⟩ := Prod.mk.inj (Except.ok.inj h)
      exact (hR.pair hargs).2
  · cases h

theorem compute {o : Operation} {args : List Value} {v : Value} (hargs : ∀ a ∈ args, P w a)
    (h : o.compute k args = .ok v) : P w v := by
  obtain ⟨n, rfl⟩ | ⟨condition, rfl⟩ | rfl | ⟨id, head, tail, hmem, hv⟩ := Operation.compute_eq_ok h
  · exact hR.number w n
  · exact hR.truth w condition
  · exact hR.nil w
  · obtain ⟨hhead, htail⟩ := hR.pair (hargs _ hmem)
    rcases hv with rfl | rfl
    · exact hhead
    · exact htail

/-! ### Computations that evaluate nothing themselves -/

theorem takeAll (env : FrameId) {take : Value → Eval Value}
    (htake : ∀ w v, F w env → P w v → R Value w P (take v)) {vs : List Value} (henv : F w env)
    (hvs : ∀ v ∈ vs, P w v) :
    R (List Value) w (fun w ws => ∀ v ∈ ws, P w v) (Lisplet.takeAll take vs) := by
  induction vs generalizing w with
  | nil => exact hR.value nofun
  | cons v vs ih =>
    obtain ⟨hv, hvs⟩ := List.forall_mem_cons.1 hvs
    refine hR.bind (htake w v henv hv) fun w₁ u hw₁ hu => ?_
    refine hR.bind (ih (hR.laterFrame hw₁ henv) (hR.laterAll hw₁ hvs)) fun w₂ us hw₂ hus => ?_
    exact hR.value (List.forall_mem_cons.2 ⟨hR.later hw₂ hu, hus⟩)

theorem bindFixed {take : Value → Eval Value}
    (htake : ∀ w v, F w env → P w v → R Value w P (take v)) {frame : FrameId}
    (missing : EvalError) {names : List String} {args : List Value} (henv : F w env)
    (hframe : F w frame) (hargs : ∀ v ∈ args, P w v) :
    R (List Value) w (fun w extra => ∀ v ∈ extra, P w v)
      (Closure.bindFixed take frame missing names args) := by
  induction names generalizing w args with
  | nil => exact hR.value hargs
  | cons name names ih =>
    cases args with
    | nil => exact hR.fail missing
    | cons arg args =>
      obtain ⟨harg, hargs⟩ := List.forall_mem_cons.1 hargs
      refine hR.bind (htake w arg henv harg) fun w₁ v hw₁ hv => ?_
      refine hR.bind (hR.set (hR.laterFrame hw₁ hframe) hv) fun w₂ _ hw₂ _ => ?_
      have hw := hR.trans hw₁ hw₂
      exact ih (hR.laterFrame hw henv) (hR.laterFrame hw hframe) (hR.laterAll hw hargs)

theorem bindAll {take : Value → Eval Value}
    (htake : ∀ w v, F w env → P w v → R Value w P (take v)) {frame : FrameId} (command : String)
    (formals : Formals) {args : List Value} (henv : F w env) (hframe : F w frame)
    (hargs : ∀ v ∈ args, P w v) :
    R Unit w (fun _ _ => True) (Closure.bindAll take frame command formals args) := by
  refine hR.bind (hR.bindFixed htake _ henv hframe hargs) fun w₁ extra hw₁ hextra => ?_
  split
  · refine hR.bind (hR.takeAll env htake (hR.laterFrame hw₁ henv) hextra) fun w₂ vs hw₂ hvs => ?_
    refine hR.bind (hR.list hvs) fun w₃ v hw₃ hv => ?_
    exact hR.set (hR.laterFrame (hR.trans hw₁ (hR.trans hw₂ hw₃)) hframe) hv
  · split
    · exact hR.value trivial
    · exact hR.fail _

theorem operation (o : Operation) {args : List Value} (hargs : ∀ v ∈ args, P w v) :
    R Value w P (o.apply k args) := by
  unfold Operation.apply
  split
  · next head tail =>
    split
    · next hlist => exact hR.cons (hargs head (by simp)) (hargs tail (by simp)) hlist
    · exact hR.fail _
  · exact hR.list hargs
  · refine hR.bind hR.print fun w₁ _ hw₁ _ => hR.value ?_
    cases hlast : List.getLast? _ with
    | none => exact hR.nil w₁
    | some v => exact hR.later hw₁ (hargs v (List.mem_of_getLast? hlast))
  · split
    · next v hv => exact hR.value (hR.compute hargs hv)
    · exact hR.fail _

theorem nameArg (f : SpecialForm) (v : Value) :
    R String w (fun _ _ => True) (f.nameArg v) := by
  unfold SpecialForm.nameArg
  split
  · exact hR.value trivial
  · exact hR.fail _

/-- The quote forms of admitted values are admitted. -/
theorem quoteForms {vs : List Value} (hvs : ∀ v ∈ vs, P w v) :
    R (List Value) w (fun w ws => ∀ v ∈ ws, P w v)
      (Lisplet.takeAll (fun v => Eval.list [.symbol k.quotes.quote, v]) vs) := by
  induction vs generalizing w with
  | nil => exact hR.value nofun
  | cons v vs ih =>
    obtain ⟨hv, hvs⟩ := List.forall_mem_cons.1 hvs
    refine hR.bind (hR.list ?_) fun w₁ form hw₁ hform => ?_
    · exact List.forall_mem_cons.2 ⟨hR.quote w, List.forall_mem_singleton.2 hv⟩
    refine hR.bind (ih (hR.laterAll hw₁ hvs)) fun w₂ forms hw₂ hforms => ?_
    exact hR.value (List.forall_mem_cons.2 ⟨hR.later hw₂ hform, hforms⟩)

end

/-! ### Computations that evaluate expressions -/

section

variable {ev : Evaluation} (hev : Judges P F R ev) (henv : F w env)

include hR hev henv

theorem evalBody {es : List Value} (hes : ∀ e ∈ es, P w e) :
    R Value w P (Lisplet.evalBody ev env es) := by
  induction es generalizing w with
  | nil => exact hR.value (hR.nil w)
  | cons e es ih =>
    obtain ⟨he, hes⟩ := List.forall_mem_cons.1 hes
    cases es with
    | nil => exact hev w env e henv he
    | cons e' es =>
      refine hR.bind (hev w env e henv he) fun w₁ _ hw₁ _ => ?_
      exact ih (hR.laterFrame hw₁ henv) (hR.laterAll hw₁ hes)

theorem evalConj {last : Value} {es : List Value} (hlast : P w last) (hes : ∀ e ∈ es, P w e) :
    R Value w P (Lisplet.evalConj ev env last es) := by
  induction es generalizing w last with
  | nil => exact hR.value hlast
  | cons e es ih =>
    obtain ⟨he, hes⟩ := List.forall_mem_cons.1 hes
    refine hR.bind (hev w env e henv he) fun w₁ v hw₁ hv => ?_
    split
    · exact ih (hR.laterFrame hw₁ henv) hv (hR.laterAll hw₁ hes)
    · exact hR.value hv

theorem evalDisj {es : List Value} (hes : ∀ e ∈ es, P w e) :
    R Value w P (Lisplet.evalDisj ev env es) := by
  induction es generalizing w with
  | nil => exact hR.value (hR.nil w)
  | cons e es ih =>
    obtain ⟨he, hes⟩ := List.forall_mem_cons.1 hes
    refine hR.bind (hev w env e henv he) fun w₁ v hw₁ hv => ?_
    split
    · exact hR.value hv
    · exact ih (hR.laterFrame hw₁ henv) (hR.laterAll hw₁ hes)

theorem fillHole (kind : QuoteKind) {args : List Value} (hargs : ∀ v ∈ args, P w v) :
    R Value w P (Template.fillHole ev env kind args) := by
  unfold Template.fillHole
  split
  · exact hev w env _ henv (hargs _ List.mem_cons_self)
  · exact hR.fail _

theorem items {template : Value} (htemplate : P w template) :
    R (List Value) w (fun w vs => ∀ v ∈ vs, P w v) (Template.items k ev env template) := by
  induction template generalizing w with
  | pair id element rest ihElement ihRest =>
    obtain ⟨helement, hrest⟩ := hR.pair htemplate
    -- Whatever takes the place of the element, the rest follows in a later world.
    have hmore : ∀ (w' : W) (here : List Value), Grows w w' → (∀ v ∈ here, P w' v) →
        R (List Value) w' (fun w vs => ∀ v ∈ vs, P w v)
          (Template.items k ev env rest >>= fun others => pure (here ++ others)) := by
      intro w' here hw hhere
      refine hR.bind (ihRest (hR.laterFrame hw henv) (hR.later hw hrest))
        fun w₁ others hw₁ hothers => hR.value ?_
      exact List.forall_mem_append.2 ⟨hR.laterAll hw₁ hhere, hothers⟩
    rw [Template.items]
    split
    · exact hmore w _ (hR.refl w) (List.forall_mem_singleton.2 helement)
    · next args hargs =>
      refine hR.bind (hR.fillHole hev henv _ (hR.part helement (.inl hargs)))
        fun w₁ v hw₁ hv => ?_
      exact hmore w₁ _ hw₁ (List.forall_mem_singleton.2 hv)
    · next args hargs =>
      refine hR.bind (hR.fillHole hev henv _ (hR.part helement (.inr hargs)))
        fun w₁ v hw₁ hv => ?_
      exact hmore w₁ _ hw₁ (hR.spliced hv)
    · refine hR.bind (ihElement henv helement) fun w₁ vs hw₁ hvs => ?_
      refine hR.bind (hR.list hvs) fun w₂ v hw₂ hv => ?_
      exact hmore w₂ _ (hR.trans hw₁ hw₂) (List.forall_mem_singleton.2 hv)
  | _ => exact hR.value fun _ hv => absurd hv List.not_mem_nil

theorem fill {template : Value} (htemplate : P w template) :
    R Value w P (Template.fill k ev env template) := by
  unfold Template.fill
  split
  · next id head args =>
    split
    · exact hR.fillHole hev henv _ (hR.elements (hR.pair htemplate).2)
    · exact hR.bind (hR.items hev henv htemplate) fun w₁ vs _ hvs => hR.list hvs
  · exact hR.value htemplate

theorem callLambda (formals : Formals) {body : Value} {home : FrameId} {args : List Value}
    (hbody : P w body) (hhome : H w home) (hargs : ∀ v ∈ args, P w v) :
    R Value w P (Closure.callLambda ev env formals body home args) := by
  refine hR.bind (hR.derive hhome) fun w₁ frame hw₁ hframe => ?_
  refine hR.bind (hR.bindAll (fun w v => hev w env v) _ _ (hR.laterFrame hw₁ henv) hframe
    (hR.laterAll hw₁ hargs)) fun w₂ _ hw₂ _ => ?_
  exact hR.evalBody hev (hR.laterFrame hw₂ hframe)
    (hR.elements (hR.later (hR.trans hw₁ hw₂) hbody))

theorem callMacro (formals : Formals) {body : Value} {args : List Value} (hbody : P w body)
    (hargs : ∀ v ∈ args, P w v) :
    R Value w P (Closure.callMacro ev env formals body args) := by
  refine hR.bind (hR.derive (hR.home henv)) fun w₁ frame hw₁ hframe => ?_
  refine hR.bind (hR.bindAll (fun w v _ hv => hR.value hv) _ _ (hR.laterFrame hw₁ henv) hframe
    (hR.laterAll hw₁ hargs)) fun w₂ _ hw₂ _ => ?_
  have hbody := hR.later (hR.trans hw₁ hw₂) hbody
  refine hR.bind (hR.evalBody hev (hR.laterFrame hw₂ hframe) (hR.elements hbody))
    fun w₃ expansion hw₃ hexpansion => ?_
  exact hev w₃ env expansion (hR.laterFrame (hR.trans hw₁ (hR.trans hw₂ hw₃)) henv) hexpansion

theorem applyValues {procedure : Value} {vs : List Value} (hprocedure : P w procedure)
    (hvs : ∀ v ∈ vs, P w v) : R Value w P (Lisplet.applyValues k ev env procedure vs) := by
  unfold Lisplet.applyValues
  split
  · refine hR.bind (hR.quoteForms hvs) fun w₁ forms hw₁ hforms => ?_
    have hcall := List.forall_mem_cons.2 ⟨hR.later hw₁ hprocedure, hforms⟩
    refine hR.bind (hR.list hcall) fun w₂ form hw₂ hform => ?_
    exact hev w₂ env form (hR.laterFrame (hR.trans hw₁ hw₂) henv) hform
  · exact hR.fail _

theorem runClauses {clauses : List Value} (hclauses : ∀ v ∈ clauses, P w v) :
    R Value w P (SpecialForm.runClauses ev env clauses) := by
  induction clauses generalizing w with
  | nil => exact hR.value (hR.nil w)
  | cons clause clauses ih =>
    obtain ⟨hclause, hrest⟩ := List.forall_mem_cons.1 hclauses
    cases clause with
    | pair id test body =>
      obtain ⟨htest, hbody⟩ := hR.pair hclause
      refine hR.bind (hev w env test henv htest) fun w₁ v hw₁ hv => ?_
      have henv₁ := hR.laterFrame hw₁ henv
      split
      · split
        · exact hR.value hv
        · exact hR.evalBody hev henv₁ (hR.elements (hR.later hw₁ hbody))
      · exact ih henv₁ (hR.laterAll hw₁ hrest)
    | _ => exact hR.fail _

theorem run (f : SpecialForm) {args : List Value} (hargs : ∀ v ∈ args, P w v) :
    R Value w P (f.run k ev env args) := by
  have heval : ∀ w' e, Grows w w' → e ∈ args → R Value w' P (ev env e) :=
    fun w' e hw he => hev w' env e (hR.laterFrame hw henv) (hR.later hw (hargs e he))
  unfold SpecialForm.run
  split
  · next name expr =>
    refine hR.bind (hR.nameArg _ _) fun w₁ key hw₁ _ => ?_
    refine hR.bind (heval w₁ expr hw₁ (by simp)) fun w₂ v hw₂ hv => ?_
    have hw := hR.trans hw₁ hw₂
    refine hR.bind (hR.set (hR.laterFrame hw henv) hv) fun w₃ _ hw₃ _ => hR.value ?_
    exact hR.later (hR.trans hw hw₃) (hargs name (by simp))
  · next name expr =>
    refine hR.bind (hR.nameArg _ _) fun w₁ key hw₁ _ => ?_
    refine hR.bind (heval w₁ expr hw₁ (by simp)) fun w₂ v hw₂ hv => ?_
    refine hR.bind (hR.assign (hR.laterFrame (hR.trans hw₁ hw₂) henv) hv) fun w₃ found hw₃ _ => ?_
    split
    · exact hR.value (hR.later hw₃ hv)
    · exact hR.fail _
  · next test yes =>
    refine hR.bind (heval w test (hR.refl w) (by simp)) fun w₁ v hw₁ _ => ?_
    split
    · exact heval w₁ yes hw₁ (by simp)
    · exact hR.value (hR.nil w₁)
  · next test yes no =>
    refine hR.bind (heval w test (hR.refl w) (by simp)) fun w₁ v hw₁ _ => ?_
    split
    · exact heval w₁ yes hw₁ (by simp)
    · exact heval w₁ no hw₁ (by simp)
  · exact hR.runClauses hev henv hargs
  · exact hR.evalBody hev henv hargs
  · exact hR.evalConj hev henv (hR.truth w true) hargs
  · exact hR.evalDisj hev henv hargs
  · next name expr =>
    refine hR.bind (hR.nameArg _ _) fun w₁ key hw₁ _ => ?_
    refine hR.bind (hR.derive (hR.home (hR.laterFrame hw₁ henv))) fun w₂ frame hw₂ hframe => ?_
    have hexpr := hR.later (hR.trans hw₁ hw₂) (hargs expr (by simp))
    refine hR.bind (hev w₂ frame expr hframe hexpr) fun w₃ v hw₃ hv => ?_
    refine hR.bind (hR.set (hR.laterFrame hw₃ hframe) hv) fun w₄ _ hw₄ _ => ?_
    exact hR.value (hR.later hw₄ hv)
  · next procedure list =>
    refine hR.bind (heval w procedure (hR.refl w) (by simp)) fun w₁ p hw₁ hp => ?_
    refine hR.bind (heval w₁ list hw₁ (by simp)) fun w₂ vs hw₂ hvs => ?_
    split
    · exact hR.applyValues hev (hR.laterFrame (hR.trans hw₁ hw₂) henv) (hR.later hw₂ hp)
        (hR.elements hvs)
    · exact hR.fail _
  · next expr =>
    refine hR.bind (heval w expr (hR.refl w) (by simp)) fun w₁ form hw₁ hform => ?_
    exact hev w₁ env form (hR.laterFrame hw₁ henv) hform
  · exact hR.fail _

theorem invoke (b : Builtin) {args : List Value} (hargs : ∀ v ∈ args, P w v) :
    R Value w P (b.invoke k ev env args) := by
  unfold Builtin.invoke
  split
  · cases b with
    | form f => exact hR.run hev henv f hargs
    | operation o =>
      exact hR.bind (hR.takeAll env (fun w v => hev w env v) henv hargs)
        fun w₁ vs _ hvs => hR.operation o hvs
  · exact hR.fail _

theorem primitive (p : Primitive) {args : Value} (hargs : P w args) :
    R Value w P (p.call k ev env args) := by
  have helements := hR.elements hargs
  cases p with
  | quote =>
    simp only [Primitive.call]
    split
    · next v hv => exact hR.value (helements v (by simp [hv]))
    · exact hR.fail _
  | quasiquote =>
    simp only [Primitive.call]
    split
    · next template htemplate =>
      exact hR.fill hev henv (helements template (by simp [htemplate]))
    · exact hR.fail _
  | lambda =>
    simp only [Primitive.call]
    split
    · next formals body hparts => exact hR.makeLambda (hR.parts hargs hparts) (hR.home henv)
    · exact hR.fail _
  | macroMaker =>
    simp only [Primitive.call]
    split
    · next formals body hparts => exact hR.makeMacro (hR.parts hargs hparts)
    · exact hR.fail _
  | builtin b => exact hR.invoke hev henv b helements
  | host name code => exact hR.host ev code hev henv hargs

theorem call {procedure args : Value} (hprocedure : P w procedure) (hargs : P w args) :
    R Value w P (Lisplet.call k ev env procedure args) := by
  unfold Lisplet.call
  split
  · exact hR.primitive hev henv _ hargs
  · obtain ⟨hbody, hhome⟩ := hR.lambda hprocedure
    exact hR.callLambda hev henv _ hbody hhome (hR.elements hargs)
  · exact hR.callMacro hev henv _ (hR.macroProc hprocedure) (hR.elements hargs)
  · exact hR.fail _

theorem evalStep {expr : Value} (hexpr : P w expr) :
    R Value w P (Lisplet.evalStep k ev env expr) := by
  unfold Lisplet.evalStep
  split
  · obtain ⟨hhead, hargs⟩ := hR.pair hexpr
    refine hR.bind (hev w env _ henv hhead) fun w₁ p hw₁ hp => ?_
    exact hR.call hev (hR.laterFrame hw₁ henv) hp (hR.later hw₁ hargs)
  · split
    · exact hR.value (hR.quoteProcedure w)
    · refine hR.bind (hR.find? henv) fun w₁ found _ hfound => ?_
      split
      · next v => exact hR.value (hfound v rfl)
      · exact hR.fail _
  · exact hR.value hexpr

end

include hR in
/-- Evaluating an admitted expression in an admitted frame gives an admitted value, in the sense of
the judgement, whatever fuel there is. -/
theorem eval (fuel : Nat) (w : W) (env : FrameId) (expr : Value) (henv : F w env)
    (hexpr : P w expr) : R Value w P (Lisplet.eval k fuel env expr) := by
  induction fuel generalizing w env expr with
  | zero => exact hR.exhausted
  | succ fuel ih => exact hR.evalStep ih henv hexpr

end Rules

/-! ### Invariants of the store -/

/-- If the computation ended, the first property holds of the value, if there is one, and the second
of the state. -/
def Outcome.Ends {σ ε α : Type} (P : α → Prop) (Q : σ → Prop) : Outcome σ ε α → Prop
  | .done a s => P a ∧ Q s
  | .failed _ s => Q s
  | .stopped _ => True

/-- If the computation ended, the second property holds of the state, and the first of the value and
the state, if there is a value. -/
def Outcome.EndsWith {σ ε α : Type} (P : α → σ → Prop) (Q : σ → Prop) : Outcome σ ε α → Prop
  | .done a t => P a t ∧ Q t
  | .failed _ t => Q t
  | .stopped _ => True

/-- From a store with the invariant the computation leaves one with it, and gives a value with the
property. -/
def Keeps {α : Type} (I : Store → Prop) (Q : α → Prop) (x : Eval α) : Prop :=
  ∀ s, I s → (x s).Ends Q I

theorem Keeps.bind {α β : Type} {I : Store → Prop} {Q : α → Prop} {Q' : β → Prop} {x : Eval α}
    {f : α → Eval β} (hx : Keeps I Q x) (hf : ∀ a, Q a → Keeps I Q' (f a)) :
    Keeps I Q' (x >>= f) := by
  intro s hs
  have hends := hx s hs
  cases hrun : x s with
  | done a t =>
    rw [hrun] at hends
    rw [Run.bind_done hrun]
    exact hf a hends.1 t hends.2
  | failed e t =>
    rw [hrun] at hends
    rw [Run.bind_failed hrun]
    exact hends
  | stopped why =>
    rw [Run.bind_stopped hrun]
    trivial

/-- The same end in another state. -/
def Outcome.mapState {σ ε α : Type} (f : σ → σ) : Outcome σ ε α → Outcome σ ε α
  | .done a s => .done a (f s)
  | .failed e s => .failed e (f s)
  | .stopped why => .stopped why

/-- The computation keeps the invariant, and from a store with the invariant that has been changed by
`f` it does the same as before the change, up to the change. -/
structure Commutes {α : Type} (f : Store → Store) (I : Store → Prop) (Q : α → Prop) (x : Eval α) :
    Prop where
  keeps : Keeps I Q x
  same : ∀ s, I s → x (f s) = (x s).mapState f

theorem Commutes.bind {α β : Type} {f : Store → Store} {I : Store → Prop} {Q : α → Prop}
    {Q' : β → Prop} {x : Eval α} {g : α → Eval β} (hx : Commutes f I Q x)
    (hg : ∀ a, Q a → Commutes f I Q' (g a)) : Commutes f I Q' (x >>= g) := by
  refine ⟨hx.keeps.bind fun a ha => (hg a ha).keeps, fun s hs => ?_⟩
  have hends := hx.keeps s hs
  have hsame := hx.same s hs
  cases hrun : x s with
  | done a t =>
    rw [hrun] at hends hsame
    rw [Run.bind_done hrun, Run.bind_done hsame]
    exact (hg a hends.1).same t hends.2
  | failed e t =>
    rw [hrun] at hsame
    rw [Run.bind_failed hrun, Run.bind_failed hsame]
    rfl
  | stopped why =>
    rw [hrun] at hsame
    rw [Run.bind_stopped hrun, Run.bind_stopped hsame]
    rfl

end Lisplet
