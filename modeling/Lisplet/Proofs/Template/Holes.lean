import Lisplet.Proofs.Evaluate.Steps

/-! Templates in three phases.  `holes` collects the holes of a template, `Fills` evaluates their
arguments one after the other, and `Filled` puts the values in their places.  Filling a template
interleaves the three, since it goes through the template once; `fill_phased` says that it comes to
the same end.  `Phased` is what the proof needs to know of each computation on the way, and a rule for
each step composes it. -/

namespace Lisplet.Template

/-- A place for a value: the form that it is written as, and what the form is given. -/
structure Hole where
  kind : QuoteKind
  args : List Value

/-- What a form is given. -/
def formArgs (form : Value) : List Value := (form.tail?.getD .nil).elements

/-- The holes among the elements of a list and of the lists inside it, in order.  What is inside a
quote form or inside a hole is not looked at. -/
def innerHoles (q : QuoteSymbols) : Value → List Hole
  | .pair _ element rest =>
    (if element.isForm q.quote then []
      else if element.isForm q.unquote then [⟨.unquote, formArgs element⟩]
      else if element.isForm q.unquoteSplicing then [⟨.unquoteSplicing, formArgs element⟩]
      else innerHoles q element) ++ innerHoles q rest
  | _ => []

/-- The holes of a template, which may be one itself. -/
def holes (q : QuoteSymbols) (template : Value) : List Hole :=
  if template.isForm q.unquote then [⟨.unquote, formArgs template⟩] else innerHoles q template

/-- The arguments of the holes are evaluated in order, each from the store that the one before left,
with nothing but identities handed out between them.  The first hole that has not one argument, or
whose argument has no value, is the last that is looked at.  The values are those until then. -/
inductive Fills (ev : Evaluation) (env : FrameId) :
    List Hole → Store → List Value → Outcome Store EvalError Unit → Prop
  | finished (s : Store) (n : Nat) : Fills ev env [] s [] (.done () (s.skip n))
  | value {hole : Hole} {others : List Hole} {s t : Store} {n : Nat} {arg v : Value}
      {vs : List Value} {ending : Outcome Store EvalError Unit} (one : hole.args = [arg])
      (run : ev env arg (s.skip n) = .done v t) (more : Fills ev env others t vs ending) :
      Fills ev env (hole :: others) s (v :: vs) ending
  | failed {hole : Hole} {others : List Hole} {s t : Store} {n : Nat} {arg : Value}
      {e : EvalError} (one : hole.args = [arg])
      (run : ev env arg (s.skip n) = .failed e t) :
      Fills ev env (hole :: others) s [] (.failed e t)
  | unended {hole : Hole} {others : List Hole} {s : Store} {n : Nat} {arg : Value} {why : Stop}
      (one : hole.args = [arg]) (run : ev env arg (s.skip n) = .stopped why) :
      Fills ev env (hole :: others) s [] (.stopped why)
  | malformed {hole : Hole} {others : List Hole} {s : Store} {n : Nat}
      (many : hole.args.length ≠ 1) :
      Fills ev env (hole :: others) s []
        (.failed (.arity hole.kind.name (.exactly 1) hole.args.length) (s.skip n))

/-- The elements of a list with the values in the places of its holes.  An element that is neither a
hole nor a list to be searched stays the very same; a list that was searched is made anew. -/
inductive Filled (q : QuoteSymbols) : Value → List Value → List Value → Prop
  | ended {v : Value} (atom : v.isPair = false) : Filled q v [] []
  | kept {id : Ident} {element rest : Value} {vs items : List Value}
      (plain : element.isPair = false ∨ element.isForm q.quote = true)
      (more : Filled q rest vs items) : Filled q (.pair id element rest) vs (element :: items)
  | hole {id : Ident} {element rest v : Value} {vs items : List Value}
      (unshielded : element.isForm q.quote = false) (form : element.isForm q.unquote = true)
      (more : Filled q rest vs items) : Filled q (.pair id element rest) (v :: vs) (v :: items)
  | splice {id : Ident} {element rest v : Value} {vs items : List Value}
      (unshielded : element.isForm q.quote = false) (other : element.isForm q.unquote = false)
      (form : element.isForm q.unquoteSplicing = true) (more : Filled q rest vs items) :
      Filled q (.pair id element rest) (v :: vs)
        ((if v.isList then v.elements else [v]) ++ items)
  | inner {id : Ident} {element rest : Value} {us vs inside items : List Value} (supply : Supply)
      (list : element.isPair = true) (unshielded : element.isForm q.quote = false)
      (other : element.isForm q.unquote = false)
      (form : element.isForm q.unquoteSplicing = false) (elements : Filled q element us inside)
      (more : Filled q rest vs items) :
      Filled q (.pair id element rest) (us ++ vs)
        ((Value.list inside supply).1 :: items)

/-- What a template becomes: the value of the hole that it is, a new list, or itself. -/
def Result (q : QuoteSymbols) (template : Value) (vs : List Value) (v : Value) : Prop :=
  if template.isForm q.unquote then vs = [v]
  else if template.isPair then
    ∃ items supply, Filled q template vs items ∧ v = (Value.list items supply).1
  else vs = [] ∧ v = template

/-! ### Filling holes in order -/

section

variable {ev : Evaluation} {env : FrameId} {hs hs' : List Hole} {s t : Store} {vs ws : List Value}
  {ending : Outcome Store EvalError Unit}

theorem Fills.ofSkip {n : Nat} (h : Fills ev env hs (s.skip n) vs ending) :
    Fills ev env hs s vs ending := by
  cases h with
  | finished _ more =>
    rw [Store.skip_skip]
    exact .finished s (n + more)
  | value one run more =>
    rw [Store.skip_skip] at run
    exact .value one run more
  | failed one run =>
    rw [Store.skip_skip] at run
    exact .failed one run
  | unended one run =>
    rw [Store.skip_skip] at run
    exact .unended one run
  | malformed many =>
    rw [Store.skip_skip]
    exact .malformed many

theorem Fills.append (h : Fills ev env hs s vs (.done () t)) (h' : Fills ev env hs' t ws ending) :
    Fills ev env (hs ++ hs') s (vs ++ ws) ending := by
  generalize hdone : Outcome.done () t = first at h
  induction h with
  | finished s n =>
    obtain ⟨-, rfl⟩ := Outcome.done.inj hdone
    exact h'.ofSkip
  | value one run more ih => exact .value one run (ih hdone)
  | failed one run => cases hdone
  | unended one run => cases hdone
  | malformed many => cases hdone

/-- What is wrong with one of the first holes is wrong whatever holes follow. -/
theorem Fills.stopped (h : Fills ev env hs s vs ending) (hstop : ∀ t, ending ≠ .done () t)
    (hs' : List Hole) : Fills ev env (hs ++ hs') s vs ending := by
  induction h with
  | finished s n => exact absurd rfl (hstop _)
  | value one run more ih => exact .value one run (ih hstop)
  | failed one run => exact .failed one run
  | unended one run => exact .unended one run
  | malformed many => exact .malformed many

end

/-! ### Computations that fill holes -/

/-- The computation fills the holes in order and does nothing else; if all are filled, its result
stands to their values as the property says. -/
def Phased {α : Type} (ev : Evaluation) (env : FrameId) (hs : List Hole)
    (P : List Value → α → Prop) (x : Eval α) : Prop :=
  ∀ s, ∃ vs ending, Fills ev env hs s vs ending ∧
    match ending with
    | .done _ t => ∃ a, x s = .done a t ∧ P vs a
    | .failed e t => x s = .failed e t
    | .stopped why => x s = .stopped why

section

variable {α β : Type} {ev : Evaluation} {env : FrameId} {hs hs' : List Hole}
  {P : List Value → α → Prop} {Q : List Value → β → Prop} {x : Eval α} {f : α → Eval β}

theorem phased_pure {a : α} (ha : P [] a) : Phased ev env [] P (pure a) :=
  fun s => ⟨[], .done () s, .finished s 0, a, rfl, ha⟩

theorem phased_list {P : List Value → Value → Prop} {items : List Value}
    (h : ∀ supply, P [] (Value.list items supply).1) :
    Phased ev env [] P (Eval.list items) :=
  fun s => ⟨[], _, .finished s items.length, _, Eval.list_apply items s, h s.supply⟩

theorem Phased.bind (hx : Phased ev env hs P x)
    (hf : ∀ vs a, P vs a → Phased ev env hs' (fun ws => Q (vs ++ ws)) (f a)) :
    Phased ev env (hs ++ hs') Q (x >>= f) := by
  intro s
  obtain ⟨vs, ending, hfills, hrun⟩ := hx s
  cases ending with
  | done u t =>
    obtain ⟨a, ha, hP⟩ := hrun
    obtain ⟨ws, last, hmore, hlast⟩ := hf vs a hP t
    refine ⟨vs ++ ws, last, hfills.append hmore, ?_⟩
    rw [Run.bind_done ha]
    exact hlast
  | failed e t => exact ⟨vs, _, hfills.stopped nofun hs', Run.bind_failed hrun⟩
  | stopped why => exact ⟨vs, _, hfills.stopped nofun hs', Run.bind_stopped hrun⟩

theorem phased_fillHole (hole : Hole) :
    Phased ev env [hole] (fun vs v => vs = [v]) (fillHole ev env hole.kind hole.args) := by
  intro s
  obtain ⟨kind, args⟩ := hole
  by_cases hone : args.length = 1
  · obtain ⟨arg, rfl⟩ := List.length_eq_one_iff.1 hone
    cases hrun : ev env arg s with
    | done v t => exact ⟨[v], _, .value (n := 0) rfl hrun (.finished t 0), v, hrun, rfl⟩
    | failed e t => exact ⟨[], _, .failed (n := 0) rfl hrun, hrun⟩
    | stopped why => exact ⟨[], _, .unended (n := 0) rfl hrun, hrun⟩
  · have hfail : fillHole ev env kind args s =
        .failed (.arity kind.name (.exactly 1) args.length) s := by
      unfold fillHole
      split
      · exact absurd rfl hone
      · rfl
    exact ⟨[], _, .malformed (n := 0) hone, hfail⟩

end

/-! ### Templates -/

/-- How an element is told by its head is how it counts for the holes of the list that it is in. -/
theorem innerHoles_pair (k : Keywords) (id : Ident) (element rest : Value) :
    innerHoles k.quotes (.pair id element rest) =
      (match part k element with
        | .plain => []
        | .hole args => [⟨.unquote, args⟩]
        | .splice args => [⟨.unquoteSplicing, args⟩]
        | .inner => innerHoles k.quotes element) ++ innerHoles k.quotes rest := by
  rw [innerHoles]
  congr 1
  cases element with
  | pair id head args =>
    simp only [part]
    split
    · rfl
    · split
      · rfl
      · split <;> rfl
  | _ => rfl

/-- What an element must be for each of the ways in which it may be told. -/
theorem part_cases (k : Keywords) (element : Value) :
    let q := k.quotes
    match part k element with
    | .plain => element.isPair = false ∨ element.isForm q.quote = true
    | .hole _ => element.isForm q.quote = false ∧ element.isForm q.unquote = true
    | .splice _ => element.isForm q.quote = false ∧ element.isForm q.unquote = false ∧
        element.isForm q.unquoteSplicing = true
    | .inner => element.isPair = true ∧ element.isForm q.quote = false ∧
        element.isForm q.unquote = false ∧ element.isForm q.unquoteSplicing = false := by
  cases element with
  | pair id head args =>
    by_cases hquote : (Value.pair id head args).isForm k.quotes.quote = true
    · simp [part, hquote]
    · by_cases hunquote : (Value.pair id head args).isForm k.quotes.unquote = true
      · simp [part, hquote, hunquote]
      · by_cases hsplice : (Value.pair id head args).isForm k.quotes.unquoteSplicing = true
        · simp [part, hquote, hunquote, hsplice]
        · simp [part, hquote, hunquote, hsplice, Value.isPair]
  | _ => exact .inl rfl

theorem phased_items (k : Keywords) (ev : Evaluation) (env : FrameId) (list : Value) :
    Phased ev env (innerHoles k.quotes list) (Filled k.quotes list) (items k ev env list) := by
  induction list with
  | pair id element rest ihElement ihRest =>
    have hpart := part_cases k element
    rw [innerHoles_pair, items]
    -- Whatever takes the place of the element, the elements of the rest follow it.
    have hmore : ∀ (us here : List Value),
        (∀ vs others, Filled k.quotes rest vs others →
          Filled k.quotes (.pair id element rest) (us ++ vs) (here ++ others)) →
        Phased ev env (innerHoles k.quotes rest)
          (fun vs => Filled k.quotes (.pair id element rest) (us ++ vs))
          (items k ev env rest >>= fun others => pure (here ++ others)) := by
      intro us here hfilled
      rw [← List.append_nil (innerHoles k.quotes rest)]
      refine ihRest.bind fun vs others hothers => phased_pure ?_
      rw [List.append_nil]
      exact hfilled vs others hothers
    cases hcase : part k element with
    | plain =>
      rw [hcase] at hpart
      exact hmore [] [element] fun vs others hothers => .kept hpart hothers
    | hole args =>
      rw [hcase] at hpart
      refine Phased.bind (phased_fillHole ⟨.unquote, args⟩) fun us v hus => ?_
      subst hus
      exact hmore [v] [v] fun vs others hothers => .hole hpart.1 hpart.2 hothers
    | splice args =>
      rw [hcase] at hpart
      refine Phased.bind (phased_fillHole ⟨.unquoteSplicing, args⟩) fun us v hus => ?_
      subst hus
      exact hmore [v] (spliced v) fun vs others hothers =>
        .splice hpart.1 hpart.2.1 hpart.2.2 hothers
    | inner =>
      rw [hcase] at hpart
      refine Phased.bind ihElement fun us inside hinside => ?_
      have hlist : Phased ev env []
          (fun vs v => vs = [] ∧ ∃ supply, v = (Value.list inside supply).1)
          (Eval.list inside) := phased_list fun supply => ⟨rfl, supply, rfl⟩
      refine hlist.bind ?_
      rintro _ _ ⟨rfl, supply, rfl⟩
      exact hmore us [_] fun vs others hothers =>
        .inner supply hpart.1 hpart.2.1 hpart.2.2.1 hpart.2.2.2 hinside hothers
  | _ => exact phased_pure (.ended rfl)

/-- Filling a template is evaluating the arguments of its holes in order, each once, with nothing but
identities handed out between them, and putting the values in their places.  The first hole that
cannot be filled decides the error and the store: those before it have been evaluated, and none after
it has. -/
theorem fill_phased (k : Keywords) (ev : Evaluation) (env : FrameId) (template : Value) (s : Store) :
    ∃ vs ending, Fills ev env (holes k.quotes template) s vs ending ∧
      match ending with
      | .done _ t => ∃ v, fill k ev env template s = .done v t ∧ Result k.quotes template vs v
      | .failed e t => fill k ev env template s = .failed e t
      | .stopped why => fill k ev env template s = .stopped why := by
  suffices h : Phased ev env (holes k.quotes template) (Result k.quotes template)
      (fill k ev env template) from h s
  unfold holes Result fill
  cases template with
  | pair id head args =>
    simp only
    split
    · exact phased_fillHole ⟨.unquote, args.elements⟩
    · rw [← List.append_nil (innerHoles _ _)]
      refine (phased_items k ev env (.pair id head args)).bind fun vs items hitems => ?_
      refine phased_list fun supply => ⟨items, supply, ?_, rfl⟩
      rwa [List.append_nil]
  | _ => exact phased_pure ⟨rfl, rfl⟩

end Lisplet.Template
