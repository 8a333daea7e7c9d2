import Lisplet.Proofs.Evaluate.Locality
import Lisplet.Proofs.Evaluate.Steps
import Lisplet.Proofs.Formals.Valid

/-! Binding parameters in two phases.  A call binds each parameter in its new frame as soon as the
argument has been taken, while the arguments after it are still to come.  If taking an argument
neither sees nor changes what that frame binds, this comes to the same end as taking all arguments
first and binding all parameters then: `bindAll_phased`. -/

namespace Lisplet

/-! ### Parameter lists -/

namespace Formals

/-- The number of arguments is one that the parameter list takes. -/
def Fits (f : Formals) (count : Nat) : Prop :=
  f.fixed.length ≤ count ∧ (f.rest = none → count ≤ f.fixed.length)

/-- The arguments that are taken before the number of all of them is looked at. -/
def needed (f : Formals) (args : List Value) : List Value :=
  if f.rest.isSome then args else args.take f.fixed.length

theorem Fits.needed {f : Formals} {args : List Value} (h : f.Fits args.length) :
    f.needed args = args := by
  unfold Formals.needed
  split
  · rfl
  · next hrest => exact List.take_of_length_le (h.2 (by simpa using hrest))

/-- The parameters with what they are bound to. -/
def bound (f : Formals) (vs : List Value) (supply : Supply) : List (String × Value) :=
  f.fixed.zip vs ++
    f.rest.toList.map fun name => (name, (Value.list (vs.drop f.fixed.length) supply).1)

end Formals

namespace Closure

/-- The procedure was made by `lambda` in frame `home` from what is written there. -/
def Made (k : Keywords) (home : FrameId) (written procedure : Value) : Prop :=
  ∃ ev s t, Primitive.lambda.call k ev home written s = .done procedure t

theorem parts_nodup {command : String} {written body : Value} {formals : Formals}
    (h : parts command written = .ok (formals, body)) : formals.names.Nodup := by
  unfold parts at h
  split at h
  · next params rest =>
    cases hformals : Formals.ofValue command params with
    | error e =>
      rw [hformals] at h
      cases h
    | ok f =>
      rw [hformals] at h
      obtain ⟨rfl, -⟩ := Prod.mk.inj (Except.ok.inj h)
      exact Formals.ofValue_nodup hformals
  · cases h

theorem Made.parts {k : Keywords} {home : FrameId} {written procedure : Value}
    (h : Made k home written procedure) :
    ∃ id formals body, Closure.parts "lambda" written = .ok (formals, body) ∧
      procedure = .lambda id formals body home := by
  obtain ⟨ev, s, t, h⟩ := h
  cases hparts : Closure.parts "lambda" written with
  | error e =>
    simp only [Primitive.call, Primitive.name, hparts] at h
    cases h
  | ok made =>
    simp only [Primitive.call, Primitive.name, hparts] at h
    exact ⟨_, made.1, made.2, rfl, (Outcome.done.inj h).1.symm⟩

theorem Made.isProcedure {k : Keywords} {home : FrameId} {written procedure : Value}
    (h : Made k home written procedure) : procedure.isProcedure = true := by
  obtain ⟨id, formals, body, -, rfl⟩ := h.parts
  rfl

end Closure

/-! ### Other bindings of one frame -/

/-- The computation keeps the invariant and neither sees nor changes what frame `g` binds. -/
def Ignores {α : Type} (g : FrameId) (I : Store → Prop) (x : Eval α) : Prop :=
  ∀ bindings, Commutes (·.replace g bindings) I (fun _ => True) x

section

variable {g : FrameId} {I : Store → Prop} {take : Value → Eval Value}

theorem ignores_pure {α : Type} (a : α) : Ignores g I (pure a : Eval α) :=
  fun _ => ⟨fun _ hs => ⟨trivial, hs⟩, fun _ _ => rfl⟩

theorem ignores_takeAll {vs : List Value} (h : ∀ v ∈ vs, Ignores g I (take v)) :
    Ignores g I (takeAll take vs) := by
  intro bindings
  induction vs with
  | nil => exact ignores_pure [] bindings
  | cons v vs ih =>
    obtain ⟨hv, hvs⟩ := List.forall_mem_cons.1 h
    exact (hv bindings).bind fun w _ => (ih hvs).bind fun ws _ => ignores_pure _ bindings

end

section

variable (s : Store) (g : FrameId) (bindings : Std.TreeMap String Value)

theorem Scopes.set_replace_self (s : Scopes) (g : FrameId) (bindings : Std.TreeMap String Value)
    (name : String) (v : Value) :
    (s.replace g bindings).set g name v = s.replace g (bindings.insert name v) := by
  refine ext_frames fun i => ?_
  simp only [set, replace, Array.getElem?_modify]
  by_cases hi : g = i
  · simp only [if_pos hi, Option.map_map]
    rfl
  · simp only [if_neg hi]

theorem Scopes.get?_replace_self {s : Scopes} {g home : FrameId} (h : s.parent? g = some home)
    (bindings : Std.TreeMap String Value) (name : String) :
    (s.replace g bindings).get? g name = bindings[name]? := by
  obtain ⟨frame, hframe, -⟩ := Option.bind_eq_some_iff.1 h
  simp only [get?, getElem?_replace, if_true, hframe, Option.map_some, Option.bind_some]

theorem set_replace_apply (name : String) (v : Value) :
    Eval.set g name v (s.replace g bindings) =
      .done () (s.replace g (bindings.insert name v)) := by
  simp only [Eval.set, Run.change_apply, Store.replace, Scopes.set_replace_self]

theorem Store.replace_skip (n : Nat) :
    (s.replace g bindings).skip n = (s.skip n).replace g bindings := rfl

end

/-- The stores differ at most in what frame `g` binds and in the identities handed out. -/
def Store.Aside (g : FrameId) (s t : Store) : Prop :=
  ∃ bindings n, t = (s.replace g bindings).skip n

/-- The store with a new frame inside `home`. -/
def Store.derived (s : Store) (home : FrameId) : Store :=
  { s with scopes := (s.scopes.derive home).2 }

theorem derive_apply (home : FrameId) (s : Store) :
    Eval.derive home s = .done s.scopes.frames.size (s.derived home) := by
  obtain ⟨-, -, hframe⟩ := Scopes.frames_derive s.scopes home
  rw [← hframe]
  rfl

section

variable {s : Store} {home : FrameId} (h : home < s.scopes.frames.size)
include h

theorem getElem?_derived (i : Nat) : (s.derived home).scopes.frames[i]? =
    if i = s.scopes.frames.size then some ⟨∅, some home⟩ else s.scopes.frames[i]? := by
  simp only [Store.derived, Scopes.derive, dif_pos h, Scopes.getElem?_push]

theorem parent?_derived :
    (s.derived home).scopes.parent? s.scopes.frames.size = some home := by
  simp only [Scopes.parent?, getElem?_derived h, if_true, Option.bind_some]

theorem replace_derived : (s.derived home).replace s.scopes.frames.size ∅ = s.derived home := by
  have hframe := getElem?_derived h s.scopes.frames.size
  rw [if_pos rfl] at hframe
  rw [Store.replace, Scopes.replace_self hframe]

end

namespace Closure

variable {take : Value → Eval Value} {g : FrameId} {I : Store → Prop} {args : List Value}

theorem bindFixed_phased (htake : ∀ a ∈ args, Ignores g I (take a)) (missing : EvalError)
    (names : List String) {t : Store} (ht : I t) (b : Std.TreeMap String Value) :
    match takeAll take (args.take names.length) t with
    | .done vs u => bindFixed take g missing names args (t.replace g b) =
        if names.length ≤ args.length then
          .done (args.drop names.length) (u.replace g (b.insertMany (names.zip vs)))
        else .failed missing (u.replace g (b.insertMany (names.zip vs)))
    | .failed e u => ∃ b', bindFixed take g missing names args (t.replace g b) =
        .failed e (u.replace g b')
    | .stopped why => bindFixed take g missing names args (t.replace g b) = .stopped why := by
  induction names generalizing args t b with
  | nil =>
    simp only [List.length_nil, List.take_zero, takeAll, Run.pure_apply, List.zip_nil_left,
      Std.TreeMap.insertMany_nil]
    rfl
  | cons name names ih =>
    cases args with
    | nil =>
      simp only [List.take_nil, takeAll, Run.pure_apply, List.zip_nil_right,
        Std.TreeMap.insertMany_nil]
      rfl
    | cons arg args =>
      obtain ⟨harg, hargs⟩ := List.forall_mem_cons.1 htake
      have hsame := (harg b).same t ht
      simp only [List.length_cons, List.take_succ_cons, takeAll, bindFixed]
      cases hrun : take arg t with
      | failed e u =>
        rw [hrun] at hsame
        rw [Run.bind_failed hrun, Run.bind_failed hsame]
        exact ⟨b, rfl⟩
      | stopped why =>
        rw [hrun] at hsame
        rw [Run.bind_stopped hrun, Run.bind_stopped hsame]
      | done v u =>
        have hu := (harg b).keeps t ht
        rw [hrun] at hsame hu
        have hrest := ih hargs hu.2 (b.insert name v)
        rw [Run.bind_done hrun, Run.bind_done hsame, Run.bind_done (set_replace_apply u g b name v)]
        cases hmore : takeAll take (args.take names.length) u with
        | failed e w =>
          rw [hmore] at hrest
          rw [Run.bind_failed hmore]
          exact hrest
        | stopped why =>
          rw [hmore] at hrest
          rw [Run.bind_stopped hmore]
          exact hrest
        | done vs w =>
          rw [hmore] at hrest
          rw [Run.bind_done hmore]
          simpa [Std.TreeMap.insertMany_cons] using hrest

theorem bindRest_phased (htake : ∀ a ∈ args, Ignores g I (take a)) (name : String) {t : Store}
    (ht : I t) (b : Std.TreeMap String Value) :
    (do let vs ← takeAll take args
        let v ← Eval.list vs
        Eval.set g name v : Eval Unit) (t.replace g b) =
      match takeAll take args t with
      | .done vs u => .done ()
          ((u.replace g (b.insert name (Value.list vs u.supply).1)).skip vs.length)
      | .failed e u => .failed e (u.replace g b)
      | .stopped why => .stopped why := by
  have hsame := (ignores_takeAll htake b).same t ht
  cases hrun : takeAll take args t with
  | failed e u =>
    rw [hrun] at hsame
    exact Run.bind_failed hsame
  | stopped why =>
    rw [hrun] at hsame
    exact Run.bind_stopped hsame
  | done vs u =>
    rw [hrun] at hsame
    rw [Run.bind_done hsame, Run.bind_done (Eval.list_apply vs _), Store.replace_skip]
    exact set_replace_apply (u.skip vs.length) g b name _

/-- What binding the parameters comes to if taking the arguments that are needed ends so. -/
def BindsAs (command : String) (formals : Formals) (count : Nat) (g : FrameId)
    (b : Std.TreeMap String Value) (bound : Outcome Store EvalError Unit) :
    Outcome Store EvalError (List Value) → Prop
  | .done vs u =>
    (formals.Fits count → ∃ n, bound =
      .done () ((u.replace g (b.insertMany (formals.bound vs u.supply))).skip n)) ∧
    (¬ formals.Fits count → ∃ b', bound = .failed (.arity command formals.arity count) (u.replace g b'))
  | .failed e u => ∃ b', bound = .failed e (u.replace g b')
  | .stopped why => bound = .stopped why

section

variable (htake : ∀ a ∈ args, Ignores g I (take a))
  (command : String) (fixed : List String) {t : Store} (ht : I t) (b : Std.TreeMap String Value)

include htake ht

/-- With no name for the rest, the arguments after those that have a name are left alone. -/
theorem bindAll_exact :
    BindsAs command ⟨fixed, none⟩ args.length g b
      (bindAll take g command ⟨fixed, none⟩ args (t.replace g b))
      (takeAll take (args.take fixed.length) t) := by
  have hfixed := bindFixed_phased htake (.arity command (Formals.arity ⟨fixed, none⟩) args.length)
    fixed ht b
  cases hrun : takeAll take (args.take fixed.length) t with
  | failed e u =>
    rw [hrun] at hfixed
    obtain ⟨b', hb'⟩ := hfixed
    exact ⟨b', Run.bind_failed hb'⟩
  | stopped why =>
    rw [hrun] at hfixed
    exact Run.bind_stopped hfixed
  | done vs u =>
    rw [hrun] at hfixed
    simp only at hfixed
    by_cases hle : fixed.length ≤ args.length
    · rw [if_pos hle] at hfixed
      constructor
      · intro hfits
        have hlen : args.length ≤ fixed.length := hfits.2 rfl
        refine ⟨0, (Run.bind_done hfixed).trans ?_⟩
        simp [Formals.bound, List.drop_eq_nil_of_le hlen]
      · intro hfits
        have hextra : args.drop fixed.length ≠ [] := fun hnil =>
          hfits ⟨hle, fun _ => List.drop_eq_nil_iff.1 hnil⟩
        refine ⟨b.insertMany (fixed.zip vs), (Run.bind_done hfixed).trans ?_⟩
        simp only [List.isEmpty_iff, if_neg hextra]
        rfl
    · rw [if_neg hle] at hfixed
      refine ⟨fun hfits => absurd hfits.1 hle, fun _ => ?_⟩
      exact ⟨_, Run.bind_failed hfixed⟩

theorem bindAll_variadic (name : String) :
    BindsAs command ⟨fixed, some name⟩ args.length g b
      (bindAll take g command ⟨fixed, some name⟩ args (t.replace g b)) (takeAll take args t) := by
  have hfixed := bindFixed_phased htake
    (.arity command (Formals.arity ⟨fixed, some name⟩) args.length) fixed ht b
  have hfirsts : ∀ a ∈ args.take fixed.length, Ignores g I (take a) :=
    fun a ha => htake a (List.mem_of_mem_take ha)
  have hothers : ∀ a ∈ args.drop fixed.length, Ignores g I (take a) :=
    fun a ha => htake a (List.mem_of_mem_drop ha)
  have hkeeps := (ignores_takeAll hfirsts b).keeps t ht
  rw [← List.take_append_drop fixed.length args, takeAll_append, List.take_append_drop]
  cases hrun : takeAll take (args.take fixed.length) t with
  | failed e u =>
    rw [hrun] at hfixed
    obtain ⟨b', hb'⟩ := hfixed
    rw [Run.bind_failed hrun]
    exact ⟨b', Run.bind_failed hb'⟩
  | stopped why =>
    rw [hrun] at hfixed
    rw [Run.bind_stopped hrun]
    exact Run.bind_stopped hfixed
  | done vs u =>
    rw [hrun] at hfixed hkeeps
    simp only at hfixed
    rw [Run.bind_done hrun]
    by_cases hle : fixed.length ≤ args.length
    · rw [if_pos hle] at hfixed
      have hlen : fixed.length = vs.length := by
        rw [length_of_takeAll hrun, List.length_take, Nat.min_eq_left hle]
      have hbind : bindAll take g command ⟨fixed, some name⟩ args (t.replace g b) = _ :=
        (Run.bind_done hfixed).trans
          (bindRest_phased hothers name hkeeps.2 (b.insertMany (fixed.zip vs)))
      cases hmore : takeAll take (args.drop fixed.length) u with
      | failed e w =>
        rw [hmore] at hbind
        rw [Run.bind_failed hmore]
        exact ⟨_, hbind⟩
      | stopped why =>
        rw [hmore] at hbind
        rw [Run.bind_stopped hmore]
        exact hbind
      | done ws w =>
        rw [hmore] at hbind
        rw [Run.bind_done hmore]
        refine ⟨fun _ => ⟨ws.length, hbind.trans ?_⟩, fun hfits => absurd ⟨hle, nofun⟩ hfits⟩
        have hzip : fixed.zip (vs ++ ws) = fixed.zip vs := by
          rw [← List.append_nil fixed, List.zip_append hlen, List.append_nil]
          simp
        simp [Formals.bound, hzip, hlen, Std.TreeMap.insertMany_append,
          Std.TreeMap.insertMany_list_singleton]
    · rw [if_neg hle] at hfixed
      rw [List.drop_eq_nil_of_le (by omega)]
      refine ⟨fun hfits => absurd hfits.1 hle, fun _ => ?_⟩
      exact ⟨_, Run.bind_failed hfixed⟩

/-- The arguments are taken in order, up to the first that cannot be, and then their number is
looked at.  Meanwhile nothing but the new frame is changed, and if the number fits, the parameters
are bound there in the end. -/
theorem bindAll_phased (formals : Formals) :
    BindsAs command formals args.length g b
      (bindAll take g command formals args (t.replace g b))
      (takeAll take (formals.needed args) t) := by
  obtain ⟨fixed, _ | name⟩ := formals
  · exact bindAll_exact htake command fixed ht b
  · exact bindAll_variadic htake command fixed ht b name

end

theorem bindAll_derived {s : Store} {home : FrameId} (hhome : home < s.scopes.frames.size)
    (htake : ∀ a ∈ args, Ignores s.scopes.frames.size I (take a))
    (hI : I (s.derived home)) (command : String) (formals : Formals) :
    BindsAs command formals args.length s.scopes.frames.size ∅
      (bindAll take s.scopes.frames.size command formals args (s.derived home))
      (takeAll take (formals.needed args) (s.derived home)) := by
  have hphased := bindAll_phased htake command hI ∅ formals
  rwa [replace_derived hhome] at hphased

/-! ### The frame of a call -/

/-- A frame inside `home` that binds the parameters and nothing else: each name to its value, and the
name for the rest to a list of the others. -/
structure Binds (scopes : Scopes) (g home : FrameId) (formals : Formals) (vs : List Value) :
    Prop where
  parent : scopes.parent? g = some home
  names : ∀ name, name ∈ scopes.names g ↔ name ∈ formals.names
  fixed : ∀ (i : Nat) (name : String), formals.fixed[i]? = some name →
    ∃ v, vs[i]? = some v ∧ scopes.get? g name = some v
  rest : ∀ name, formals.rest = some name → ∃ supply,
    scopes.get? g name = some (Value.list (vs.drop formals.fixed.length) supply).1

theorem binds_bound {formals : Formals} (hnodup : formals.names.Nodup) {vs : List Value}
    (hfits : formals.Fits vs.length) {scopes : Scopes} {g home : FrameId}
    (hparent : scopes.parent? g = some home) (supply : Supply) :
    Binds (scopes.replace g (.insertMany ∅ (formals.bound vs supply))) g home formals vs := by
  have hget := Scopes.get?_replace_self hparent (.insertMany ∅ (formals.bound vs supply))
  have hnames : (formals.bound vs supply).map Prod.fst = formals.names := by
    rw [Formals.bound, List.map_append, List.map_fst_zip hfits.1, Formals.names, List.map_map]
    exact congrArg _ (List.map_id _)
  have hdistinct : (formals.bound vs supply).Pairwise fun a b => ¬ compare a.1 b.1 = .eq := by
    rw [← hnames, List.nodup_iff_pairwise_ne, List.pairwise_map] at hnodup
    exact hnodup.imp fun hne heq => hne (Std.LawfulEqOrd.compare_eq_iff_eq.1 heq)
  have hmem : ∀ {name v}, (name, v) ∈ formals.bound vs supply →
      (scopes.replace g (.insertMany ∅ (formals.bound vs supply))).get? g name = some v := by
    intro name v hv
    rw [hget]
    exact Std.TreeMap.getElem?_insertMany_list_of_mem Std.ReflOrd.compare_self hdistinct hv
  refine ⟨by rwa [Scopes.parent?_replace], fun name => ?_, fun i name hi => ?_, fun name hrest => ?_⟩
  · rw [Scopes.mem_names_iff, hget, ← Std.TreeMap.mem_iff_isSome_getElem?,
      Std.TreeMap.mem_insertMany_list, hnames]
    simp
  · obtain ⟨hlt, -⟩ := List.getElem?_eq_some_iff.1 hi
    obtain ⟨v, hv⟩ : ∃ v, vs[i]? = some v :=
      ⟨_, List.getElem?_eq_getElem (Nat.lt_of_lt_of_le hlt hfits.1)⟩
    refine ⟨v, hv, hmem (List.mem_append_left _ ?_)⟩
    exact List.mem_of_getElem? (List.getElem?_zip_eq_some.2 ⟨hi, hv⟩)
  · refine ⟨supply, hmem (List.mem_append_right _ ?_)⟩
    rw [hrest]
    exact List.mem_singleton_self _

end Closure

end Lisplet
