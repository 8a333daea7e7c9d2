import Lisplet.Formals.OfValue
import Mathlib.Data.List.Induction

/-! Which parameter lists are valid.  `Parameters` states the rule on a list as a whole; the function
that reads parameter lists goes through the elements and keeps the formals so far, which are those of
the part it has read as long as that part is valid: `extend_parameters`. -/

namespace Lisplet.Formals

/-- A parameter for the list of all further arguments: its name begins with a star and is longer than
that. -/
def IsRest (s : Symbol) : Prop := ['*'] <+: s.name.toList ∧ 1 < s.name.length

instance (s : Symbol) : Decidable (IsRest s) := inferInstanceAs (Decidable (_ ∧ _))

/-- The name that a parameter binds: its own, without the star if it takes all further arguments. -/
def boundName (s : Symbol) : String :=
  if IsRest s then String.ofList s.name.toList.tail else s.name

/-- The values are the given symbols and make a parameter list: only the last of them may take all
further arguments, and no two bind the same name. -/
structure Parameters (vs : List Value) (params : List Symbol) : Prop where
  symbols : vs = params.map Value.symbol
  rest_last : ∀ s ∈ params.dropLast, ¬ IsRest s
  distinct : (params.map boundName).Nodup

/-- What parameters stand for. -/
def ofParams (params : List Symbol) : Formals where
  fixed := (params.filter fun s => !decide (IsRest s)).map Symbol.name
  rest := (params.getLast?.filter fun s => decide (IsRest s)).map boundName

/-- Why a value cannot follow some parameters. -/
inductive Unfit (params : List Symbol) : Value → Prop
  | notSymbol {v : Value} (symbol : v.symbol? = none) : Unfit params v
  | afterRest {v : Value} {s : Symbol} (mem : s ∈ params) (rest : IsRest s) : Unfit params v
  | taken {s : Symbol} (taken : boundName s ∈ params.map boundName) : Unfit params (.symbol s)

/-! ### Parameters one by one -/

theorem ofName_eq (s : Symbol) :
    Parameter.ofName s.name = ⟨boundName s, decide (IsRest s)⟩ := by
  unfold Parameter.ofName
  split
  · next c cs hname =>
    have hrest : IsRest s := by
      refine ⟨by simp [hname], ?_⟩
      rw [← String.length_toList, hname]
      simp
    simp [boundName, hrest, hname]
  · next hname =>
    have hrest : ¬ IsRest s := by
      rintro ⟨⟨tail, htail⟩, hlong⟩
      rw [← String.length_toList, ← htail] at hlong
      cases tail with
      | nil => simp at hlong
      | cons c cs => exact hname c cs htail.symm
    simp [boundName, hrest]

theorem Parameters.unique {vs : List Value} {params params' : List Symbol}
    (h : Parameters vs params) (h' : Parameters vs params') : params = params' :=
  (List.map_inj_right fun _ _ => Value.symbol.inj).1 (h.symbols.symm.trans h'.symbols)

/-- Parameters can be followed by one more if none of them takes all further arguments. -/
theorem parameters_snoc_iff {vs : List Value} {v : Value} {more : List Symbol} :
    Parameters (vs ++ [v]) more ↔
      ∃ params s, more = params ++ [s] ∧ v = .symbol s ∧ Parameters vs params ∧
        (∀ r ∈ params, ¬ IsRest r) ∧ boundName s ∉ params.map boundName := by
  constructor
  · rintro ⟨hsymbols, hrest, hdistinct⟩
    obtain ⟨params, last, rfl, hparams, hlast⟩ := List.map_eq_append_iff.1 hsymbols.symm
    obtain ⟨s, rfl, hs⟩ := List.map_eq_singleton_iff.1 hlast
    rw [List.map_append, List.map_singleton] at hdistinct
    rw [List.dropLast_concat] at hrest
    obtain ⟨hbefore, -, hnew⟩ := List.nodup_append.1 hdistinct
    refine ⟨params, s, rfl, hs.symm, ⟨hparams.symm, ?_, hbefore⟩, hrest, fun hmem => ?_⟩
    · exact fun r hr => hrest r (List.dropLast_subset _ hr)
    · exact hnew _ hmem _ (List.mem_singleton_self _) rfl
  · rintro ⟨params, s, rfl, rfl, ⟨rfl, -, hdistinct⟩, hrest, hnew⟩
    refine ⟨by simp, by rwa [List.dropLast_concat], ?_⟩
    rw [List.map_append, List.map_singleton]
    refine List.nodup_append.2 ⟨hdistinct, by simp, ?_⟩
    rintro a ha b hb rfl
    exact hnew (List.mem_singleton.1 hb ▸ ha)

/-- A value is unfit where parameters cannot go on with it. -/
theorem unfit_iff {vs : List Value} {params : List Symbol} (h : Parameters vs params)
    {v : Value} : Unfit params v ↔ ∀ more, ¬ Parameters (vs ++ [v]) more := by
  constructor
  · rintro hunfit more hmore
    obtain ⟨params', s, rfl, rfl, h', hrest, hnew⟩ := parameters_snoc_iff.1 hmore
    obtain rfl := h.unique h'
    cases hunfit with
    | notSymbol hnone => cases hnone
    | afterRest hmem hr => exact hrest _ hmem hr
    | taken htaken => exact hnew htaken
  · intro hstop
    by_contra hfit
    cases hv : v.symbol? with
    | none => exact hfit (.notSymbol hv)
    | some s =>
      obtain rfl : v = .symbol s := by cases v <;> simp_all [Value.symbol?]
      refine hstop (params ++ [s]) (parameters_snoc_iff.2 ⟨params, s, rfl, rfl, h, ?_, ?_⟩)
      · exact fun r hr hrest => hfit (.afterRest hr hrest)
      · exact fun htaken => hfit (.taken htaken)

/-- Every list is one of parameters or has a first element that is unfit. -/
theorem parameters_or_unfit (vs : List Value) :
    (∃ params, Parameters vs params) ∨
      ∃ before v after params, vs = before ++ v :: after ∧ Parameters before params ∧
        Unfit params v := by
  -- From the end, since a list is valid by what its last element adds to the others.
  induction vs using List.reverseRecOn with
  | nil => exact .inl ⟨[], rfl, by simp, by simp⟩
  | append_singleton vs v ih =>
    rcases ih with ⟨params, h⟩ | ⟨before, w, after, params, rfl, h, hunfit⟩
    · by_cases hmore : ∃ more, Parameters (vs ++ [v]) more
      · exact .inl hmore
      · exact .inr ⟨vs, v, [], params, rfl, h, (unfit_iff h).2 (not_exists.1 hmore)⟩
    · exact .inr ⟨before, w, after ++ [v], params, by simp, h, hunfit⟩

/-! ### Reading them -/

variable {vs : List Value} {params : List Symbol}

theorem ofParams_plain (h : ∀ r ∈ params, ¬ IsRest r) :
    ofParams params = ⟨params.map boundName, none⟩ := by
  have hfilter : params.filter (fun s => !decide (IsRest s)) = params := by simpa using h
  have hnames : params.map Symbol.name = params.map boundName :=
    List.map_congr_left fun s hs => by rw [boundName, if_neg (h s hs)]
  have hlast : params.getLast?.filter (fun s => decide (IsRest s)) = none := by
    simpa using fun s hs => h s (List.mem_of_getLast? hs)
  simp only [ofParams, hfilter, hnames, hlast, Option.map_none]

theorem ofParams_snoc {s : Symbol} (h : ∀ r ∈ params, ¬ IsRest r) (hs : IsRest s) :
    ofParams (params ++ [s]) = ⟨params.map boundName, some (boundName s)⟩ := by
  have hplain := congrArg fixed (ofParams_plain h)
  simp only [ofParams] at hplain ⊢
  simp [hplain, hs]

/-- A parameter that takes all further arguments is the last and the only one. -/
theorem Parameters.eq_snoc (h : Parameters vs params) {s : Symbol} (hmem : s ∈ params)
    (hs : IsRest s) : ∃ before, params = before ++ [s] ∧ ∀ r ∈ before, ¬ IsRest r := by
  obtain ⟨before, last, rfl⟩ : ∃ before last, params = before ++ [last] :=
    ⟨_, _, (List.dropLast_concat_getLast (List.ne_nil_of_mem hmem)).symm⟩
  have hbefore := h.rest_last
  rw [List.dropLast_concat] at hbefore
  rcases List.mem_append.1 hmem with hmem | hmem
  · exact absurd hs (hbefore s hmem)
  · obtain rfl := List.mem_singleton.1 hmem
    exact ⟨before, rfl, hbefore⟩

theorem isSome_rest_ofParams (h : Parameters vs params) {s : Symbol} (hmem : s ∈ params)
    (hs : IsRest s) : (ofParams params).rest.isSome = true := by
  obtain ⟨before, rfl, hbefore⟩ := h.eq_snoc hmem hs
  rw [ofParams_snoc hbefore hs]
  rfl

/-- Parameters stand for formals with the names that they bind. -/
theorem names_ofParams (h : Parameters vs params) :
    (ofParams params).names = params.map boundName := by
  by_cases hrest : ∃ r ∈ params, IsRest r
  · obtain ⟨r, hmem, hr⟩ := hrest
    obtain ⟨before, rfl, hbefore⟩ := h.eq_snoc hmem hr
    rw [ofParams_snoc hbefore hr, names, List.map_append]
    rfl
  · rw [ofParams_plain (by simpa using hrest), names]
    exact List.append_nil _

theorem extend_unfit (h : Parameters vs params) {v : Value} (hunfit : Unfit params v)
    (after : List Value) : extend (ofParams params) (v :: after) = .error v := by
  cases hv : v.symbol? with
  | none => simp only [extend, hv]
  | some s =>
    have hstop : ((ofParams params).rest.isSome ||
        (ofParams params).fixed.contains (boundName s)) = true := by
      rw [Bool.or_eq_true]
      by_cases hrest : ∃ r ∈ params, IsRest r
      · obtain ⟨r, hmem, hr⟩ := hrest
        exact .inl (isSome_rest_ofParams h hmem hr)
      · cases hunfit with
        | notSymbol hnone => cases hv.symm.trans hnone
        | afterRest hmem hr => exact absurd ⟨_, hmem, hr⟩ hrest
        | taken htaken =>
          obtain rfl := Option.some.inj hv
          rw [ofParams_plain (by simpa using hrest)]
          exact .inr (List.contains_iff_mem.2 htaken)
    simp only [extend, hv, ofName_eq, hstop, if_true]

theorem extend_fit {s : Symbol} (hrest : ∀ r ∈ params, ¬ IsRest r)
    (hnew : boundName s ∉ params.map boundName) (after : List Value) :
    extend (ofParams params) (.symbol s :: after) = extend (ofParams (params ++ [s])) after := by
  have hgo : (params.map boundName).contains (boundName s) = false := by simpa using hnew
  rw [ofParams_plain hrest]
  simp only [extend, Value.symbol?, ofName_eq, hgo, Option.isSome_none, Bool.or_false,
    Bool.false_eq_true, if_false]
  by_cases hs : IsRest s
  · rw [ofParams_snoc hrest hs]
    simp only [hs, decide_true, if_true]
  · have hall : ∀ r ∈ params ++ [s], ¬ IsRest r := by
      simpa [or_imp, forall_and] using ⟨hrest, hs⟩
    rw [ofParams_plain hall]
    simp [hs]

/-- The formals so far are those of the parameters read so far. -/
theorem extend_parameters (h : Parameters vs params) (after : List Value) :
    extend ⟨[], none⟩ (vs ++ after) = extend (ofParams params) after := by
  induction vs using List.reverseRecOn generalizing params after with
  | nil =>
    obtain rfl := List.map_eq_nil_iff.1 h.symbols.symm
    rfl
  | append_singleton vs v ih =>
    obtain ⟨before, s, rfl, rfl, hbefore, hrest, hnew⟩ := parameters_snoc_iff.1 h
    rw [List.append_assoc, List.singleton_append, ih hbefore, extend_fit hrest hnew]

theorem extend_eq_ok_iff {f : Formals} :
    extend ⟨[], none⟩ vs = .ok f ↔ ∃ params, Parameters vs params ∧ f = ofParams params := by
  constructor
  · intro h
    rcases parameters_or_unfit vs with ⟨params, hvs⟩ | ⟨before, v, after, params, rfl, hvs, hunfit⟩
    · have hread := extend_parameters hvs []
      rw [List.append_nil, h] at hread
      exact ⟨params, hvs, Except.ok.inj hread⟩
    · rw [extend_parameters hvs, extend_unfit hvs hunfit] at h
      cases h
  · rintro ⟨params, hvs, rfl⟩
    have hread := extend_parameters hvs []
    rwa [List.append_nil] at hread

theorem extend_eq_error_iff {v : Value} :
    extend ⟨[], none⟩ vs = .error v ↔
      ∃ before after params, vs = before ++ v :: after ∧ Parameters before params ∧
        Unfit params v := by
  constructor
  · intro h
    rcases parameters_or_unfit vs with ⟨params, hvs⟩ | ⟨before, w, after, params, rfl, hvs, hunfit⟩
    · have hread := extend_parameters hvs []
      rw [List.append_nil, h] at hread
      cases hread
    · rw [extend_parameters hvs, extend_unfit hvs hunfit] at h
      obtain rfl := Except.error.inj h
      exact ⟨before, after, params, rfl, hvs, hunfit⟩
  · rintro ⟨before, after, params, rfl, hvs, hunfit⟩
    rw [extend_parameters hvs, extend_unfit hvs hunfit]

theorem ofValue_eq_ok_iff {command : String} {v : Value} {f : Formals} :
    ofValue command v = .ok f ↔ v.isList = true ∧ extend ⟨[], none⟩ v.elements = .ok f := by
  unfold ofValue
  split
  · next hlist =>
    split
    · next g hread => simp [hlist, hread]
    · next found hread => simp [hlist, hread]
  · next hlist => simp [hlist]

/-- No name stands twice in formals that have been read. -/
theorem ofValue_nodup {command : String} {v : Value} {f : Formals}
    (h : ofValue command v = .ok f) : f.names.Nodup := by
  obtain ⟨-, hread⟩ := ofValue_eq_ok_iff.1 h
  obtain ⟨params, hparams, rfl⟩ := extend_eq_ok_iff.1 hread
  rw [names_ofParams hparams]
  exact hparams.distinct

theorem ofValue_eq_error_iff {command : String} {v : Value} {e : EvalError} :
    ofValue command v = .error e ↔
      (v.isList = false ∧ e = .badParameter command v.inspect) ∨
      v.isList = true ∧ ∃ found, extend ⟨[], none⟩ v.elements = .error found ∧
        e = .badParameter command found.inspect := by
  unfold ofValue
  split
  · next hlist =>
    split
    · next f hread => simp [hlist, hread]
    · next found hread => simp [hlist, hread, eq_comm (a := e)]
  · next hlist => simp [hlist, eq_comm (a := e)]

/-- A value is read as a parameter list exactly if it is a list whose elements are symbols of which
only the last may take all further arguments and no two bind the same name; the formals have the names
of the others in order, and the name without its star if the last takes all further arguments.
Otherwise the error names the value if it is no list, and else the first element with which the
elements before it do not go on: it is no symbol, it follows one that takes all further arguments, or
its name is bound already. -/
theorem ofValue_iff_parameters (command : String) (v : Value) :
    (∀ f, ofValue command v = .ok f ↔
      v.isList = true ∧ ∃ params, Parameters v.elements params ∧ f = ofParams params) ∧
    ∀ e, ofValue command v = .error e ↔
      (v.isList = false ∧ e = .badParameter command v.inspect) ∨
      v.isList = true ∧ ∃ before found after params, v.elements = before ++ found :: after ∧
        Parameters before params ∧ Unfit params found ∧
        (∀ more, ¬ Parameters (before ++ [found]) more) ∧
        e = .badParameter command found.inspect := by
  refine ⟨fun f => by rw [ofValue_eq_ok_iff, extend_eq_ok_iff], fun e => ?_⟩
  rw [ofValue_eq_error_iff]
  refine or_congr_right (and_congr_right fun _ => ?_)
  constructor
  · rintro ⟨found, hread, rfl⟩
    obtain ⟨before, after, params, hv, hbefore, hunfit⟩ := extend_eq_error_iff.1 hread
    have hstop := (unfit_iff hbefore).1 hunfit
    exact ⟨before, found, after, params, hv, hbefore, hunfit, hstop, rfl⟩
  · rintro ⟨before, found, after, params, hv, hbefore, hunfit, -, rfl⟩
    exact ⟨found, extend_eq_error_iff.2 ⟨before, after, params, hv, hbefore, hunfit⟩, rfl⟩

/-- A star alone is a name, which a second star with another in front of it binds again. -/
example :
    let param (slot : Nat) (name : String) (rest : Value) : Value :=
      .pair ⟨0, slot⟩ (.symbol ⟨0, slot, name⟩) rest
    ofValue "lambda" (param 0 "*" (param 1 "*a" .nil)) = .ok ⟨["*"], some "a"⟩ ∧
      ofValue "lambda" (param 0 "*" (param 1 "**" .nil)) = .error (.badParameter "lambda" "**") := by
  decide +kernel

end Lisplet.Formals
