import Lisplet.Proofs.Evaluate.Bound
import Lisplet.Proofs.Value.Heap

/-! Evaluation and the heap.  A store is backed by a heap that has whatever is bound and in which the
identities to come are free.  Evaluation of an expression of the heap adds objects to it and does
nothing else to it, and it leads to a value of the larger heap and to a store that this one backs. -/

namespace Lisplet

/-- The heaps that have the procedure behind `quote`. -/
abbrev Keywords.Heap (k : Keywords) := { h : Lisplet.Heap // h.Has k.quoteProcedure }

structure Store.Backed (owner : Nat) (h : Heap) (s : Store) : Prop where
  ready : h.Ready owner s.supply
  bound : s.scopes.AllBound h.Has

theorem Store.Backed.later {owner other : Nat} {h h' : Heap} {s : Store} (hs : s.Backed owner h)
    (hgrows : h.Grows other h') (howner : owner ≠ other) : s.Backed owner h' where
  ready := hs.ready.later hgrows howner
  bound := hs.bound.imp fun _ hv => hv.later hgrows

/-- If the computation ended, then some larger heap backs the store, and the property holds of that
heap and of the value, if there is one. -/
def Outcome.Backed {α : Type} {k : Keywords} (owner : Nat) (w : k.Heap) (Q : k.Heap → α → Prop) :
    Outcome Store EvalError α → Prop
  | .done a t => ∃ w' : k.Heap, w.1.Grows owner w'.1 ∧ Q w' a ∧ t.Backed owner w'.1
  | .failed _ t => ∃ w' : k.Heap, w.1.Grows owner w'.1 ∧ t.Backed owner w'.1
  | .stopped _ => True

/-- From stores that the heap backs, the computation does nothing to the heap but add objects. -/
def Allocates {α : Type} {k : Keywords} (owner : Nat) (w : k.Heap) (Q : k.Heap → α → Prop)
    (x : Eval α) : Prop := ∀ s : Store, s.Backed owner w.1 → (x s).Backed owner w Q

section

variable {α β : Type} {k : Keywords} {owner : Nat} {w w' : k.Heap} {Q : k.Heap → α → Prop}

theorem Outcome.Backed.since {o : Outcome Store EvalError α} (h : o.Backed owner w' Q)
    (hw : w.1.Grows owner w'.1) : o.Backed owner w Q := by
  cases o with
  | done a t =>
    obtain ⟨w'', hgrows, ha, ht⟩ := h
    exact ⟨w'', hw.trans hgrows, ha, ht⟩
  | failed e t =>
    obtain ⟨w'', hgrows, ht⟩ := h
    exact ⟨w'', hw.trans hgrows, ht⟩
  | stopped why => trivial

theorem Allocates.bind {Q' : k.Heap → β → Prop} {x : Eval α} {f : α → Eval β}
    (hx : Allocates owner w Q x)
    (hf : ∀ (w' : k.Heap) a, w.1.Grows owner w'.1 → Q w' a → Allocates owner w' Q' (f a)) :
    Allocates owner w Q' (x >>= f) := by
  intro s hs
  have hfirst := hx s hs
  cases hrun : x s with
  | failed e t =>
    rw [hrun] at hfirst
    rw [Run.bind_failed hrun]
    exact hfirst
  | stopped why =>
    rw [Run.bind_stopped hrun]
    trivial
  | done a t =>
    rw [hrun] at hfirst
    obtain ⟨w', hgrows, ha, ht⟩ := hfirst
    rw [Run.bind_done hrun]
    exact (hf w' a hgrows ha t ht).since hgrows

theorem allocates_build {make : Supply → Value × Supply}
    (hmake : ∀ supply, w.1.Ready owner supply → w.1.Makes owner (make supply)) :
    Allocates owner w (fun w v => w.1.Has v) (Eval.build make) := by
  intro s hs
  obtain ⟨h', hgrows, hv, hready⟩ := hmake s.supply hs.ready
  refine ⟨⟨h', w.2.later hgrows⟩, hgrows, hv, hready, ?_⟩
  exact hs.bound.imp fun _ hv => hv.later hgrows

/-- A computation that makes no objects. -/
theorem allocates_bound {x : Eval α}
    (hx : ∀ s : Store, s.scopes.AllBound w.1.Has → ∃ a t, x s = .done a t ∧ Q w a ∧
      t.supply = s.supply ∧ t.scopes.AllBound w.1.Has) : Allocates owner w Q x := by
  intro s hs
  obtain ⟨a, t, hrun, ha, hsupply, hbound⟩ := hx s hs.bound
  rw [hrun]
  refine ⟨w, .refl owner w.1, ha, ?_, hbound⟩
  rw [hsupply]
  exact hs.ready

end

theorem steps_allocates (k : Keywords) (owner : Nat) :
    Steps (fun w w' : k.Heap => w.1.Grows owner w'.1) k (fun w v => w.1.Has v) (fun _ _ => True)
      (fun _ _ => True) fun _ w Q x => Allocates owner w Q x where
  refl w := .refl owner w.1
  trans hw hw' := hw.trans hw'
  later hw hv := hv.later hw
  laterFrame _ h := h
  home h := h
  nil _ := Heap.has_of_ident rfl rfl
  number _ _ := Heap.has_of_ident rfl rfl
  t _ := Heap.has_of_ident rfl rfl
  quote _ := Heap.has_of_ident rfl rfl
  quoteProcedure w := w.2
  pair h := (Heap.has_pair_iff.1 h).2
  lambda h := ⟨(Value.all_lambda_iff.1 h).2, trivial⟩
  macroProc h := (Value.all_macroProc_iff.1 h).2
  value ha := allocates_bound fun s hs => ⟨_, s, rfl, ha, rfl, hs⟩
  fail {_ w _} _ _ hs := ⟨w, .refl owner w.1, hs⟩
  exhausted _ _ := trivial
  bind hx hf := hx.bind hf
  cons hhead htail hlist := by
    rw [Eval.cons_eq_fresh _ hlist]
    exact allocates_build fun _ hs => Heap.makes_cons hs hhead htail
  list hitems := by
    rw [Eval.list_eq_build]
    exact allocates_build fun _ hs => Heap.makes_list hs hitems
  makeLambda hbody _ := allocates_build fun _ hs =>
    Heap.makes_one hs rfl fun w hw => (List.mem_cons.1 hw).imp_right hbody.part
  makeMacro hbody := allocates_build fun _ hs =>
    Heap.makes_one hs rfl fun w hw => (List.mem_cons.1 hw).imp_right hbody.part
  derive {w f} _ := allocates_bound fun s hs => ⟨_, _, rfl, trivial, rfl, hs.derive f⟩
  find? _ := allocates_bound fun s hs => ⟨_, s, rfl, fun v hv => hs.find? hv, rfl, hs⟩
  set {w f name v} _ hv := allocates_bound fun s hs => ⟨_, _, rfl, trivial, rfl, hs.set hv f name⟩
  assign {w f name v} _ hv := allocates_bound fun s hs => by
    simp only [Eval.assign, Run.change_apply]
    split
    · next scopes hassign =>
      obtain ⟨g, -, rfl⟩ := Option.map_eq_some_iff.1 hassign
      exact ⟨_, _, rfl, trivial, rfl, hs.set hv g name⟩
    · exact ⟨_, _, rfl, trivial, rfl, hs⟩
  print := allocates_bound fun s hs => ⟨_, _, rfl, trivial, rfl, hs⟩

end Lisplet
