import Lisplet.Evaluate
import Mathlib.Data.List.Forall2

/-! Steps that evaluate nothing.  Making a list of values leaves the store as it is, up to the
identities that the list takes, and taking values in order can be cut anywhere. -/

namespace Lisplet

/-- The store from which some identities have been handed out. -/
def Store.skip (s : Store) (count : Nat) : Store :=
  { s with supply := { s.supply with next := s.supply.next + count } }

@[simp] theorem Store.skip_zero (s : Store) : s.skip 0 = s := rfl

@[simp] theorem Store.skip_skip (s : Store) (m n : Nat) : (s.skip m).skip n = s.skip (m + n) := by
  simp only [skip, Nat.add_assoc]

theorem Eval.list_apply (items : List Value) (s : Store) :
    Eval.list items s = .done (Value.list items s.supply).1 (s.skip items.length) := by
  rw [Eval.list_eq_build]
  simp only [Eval.build, Run.change_apply, Store.build, Value.list_snd, Store.skip]

theorem takeAll_append (take : Value → Eval Value) (vs ws : List Value) :
    takeAll take (vs ++ ws) = (do
      let firsts ← takeAll take vs
      let others ← takeAll take ws
      return firsts ++ others) := by
  induction vs with
  | nil => simp [takeAll]
  | cons v vs ih => simp [takeAll, ih]

theorem takeAll_cons {take : Value → Eval Value} {v w : Value} {vs ws : List Value}
    {s mid t : Store} (hv : take v s = .done w mid) (hvs : takeAll take vs mid = .done ws t) :
    takeAll take (v :: vs) s = .done (w :: ws) t := by
  rw [takeAll, Run.bind_done hv, Run.bind_done hvs]
  rfl

theorem takeAll_cons_eq_done {take : Value → Eval Value} {v : Value} {vs results : List Value}
    {s t : Store} (h : takeAll take (v :: vs) s = .done results t) :
    ∃ w mid ws, take v s = .done w mid ∧ takeAll take vs mid = .done ws t ∧ results = w :: ws := by
  obtain ⟨w, mid, hv, h⟩ := Run.bind_eq_done h
  obtain ⟨ws, t', hvs, h⟩ := Run.bind_eq_done h
  obtain ⟨rfl, rfl⟩ := Outcome.done.inj h
  exact ⟨w, mid, ws, hv, hvs, rfl⟩

theorem takeAll_append_eq_done {take : Value → Eval Value} {vs ws results : List Value}
    {s t : Store} (h : takeAll take (vs ++ ws) s = .done results t) :
    ∃ firsts mid others, takeAll take vs s = .done firsts mid ∧
      takeAll take ws mid = .done others t ∧ results = firsts ++ others := by
  rw [takeAll_append] at h
  obtain ⟨firsts, mid, hfirsts, h⟩ := Run.bind_eq_done h
  obtain ⟨others, t', hothers, h⟩ := Run.bind_eq_done h
  obtain ⟨rfl, rfl⟩ := Outcome.done.inj h
  exact ⟨firsts, mid, others, hfirsts, hothers, rfl⟩

theorem length_of_takeAll {take : Value → Eval Value} {vs ws : List Value} {s t : Store}
    (h : takeAll take vs s = .done ws t) : ws.length = vs.length := by
  induction vs generalizing s ws with
  | nil =>
    obtain ⟨rfl, -⟩ := Outcome.done.inj h
    rfl
  | cons v vs ih =>
    obtain ⟨w, mid, rest, -, hrest, rfl⟩ := takeAll_cons_eq_done h
    rw [List.length_cons, ih hrest, List.length_cons]

theorem takeAll_congr {take take' : Value → Eval Value} {vs ws : List Value}
    (h : List.Forall₂ (fun v w => take v = take' w) vs ws) : takeAll take vs = takeAll take' ws := by
  induction h with
  | nil => rfl
  | cons hv _ ih => rw [takeAll, takeAll, hv, ih]

theorem takeAll_pure (vs : List Value) : takeAll pure vs = pure vs := by
  induction vs with
  | nil => rfl
  | cons v vs ih => simp [takeAll, ih]

end Lisplet
