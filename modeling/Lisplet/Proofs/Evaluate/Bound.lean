import Lisplet.Proofs.Evaluate.Logic
import Lisplet.Proofs.Scopes.Reachable
import Lisplet.Proofs.Value.Parts

/-! What evaluation binds and gives.  If an invariant holds of all parts of what is bound and of the
expression, and the evaluator's own symbols are those of the table, then evaluation binds nothing else
and gives nothing else. -/

namespace Lisplet

namespace Scopes

/-- Whatever a frame binds has the property. -/
def AllBound (P : Value → Prop) (s : Scopes) : Prop := ∀ f name v, s.get? f name = some v → P v

variable {P : Value → Prop} {s : Scopes} {v : Value}

theorem AllBound.imp {Q : Value → Prop} (h : s.AllBound P) (hPQ : ∀ v, P v → Q v) : s.AllBound Q :=
  fun f name v hv => hPQ v (h f name v hv)

theorem AllBound.find? (h : s.AllBound P) {f : FrameId} {name : String}
    (hfind : s.find? f name = some v) : P v := by
  obtain ⟨g, -, hget⟩ := List.exists_of_findSome?_eq_some hfind
  exact h g name v hget

theorem AllBound.set (h : s.AllBound P) (hv : P v) (f : FrameId) (name : String) :
    (s.set f name v).AllBound P := by
  intro g other w hw
  rw [get?_set] at hw
  split at hw
  · exact Option.some.inj hw ▸ hv
  · exact h g other w hw

theorem AllBound.push (h : s.AllBound P) (parent : Option FrameId)
    (hparent : ∀ p, parent = some p → p < s.frames.size) : (s.push parent hparent).AllBound P := by
  intro g name w hw
  simp only [get?, getElem?_push] at hw
  split at hw
  · simp at hw
  · exact h g name w hw

theorem AllBound.derive (h : s.AllBound P) (f : FrameId) : (s.derive f).2.AllBound P := by
  unfold Scopes.derive
  split
  · next hlt => exact h.push _ (by simp [hlt])
  · exact h.push _ (by simp)

theorem allBound_empty : empty.AllBound P := by
  intro f name v hv
  simp [get?, empty] at hv

end Scopes

/-- The symbols that the evaluator knows are those of the table. -/
structure Keywords.Interned (k : Keywords) (t : SymbolTable) : Prop where
  reserved : ∀ kind, t.lookup kind.name = some (k.quotes.get kind)
  truth : t.lookup "t" = some k.t

theorem Keywords.Interned.later {k : Keywords} {t t' : SymbolTable} (h : k.Interned t)
    (ht : t.Extends t') : k.Interned t' :=
  ⟨fun kind => ht _ _ (h.reserved kind), ht _ _ h.truth⟩

theorem steps_bound {N : SymbolTable → Value → Prop} (hN : Invariant N) {k : Keywords}
    {t : SymbolTable} (hk : k.Interned t) :
    Steps (fun _ _ => True) k (fun _ : Unit => Value.All (N t)) (fun _ _ => True)
      (fun _ _ => True) fun _ _ Q x =>
        Keeps (fun s => s.scopes.AllBound (Value.All (N t))) (Q ()) x where
  refl _ := trivial
  trans _ _ := trivial
  later _ h := h
  laterFrame _ h := h
  home h := h
  nil _ := Value.all_leaf hN rfl rfl rfl
  number _ _ := Value.all_leaf hN rfl rfl rfl
  t _ := Value.all_symbol hN hk.truth
  quote _ := Value.all_symbol hN (hk.reserved .quote)
  quoteProcedure _ := Value.all_leaf hN rfl rfl rfl
  pair h := (Value.all_pair_iff.1 h).2
  lambda h := ⟨(Value.all_lambda_iff.1 h).2, trivial⟩
  macroProc h := (Value.all_macroProc_iff.1 h).2
  value ha _ h := ⟨ha, h⟩
  fail _ _ h := h
  exhausted _ _ := trivial
  bind hx hf := hx.bind fun a ha => hf () a trivial ha
  cons hhead htail hlist _ h := by
    rw [Eval.cons_eq_fresh _ hlist]
    exact ⟨Value.all_pair_iff.2 ⟨hN.pair hlist, hhead, htail⟩, h⟩
  list hitems _ h := by
    rw [Eval.list_eq_build]
    exact ⟨Value.all_list hN hitems _, h⟩
  makeLambda hbody _ _ h := ⟨Value.all_lambda_iff.2 ⟨hN.leaf rfl rfl, hbody⟩, h⟩
  makeMacro hbody _ h := ⟨Value.all_macroProc_iff.2 ⟨hN.leaf rfl rfl, hbody⟩, h⟩
  derive _ _ h := ⟨trivial, h.derive _⟩
  find? _ _ h := ⟨fun _ hv => h.find? hv, h⟩
  set _ hv _ h := ⟨trivial, h.set hv _ _⟩
  assign _ hv s h := by
    simp only [Eval.assign, Run.change_apply]
    split
    · next scopes hassign =>
      obtain ⟨g, -, rfl⟩ := Option.map_eq_some_iff.1 hassign
      exact ⟨trivial, h.set hv g _⟩
    · exact ⟨trivial, h⟩
  print _ h := ⟨trivial, h⟩

end Lisplet
