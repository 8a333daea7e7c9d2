import Lisplet.Proofs.Evaluate.Logic

/-! Printing.  Nothing looks at the text printed so far, so an evaluation does the same whatever was
printed before it. -/

namespace Lisplet

/-- The store in which some text was printed before all else. -/
def Store.printedBefore (s : Store) (text : String) : Store :=
  { s with printed := text ++ s.printed }

theorem steps_printedBefore (k : Keywords) (text : String) :
    Steps (fun _ _ => True) k (fun (_ : Unit) _ => True) (fun _ _ => True) (fun _ _ => True)
      fun _ _ Q x => Commutes (·.printedBefore text) (fun _ => True) (Q ()) x where
  refl _ := trivial
  trans _ _ := trivial
  later _ _ := trivial
  laterFrame _ _ := trivial
  home _ := trivial
  nil _ := trivial
  number _ _ := trivial
  t _ := trivial
  quote _ := trivial
  quoteProcedure _ := trivial
  pair _ := ⟨trivial, trivial⟩
  lambda _ := ⟨trivial, trivial⟩
  macroProc _ := trivial
  value ha := ⟨fun _ _ => ⟨ha, trivial⟩, fun _ _ => rfl⟩
  fail _ := ⟨fun _ _ => trivial, fun _ _ => rfl⟩
  exhausted := ⟨fun _ _ => trivial, fun _ _ => rfl⟩
  bind hx hf := hx.bind fun a ha => hf () a trivial ha
  cons _ _ hlist := by
    rw [Eval.cons_eq_fresh _ hlist]
    exact ⟨fun _ _ => ⟨trivial, trivial⟩, fun _ _ => rfl⟩
  list _ := by
    rw [Eval.list_eq_build]
    exact ⟨fun _ _ => ⟨trivial, trivial⟩, fun _ _ => rfl⟩
  makeLambda _ _ := ⟨fun _ _ => ⟨trivial, trivial⟩, fun _ _ => rfl⟩
  makeMacro _ := ⟨fun _ _ => ⟨trivial, trivial⟩, fun _ _ => rfl⟩
  derive _ := ⟨fun _ _ => ⟨trivial, trivial⟩, fun _ _ => rfl⟩
  find? _ := ⟨fun _ _ => ⟨fun _ _ => trivial, trivial⟩, fun _ _ => rfl⟩
  set _ _ := ⟨fun _ _ => ⟨trivial, trivial⟩, fun _ _ => rfl⟩
  assign {_ f name v} _ _ := by
    refine ⟨fun _ _ => ⟨trivial, trivial⟩, fun s _ => ?_⟩
    simp only [Eval.assign, Run.change_apply, Store.printedBefore, Outcome.mapState]
    cases s.scopes.assign? f name v <;> rfl
  print {_ more} := by
    refine ⟨fun _ _ => ⟨trivial, trivial⟩, fun s _ => ?_⟩
    simp only [Eval.print, Run.change_apply, Store.printedBefore, Outcome.mapState,
      String.append_assoc]

/-- Evaluating some expressions does the same after some text was printed. -/
theorem takeAll_printedBefore {k : Keywords} (hk : k.Plain) (fuel : Nat) (env : FrameId)
    (text : String) (es : List Value) (s : Store) :
    takeAll (eval k fuel env) es (s.printedBefore text) =
      (takeAll (eval k fuel env) es s).mapState (·.printedBefore text) := by
  have hR := (steps_printedBefore k text).rules hk
  have hall := hR.takeAll (w := ()) env (fun w => hR.eval fuel w env) trivial
    fun e (_ : e ∈ es) => trivial
  exact hall.same s trivial

end Lisplet
