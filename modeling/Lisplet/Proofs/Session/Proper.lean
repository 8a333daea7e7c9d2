import Lisplet.Proofs.Session.Contents
import Lisplet.Proofs.Session.Pieces
import Lisplet.Proofs.Value.Printed
import Mathlib.Data.List.Basic

/-! Proper lists.  The tail of every pair in a session is a list, so a list is a chain of pairs that
ends in the empty list, and its elements, its length and its printed form leave nothing out.  A pair
on any other tail would stop the evaluation that asks for it; `proper_of_reached` says that this
never happens. -/

namespace Lisplet

namespace Value

/-- A value that is no pair, or a pair whose tail is a list. -/
def TailIsList (v : Value) : Prop := ∀ id head tail, v = .pair id head tail → tail.isList = true

theorem invariant_tailIsList : Invariant fun _ => TailIsList where
  later _ h := h
  symbol _ _ _ _ hv := nomatch hv
  pair htail _ _ _ hv := (Value.pair.inj hv).2.2 ▸ htail
  leaf hpair _ id head tail hv := by
    rw [hv] at hpair
    cases hpair

/-! ### What a list is made of -/

/-- Pairs with the given identities and heads, each in the tail of the one before, and the empty list
in the tail of the last. -/
def ofCells (cells : List (Ident × Value)) : Value :=
  cells.foldr (fun cell tail => .pair cell.1 cell.2 tail) .nil

/-- The value is a chain of pairs that ends in the empty list: its elements are the heads of the
pairs, its length is their number, and its printed form has all elements in order, unless it is a
quote form, which has the mark for the first of two elements. -/
structure Accounted (v : Value) : Prop where
  chain : ∃ cells, v = ofCells cells ∧ v.elements = cells.map (·.2) ∧ v.length = cells.length
  printed : ∀ style, v.chars style =
    match v.quoteForm? with
    | some (kind, datum) => kind.mark.toList ++ datum.chars style
    | none => '(' :: [' '].intercalate (v.elements.map (chars style)) ++ [')']

theorem exists_cells {v : Value} (h : v.All TailIsList) (hlist : v.isList = true) :
    ∃ cells, v = ofCells cells ∧ v.elements = cells.map (·.2) ∧ v.length = cells.length := by
  induction v with
  | nil => exact ⟨[], rfl, rfl, rfl⟩
  | pair id head tail _ ih =>
    -- The tail is a list again because of the pair, not because of the tail.
    obtain ⟨hpair, -, htail⟩ := all_pair_iff.1 h
    obtain ⟨cells, hcells, helements, hlength⟩ := ih htail (hpair id head tail rfl)
    refine ⟨(id, head) :: cells, ?_, ?_, ?_⟩
    · rw [hcells]
      rfl
    · rw [elements_pair, helements]
      rfl
    · rw [length, elements_pair, List.length_cons, List.length_cons, ← hlength]
      rfl
  | _ => cases hlist

theorem tailChars_eq (style : Style) (v : Value) :
    v.tailChars style = v.elements.flatMap (fun e => ' ' :: e.chars style) ++ [')'] := by
  induction v with
  | pair id head tail _ ih =>
    rw [tailChars, ih, elements_pair, List.flatMap_cons, List.append_assoc]
  | _ => rfl

theorem intercalate_space (x : List Char) (xs : List (List Char)) :
    [' '].intercalate (x :: xs) = x ++ xs.flatMap (' ' :: ·) := by
  induction xs generalizing x with
  | nil => simp
  | cons y ys ih => simp [List.intercalate_cons_cons, ih]

theorem accounted {v : Value} (h : v.All TailIsList) (hlist : v.isList = true) : v.Accounted := by
  refine ⟨exists_cells h hlist, fun style => ?_⟩
  cases hform : v.quoteForm? with
  | some form =>
    obtain ⟨i, s, j, rfl, hs⟩ := quoteForm?_eq_some hform
    exact chars_quoted hs
  | none =>
    cases v with
    | nil => rfl
    | pair id head tail =>
      simp only [chars_list hform, tailChars_eq, elements_pair, List.map_cons, intercalate_space,
        List.flatMap_map, List.cons_append, List.append_assoc]
    | _ => cases hlist

end Value

/-! ### Making pairs -/

/-- The computation did not stop at a pair whose tail is no list, and its value, if there is one, has
the property. -/
def Outcome.Passes {σ ε α : Type} (P : α → Prop) : Outcome σ ε α → Prop
  | .done a _ => P a
  | .failed _ _ => True
  | .stopped why => why ≠ .badTail

theorem Outcome.Passes.ne {σ ε α : Type} {P : α → Prop} {o : Outcome σ ε α} (h : o.Passes P) :
    o ≠ .stopped .badTail := by
  rintro rfl
  exact h rfl

/-- From no store does the computation stop at a pair whose tail is no list. -/
def Passing {α : Type} (P : α → Prop) (x : Eval α) : Prop := ∀ s, (x s).Passes P

theorem Passing.bind {α β : Type} {P : α → Prop} {Q : β → Prop} {x : Eval α} {f : α → Eval β}
    (hx : Passing P x) (hf : ∀ a, P a → Passing Q (f a)) : Passing Q (x >>= f) := by
  intro s
  have hfirst := hx s
  cases hrun : x s with
  | done a t =>
    rw [hrun] at hfirst
    rw [Run.bind_done hrun]
    exact hf a hfirst t
  | failed e t =>
    rw [Run.bind_failed hrun]
    trivial
  | stopped why =>
    rw [hrun] at hfirst
    rw [Run.bind_stopped hrun]
    exact hfirst

/-- The evaluator checks the tail before it makes a pair, so this needs nothing of the values at
hand. -/
theorem steps_passing (k : Keywords) :
    Steps (fun _ _ => True) k (fun (_ : Unit) _ => True) (fun _ _ => True) (fun _ _ => True)
      fun _ _ Q x => Passing (Q ()) x where
  refl _ := trivial
  trans _ _ := trivial
  later _ _ := trivial
  laterFrame _ _ := trivial
  home _ := trivial
  nil _ := trivial
  number _ _ := trivial
  t _ := trivial
  quote _ := trivial
  quoteProcedure _ := trivial
  pair _ := ⟨trivial, trivial⟩
  lambda _ := ⟨trivial, trivial⟩
  macroProc _ := trivial
  value ha _ := ha
  fail _ _ := trivial
  exhausted _ := Stop.noConfusion
  bind hx hf := hx.bind fun a ha => hf () a trivial ha
  cons _ _ hlist _ := by
    rw [Eval.cons_eq_fresh _ hlist]
    trivial
  list _ _ := by
    rw [Eval.list_eq_build]
    trivial
  makeLambda _ _ _ := trivial
  makeMacro _ _ := trivial
  derive _ _ := trivial
  find? _ _ _ _ := trivial
  set _ _ _ := trivial
  assign _ _ _ := trivial
  print _ := trivial

/-- No evaluation stops at a pair whose tail is no list. -/
theorem passing_eval {k : Keywords} (hk : k.Plain) (fuel : Nat) (env : FrameId) (expr : Value) :
    Passing (fun _ => True) (eval k fuel env expr) :=
  ((steps_passing k).rules hk).eval fuel () env expr trivial trivial

example (s : Store) : Eval.cons .nil (.number 1) s = .stopped .badTail := rfl

namespace Session

theorem drain_passes (fuel : Nat) (final : Bool) {s : Session} (hplain : s.keywords.Plain) :
    (s.drain fuel final).Passes fun _ => True := by
  refine drain_induct (P := fun s o => s.keywords.Plain → o.Passes fun _ => True)
    ?unread ?nothing ?stopped ?unvalued ?datum s hplain
  case unread => exact fun _ _ _ _ _ _ => trivial
  case nothing => exact fun _ _ _ _ _ => trivial
  case stopped =>
    intro s expr reader stream why _ heval hplain
    have hpasses := passing_eval hplain fuel s.global expr s.store
    rw [heval] at hpasses
    exact hpasses
  case unvalued => exact fun _ _ _ _ _ _ _ _ _ => trivial
  case datum =>
    intro s expr reader stream v store rest _ _ hrest hplain
    have hpasses := hrest hplain
    cases rest with
    | done ws t => trivial
    | failed e t => trivial
    | stopped why => exact hpasses

theorem onStore_passes {x : Eval Value} (hx : Passing (fun _ => True) x) (s : Session) :
    ((onStore x s).map ([·])).Passes fun _ => True := by
  have hpasses := hx s.store
  unfold onStore
  cases hrun : x s.store with
  | done v store => trivial
  | failed e store => trivial
  | stopped why =>
    rw [hrun] at hpasses
    exact hpasses

theorem evalText_passes (fuel : Nat) (text : String) {s : Session} (hplain : s.keywords.Plain) :
    ((evalText fuel text s).map ([·])).Passes fun _ => True := by
  unfold evalText
  simp only
  split
  · trivial
  · next exprs reader hread =>
    have hrules := (steps_passing s.keywords).rules hplain
    have hpasses : Passing (fun _ => True)
        (evalBody (Lisplet.eval s.keywords fuel) s.global exprs) :=
      hrules.evalBody (w := ()) (fun w env e => hrules.eval fuel w env e) trivial fun _ _ => trivial
    exact onStore_passes hpasses _

/-- No request stops at a pair whose tail is no list. -/
theorem request_passes (fuel : Nat) (request : Request) {s : Session} (hplain : s.keywords.Plain) :
    (request.run fuel s).Passes fun _ => True := by
  cases request with
  | evalText text =>
    rw [run_evalText]
    exact evalText_passes fuel text hplain
  | feed text =>
    exact @drain_passes fuel false { s with stream := s.stream.push text } hplain
  | flush =>
    have hpasses := drain_passes fuel true hplain
    simp only [Request.run, flush]
    cases hrun : s.drain fuel true with
    | done vs t =>
      simp only
      split <;> trivial
    | failed e t => trivial
    | stopped why =>
      rw [hrun] at hpasses
      exact hpasses
  | resetReader => trivial

/-- In a session whose factories make proper values only, in every state: the tail of every pair in
the session is a list; neither an evaluation nor a request stops at a pair whose tail is no list, and
the lists that the reader makes pass the same check; and every list in the session is accounted for by
its elements, its length and its printed form. -/
theorem proper_of_reached {vs : List Value} {s : Session}
    (h : Reached (fun _ f => f.Makes (Value.All Value.TailIsList)) vs s) :
    (∀ id head tail, Occurs vs s (.pair id head tail) → tail.isList = true) ∧
      (∀ fuel env expr store, Lisplet.eval s.keywords fuel env expr store ≠ .stopped .badTail) ∧
      (∀ fuel request, Request.run fuel request s ≠ .stopped .badTail) ∧
      (∀ items supply, Value.ofList? items .nil supply = some (Value.list items supply)) ∧
      ∀ v, Occurs vs s v → v.isList = true → v.Accounted := by
  have hholds := Reached.holds Value.invariant_tailIsList h
  refine ⟨fun id head tail hpair => ?_, fun fuel env expr store => ?_, fun fuel request => ?_,
    Value.ofList?_nil, fun v hv => Value.accounted (hholds.occurs hv)⟩
  · exact (hholds.occurs hpair).self id head tail rfl
  · exact (passing_eval hholds.plain fuel env expr store).ne
  · exact (request_passes fuel request hholds.plain).ne

/-- A session with a factory for strings, in which lists have come from a template with spliced values,
from a rest parameter, from applying a procedure to a list and from `cons`, and one has begun. -/
theorem proper_of_reached_spliced :
    ∃ vs s, Reached (fun _ f => f.Makes (Value.All Value.TailIsList)) vs s ∧
      vs.map Value.inspect = ["f", "(a b c k z)", "(d e k z)"] ∧ s.reader.openLists = 1 ∧
      (∀ id head tail, Occurs vs s (.pair id head tail) → tail.isList = true) ∧
      (∀ fuel env expr store, Lisplet.eval s.keywords fuel env expr store ≠ .stopped .badTail) ∧
      (∀ fuel request, Request.run fuel request s ≠ .stopped .badTail) ∧
      (∀ items supply, Value.ofList? items .nil supply = some (Value.list items supply)) ∧
      ∀ v, Occurs vs s v → v.isList = true → v.Accounted := by
  have hfed : ((feed 12 "(define f (lambda (x *r) `(,x ,@r ,@'k z)))
        (apply f '(a b c)) (cons 'd (f 'e)) ($y 'z "
      (standard.register (Factory.ofLead "$" "string"))).result?.any fun result =>
        result.1.map Value.inspect == ["f", "(a b c k z)", "(d e k z)"] &&
          result.2.reader.openLists == 1) = true := by
    decide +kernel
  obtain ⟨⟨vs, s⟩, hresult, hstate⟩ := (Option.any_eq_true _ _).1 hfed
  have hfactory : Factory.Makes (Value.All Value.TailIsList) (Factory.ofLead "$" "string") :=
    Factory.ofLead_makes Value.invariant_tailIsList standard.reader.table "$" "string"
  have hreached : Reached (fun _ f => f.Makes (Value.All Value.TailIsList)) vs s :=
    .done (.register .standard _ hfactory) 12 (.feed _) (Outcome.eq_done_of_result? hresult)
  obtain ⟨hvalues, hopen⟩ := Bool.and_eq_true_iff.1 hstate
  exact ⟨vs, s, hreached, by simpa using hvalues, by simpa using hopen, proper_of_reached hreached⟩

end Session

end Lisplet
