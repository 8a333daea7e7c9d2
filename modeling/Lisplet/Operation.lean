import Lisplet.Keywords
import Lisplet.Store
import Lisplet.Value.Equal
import Lisplet.Value.Print

/-! What the standard operations do with their arguments. -/

namespace Lisplet

/-- The argument, which must be a number. -/
def numberArg (command : String) (v : Value) : Except EvalError Float :=
  match v with
  | .number n => .ok n
  | _ => .error (.wrongType command .number v.inspect)

/-- The arguments, which must all be numbers. -/
def numberArgs (command : String) (vs : List Value) : Except EvalError (List Float) :=
  vs.mapM (numberArg command)

def Comparison.holds : Comparison → Float → Float → Bool
  | .equal, x, y => x == y
  | .less, x, y => x < y
  | .greater, x, y => y < x
  | .lessEqual, x, y => x ≤ y
  | .greaterEqual, x, y => y ≤ x

/-- The relation holds between any two neighbours. -/
def Comparison.holdsAll (c : Comparison) : List Float → Bool
  | x :: y :: rest => c.holds x y && c.holdsAll (y :: rest)
  | _ => true

def Predicate.holds : Predicate → Value → Bool
  | .null, v => v.isNil
  | .atom, v => v.isAtom
  | .pair, v => v.isPair
  | .symbol, v => v.symbol?.isSome
  | .number, v => v.number?.isSome
  | .string, v => v.string?.isSome
  | .procedure, v => v.isProcedure

/-- Divides by each argument in turn, up to the first that is zero or no number. -/
def divideBy (result : Float) : List Value → Except EvalError Float
  | [] => .ok result
  | v :: vs => do
    let divisor ← numberArg "/" v
    if divisor == 0 then .error (.raised "/: division by zero") else divideBy (result / divisor) vs

namespace Operation

/-- The error for a number of arguments that an operation cannot take. -/
def wrongCount (o : Operation) (args : List Value) : EvalError :=
  .arity o.name o.arity args.length

/-- The result of an operation that neither builds nor prints anything. -/
def compute (k : Keywords) (o : Operation) (args : List Value) : Except EvalError Value :=
  match o, args with
  | .add, args => do return .number ((← numberArgs "+" args).foldl (· + ·) 0)
  | .multiply, args => do return .number ((← numberArgs "*" args).foldl (· * ·) 1)
  | .subtract, [v] => do return .number (-(← numberArg "-" v))
  | .subtract, v :: vs => do
    let first ← numberArg "-" v
    return .number ((← numberArgs "-" vs).foldl (· - ·) first)
  | .divide, [v] => do return .number (← divideBy 1 [v])
  | .divide, v :: vs => do return .number (← divideBy (← numberArg "/" v) vs)
  | .compare c, args => do return k.truth (c.holdsAll (← numberArgs c.name args))
  | .car, [.nil] | .cdr, [.nil] => .ok .nil
  | .car, [.pair _ head _] => .ok head
  | .cdr, [.pair _ _ tail] => .ok tail
  | .car, [v] => .error (.wrongType "car" .list v.inspect)
  | .cdr, [v] => .error (.wrongType "cdr" .list v.inspect)
  | .length, [v] =>
    if v.isList then .ok (.number v.length.toFloat) else .error (.wrongType "length" .list v.inspect)
  | .same, [v, w] => .ok (k.truth (v.same w))
  | .equal, [v, w] => .ok (k.truth (v.equal w))
  | .test p, [v] => .ok (k.truth (p.holds v))
  | .negate, [v] => .ok (k.truth v.isNil)
  | .raise, [] => .error (.raised "error")
  | .raise, args => .error (.raised (Value.displayAll args))
  | o, args => .error (o.wrongCount args)

theorem exists_of_bind_eq_ok {α β : Type} {x : Except EvalError α} {f : α → Except EvalError β}
    {b : β} (h : (x >>= f) = .ok b) : ∃ a, x = .ok a ∧ f a = .ok b := by
  cases x with
  | error e => cases h
  | ok a => exact ⟨a, rfl, h⟩

/-- What such an operation gives: a number, a truth value, the empty list, or the head or the tail of
an argument. -/
theorem compute_eq_ok {k : Keywords} {o : Operation} {args : List Value} {v : Value}
    (h : o.compute k args = .ok v) :
    (∃ n, v = .number n) ∨ (∃ condition, v = k.truth condition) ∨ v = .nil ∨
      ∃ id head tail, .pair id head tail ∈ args ∧ (v = head ∨ v = tail) := by
  unfold compute at h
  split at h
  case h_1 | h_2 | h_3 | h_5 =>
    obtain ⟨n, -, h⟩ := exists_of_bind_eq_ok h
    exact .inl ⟨_, (Except.ok.inj h).symm⟩
  case h_4 | h_6 =>
    obtain ⟨first, -, h⟩ := exists_of_bind_eq_ok h
    obtain ⟨n, -, h⟩ := exists_of_bind_eq_ok h
    exact .inl ⟨_, (Except.ok.inj h).symm⟩
  case h_7 =>
    obtain ⟨ns, -, h⟩ := exists_of_bind_eq_ok h
    exact .inr (.inl ⟨_, (Except.ok.inj h).symm⟩)
  case h_8 | h_9 => exact .inr (.inr (.inl (Except.ok.inj h).symm))
  case h_10 id head tail =>
    exact .inr (.inr (.inr ⟨id, head, tail, by simp, .inl (Except.ok.inj h).symm⟩))
  case h_11 id head tail =>
    exact .inr (.inr (.inr ⟨id, head, tail, by simp, .inr (Except.ok.inj h).symm⟩))
  case h_14 =>
    split at h
    · exact .inl ⟨_, (Except.ok.inj h).symm⟩
    · cases h
  case h_15 | h_16 | h_17 | h_18 => exact .inr (.inl ⟨_, (Except.ok.inj h).symm⟩)
  all_goals cases h

/-- Applies an operation to arguments that are evaluated already. -/
def apply (k : Keywords) (o : Operation) (args : List Value) : Eval Value :=
  match o, args with
  | .cons, [head, tail] =>
    if tail.isList then Eval.cons head tail else .fail (.wrongType "cons" .list tail.inspect)
  | .list, args => Eval.list args
  | .print, args => do
    Eval.print (Value.displayAll args ++ "\n")
    return args.getLast?.getD .nil
  | o, args =>
    match o.compute k args with
    | .ok v => pure v
    | .error e => .fail e

end Operation

end Lisplet
