/-! Computations that change a state and may fail or stop.  A failed computation keeps the changes it
made before it failed; one that stopped has no outcome that the program could see. -/

namespace Lisplet

/-- Why a computation stopped. -/
inductive Stop where
  /-- There was no fuel left. -/
  | fuel
  /-- A pair was asked for with a tail that is no list, which is an assertion that failed. -/
  | badTail
  deriving DecidableEq

def Stop.message : Stop → String
  | .fuel => "the evaluation is too deep"
  | .badTail => "cons tail must be a list"

/-- How a computation ended. -/
inductive Outcome (σ ε α : Type) where
  | done (value : α) (state : σ)
  | failed (error : ε) (state : σ)
  | stopped (why : Stop)

/-- A computation from a state. -/
def Run (σ ε α : Type) := σ → Outcome σ ε α

namespace Run

variable {σ ε α β : Type}

/-- Gives a value without changing the state. -/
def ofValue (a : α) : Run σ ε α := fun s => .done a s

/-- Fails without changing the state. -/
def fail (e : ε) : Run σ ε α := fun s => .failed e s

/-- Stops at once. -/
def stop (why : Stop) : Run σ ε α := fun _ => .stopped why

/-- Runs one computation and, if it is done, another from where it ended. -/
def andThen (x : Run σ ε α) (f : α → Run σ ε β) : Run σ ε β := fun s =>
  match x s with
  | .done a s => f a s
  | .failed e s => .failed e s
  | .stopped why => .stopped why

instance : Monad (Run σ ε) where
  pure := ofValue
  bind := andThen

instance : LawfulMonad (Run σ ε) :=
  .mk' (Run σ ε)
    (fun x => funext fun s => by
      change (match x s with
        | .done a s => .done (id a) s
        | .failed e s => .failed e s
        | .stopped why => .stopped why) = x s
      cases x s <;> rfl)
    (fun _ _ => rfl)
    (fun x f g => funext fun s => by
      change andThen (andThen x f) g s = andThen x (fun a => andThen (f a) g) s
      simp only [andThen]
      cases x s <;> rfl)

/-- What can be seen of the state. -/
def look (f : σ → α) : Run σ ε α := fun s => .done (f s) s

/-- A step that changes the state and gives a value. -/
def change (f : σ → α × σ) : Run σ ε α := fun s => let (a, s) := f s; .done a s

@[simp] theorem pure_apply (a : α) (s : σ) : (pure a : Run σ ε α) s = .done a s := rfl

@[simp] theorem fail_apply (e : ε) (s : σ) : (fail e : Run σ ε α) s = .failed e s := rfl

@[simp] theorem look_apply (f : σ → α) (s : σ) : (look f : Run σ ε α) s = .done (f s) s := rfl

@[simp] theorem change_apply (f : σ → α × σ) (s : σ) :
    (change f : Run σ ε α) s = .done (f s).1 (f s).2 := rfl

theorem bind_done {x : Run σ ε α} {f : α → Run σ ε β} {a : α} {s t : σ} (h : x s = .done a t) :
    (x >>= f) s = f a t := by
  simp only [bind, andThen, h]

theorem bind_failed {x : Run σ ε α} {f : α → Run σ ε β} {e : ε} {s t : σ}
    (h : x s = .failed e t) : (x >>= f) s = .failed e t := by
  simp only [bind, andThen, h]

theorem bind_stopped {x : Run σ ε α} {f : α → Run σ ε β} {why : Stop} {s : σ}
    (h : x s = .stopped why) : (x >>= f) s = .stopped why := by
  simp only [bind, andThen, h]

/-- Two computations in a row are done when the first is and then the second. -/
theorem bind_eq_done {x : Run σ ε α} {f : α → Run σ ε β} {b : β} {s t : σ}
    (h : (x >>= f) s = .done b t) : ∃ a mid, x s = .done a mid ∧ f a mid = .done b t := by
  cases hx : x s with
  | done a mid => exact ⟨a, mid, rfl, (bind_done hx).symm.trans h⟩
  | failed e mid => rw [bind_failed hx] at h; cases h
  | stopped why => rw [bind_stopped hx] at h; cases h

end Run

end Lisplet
