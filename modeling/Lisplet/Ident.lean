/-! Identities.  Every list cell, string, procedure and extension value carries the identity it was
made with, so that two values can be told apart even when they look alike.  A supply hands
identities out; two supplies with different owners never hand out the same one. -/

namespace Lisplet

/-- The identity of an object: the owner of the supply that made it and its number there. -/
structure Ident where
  owner : Nat
  serial : Nat
  deriving DecidableEq

/-- A source of identities.  The next identity has the serial number `next`. -/
structure Supply where
  owner : Nat
  next : Nat
  deriving DecidableEq

/-- A supply that has handed out nothing yet. -/
def Supply.ofOwner (owner : Nat) : Supply := ⟨owner, 0⟩

/-- The next identity. -/
def Supply.ident (s : Supply) : Ident := ⟨s.owner, s.next⟩

/-- The supply after it has handed out its next identity. -/
def Supply.rest (s : Supply) : Supply := { s with next := s.next + 1 }

/-- An identity that the supply has handed out already. -/
def Supply.Used (s : Supply) (i : Ident) : Prop := i.owner = s.owner ∧ i.serial < s.next

end Lisplet
