import Lisplet.Keywords
import Lisplet.Store

/-! The bindings that a session starts with. -/

namespace Lisplet.Store

/-- Binds primitive procedures in a frame, each under its name and with an identity of its own. -/
def bindPrimitives (s : Store) (env : FrameId) : List Primitive → Store
  | [] => s
  | p :: ps =>
    let scopes := s.scopes.set env p.name (.primitive s.supply.ident p)
    { s with scopes, supply := s.supply.rest }.bindPrimitives env ps

/-- Binds the procedures that make procedures and fill templates. -/
def bindCore (s : Store) (env : FrameId) : Store :=
  s.bindPrimitives env [.lambda, .macroMaker, .quasiquote]

/-- Binds the standard procedures and the words for false and true. -/
def bindStandard (s : Store) (k : Keywords) (env : FrameId) : Store :=
  let s := s.bindPrimitives env (Builtin.all.map .builtin)
  { s with scopes := (s.scopes.set env "nil" .nil).set env "t" (k.truth true) }

end Lisplet.Store
