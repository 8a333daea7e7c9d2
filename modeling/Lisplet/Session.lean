import Lisplet.Evaluate
import Lisplet.Reader.Read
import Lisplet.Standard

/-! Sessions: a reader and an evaluator on one symbol table, with a global frame.  A session takes
whole texts, or text in pieces whose datums are evaluated as soon as they are complete. -/

namespace Lisplet

/-- A reader and an evaluator at work on one program. -/
structure Session where
  reader : Reader
  /-- The text that came in pieces and has not been read yet. -/
  stream : Stream
  keywords : Keywords
  global : FrameId
  store : Store

namespace Session

/-- A session for a host program whose global frame has been filled in by `bind`. -/
def start (hosts : Nat → Host) (bind : Keywords → FrameId → Store → Store) : Session :=
  let (keywords, table, supply) := Keywords.intern (.empty 0) (.ofOwner 0) hosts
  let (global, scopes) := Scopes.empty.create
  { reader := .ofTable table (.ofOwner 1)
    stream := .empty
    keywords
    global
    store := bind keywords global { Store.empty supply with scopes } }

/-- A session with the core procedures only. -/
def coreWith (hosts : Nat → Host) : Session := start hosts fun _ env s => s.bindCore env

/-- A session with the core and the standard procedures. -/
def standardWith (hosts : Nat → Host) : Session :=
  start hosts fun k env s => (s.bindCore env).bindStandard k env

/-- A session for a host program whose procedures give back their arguments. -/
def standard : Session := standardWith fun _ => .echo

/-- No datum has begun and nothing has gone wrong. -/
def isClean (s : Session) : Bool := s.reader.isClean

/-- Drops the text and the datums that are not complete. -/
def resetReader (s : Session) : Session :=
  { s with reader := s.reader.reset, stream := s.stream.clear }

/-- Adds a factory for atoms. -/
def register (s : Session) (f : Factory) : Session := { s with reader := s.reader.register f }

/-- A computation of the evaluator on the session's store. -/
def onStore {α : Type} (x : Eval α) : Run Session Error α := fun s =>
  match x s.store with
  | .done a store => .done a { s with store }
  | .failed e store => .failed (.eval e) { s with store }
  | .stopped why => .stopped why

/-- Evaluates an expression in the global frame. -/
def eval (fuel : Nat) (expr : Value) : Run Session Error Value := fun s =>
  onStore (Lisplet.eval s.keywords fuel s.global expr) s

/-- Reads a whole text and then evaluates its datums in order; the last value comes out.  Nothing is
evaluated unless all of the text can be read.  What was not complete before is dropped. -/
def evalText (fuel : Nat) (text : String) : Run Session Error Value := fun s =>
  let s := s.resetReader
  match s.reader.readAll text with
  | (.error e, reader) => .failed (.read e) { s with reader := reader.reset }
  | (.ok exprs, reader) =>
    onStore (evalBody (Lisplet.eval s.keywords fuel) s.global exprs) { s with reader }

/-- Reads and evaluates the datums that the stream completes, one after the other.  After an error
what is left of the text is dropped. -/
def drain (fuel : Nat) (final : Bool) (s : Session) : Outcome Session Error (List Value) :=
  match _ : s.reader.read final s.stream with
  | (.error e, reader, stream) => .failed (.read e) { s with reader, stream }.resetReader
  | (.ok none, reader, stream) => .done [] { s with reader, stream }
  | (.ok (some expr), reader, stream) =>
    match Lisplet.eval s.keywords fuel s.global expr s.store with
    | .stopped why => .stopped why
    | .failed e store => .failed (.eval e) { s with reader, stream, store }.resetReader
    | .done v store =>
      match drain fuel final { s with reader, stream, store } with
      | .done vs s => .done (v :: vs) s
      | .failed e s => .failed e s
      | .stopped why => .stopped why
termination_by s.stream.rest.length
decreasing_by exact Reader.read_length (by assumption)

/-- Adds a piece of text and evaluates the datums it completes. -/
def feed (fuel : Nat) (text : String) : Run Session Error (List Value) := fun s =>
  { s with stream := s.stream.push text }.drain fuel false

/-- Declares the end of the text that came in pieces, and evaluates the datums this completes. -/
def flush (fuel : Nat) : Run Session Error (List Value) := fun s =>
  match s.drain fuel true with
  | .done vs s =>
    match s.reader.finish s.stream with
    | .ok _ => .done vs s
    | .error e => .failed (.read e) s.resetReader
  | .failed e s => .failed e s
  | .stopped why => .stopped why

/-- What a name means in the global frame. -/
def find? (s : Session) (name : String) : Option Value := s.store.scopes.find? s.global name

/-- The names bound in the global frame, in order. -/
def names (s : Session) : List String := s.store.scopes.names s.global

/-- Builds a value with identities of its own. -/
def build (s : Session) (make : Supply → Value × Supply) : Value × Session :=
  let (v, store) := s.store.build make
  (v, { s with store })

/-- Binds a name in the global frame. -/
def set (s : Session) (name : String) (v : Value) : Session :=
  { s with store := { s.store with scopes := s.store.scopes.set s.global name v } }

/-- Interns a name in the session's table. -/
def intern (s : Session) (name : String) : Symbol × Session :=
  let (sym, table) := s.reader.table.intern name
  (sym, { s with reader := { s.reader with table } })

/-- The text printed since this was last asked. -/
def takePrinted (s : Session) : String × Session :=
  (s.store.printed, { s with store := { s.store with printed := "" } })

end Session

end Lisplet
