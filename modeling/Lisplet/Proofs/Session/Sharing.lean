import Lisplet.Proofs.Evaluate.Heap
import Lisplet.Proofs.Reader.Heap
import Lisplet.Proofs.Session.Contents
import Lisplet.Proofs.Session.Pieces
import Lisplet.Proofs.Value.Equality

/-! Shared values in a session.  The reader and the evaluator take their identities from supplies of
their own and share the values that they make; a host program gives values of its own to the session,
and also values that have come out of it before.  In every state there is one heap behind all these
values, so that the laws of equality hold among them. -/

namespace Lisplet

theorem Store.bindPrimitives_backed {owner : Nat} {h : Heap} {s : Store} (env : FrameId)
    (ps : List Primitive) (hs : s.Backed owner h) :
    h.Later owner ((s.bindPrimitives env ps).Backed owner) := by
  induction ps generalizing h s with
  | nil => exact .now hs
  | cons p ps ih =>
    have hprimitive : h.Makes owner (.primitive s.supply.ident p, s.supply.rest) :=
      Heap.makes_leaf hs.ready rfl rfl
    refine hprimitive.bind fun h' hgrows hmade => ih ⟨hmade.2, ?_⟩
    exact (hs.bound.imp fun _ hv => hv.later hgrows).set hmade.1 env p.name

theorem Store.Backed.bindTruth {owner : Nat} {h : Heap} {s : Store} (k : Keywords) (env : FrameId)
    (hs : s.Backed owner h) : Store.Backed owner h
      { s with scopes := (s.scopes.set env "nil" .nil).set env "t" (k.truth true) } := by
  refine ⟨hs.ready, .set (.set hs.bound ?_ env "nil") ?_ env "t"⟩
  · exact Heap.has_of_ident rfl rfl
  · exact Heap.has_of_ident rfl rfl

theorem Store.bindStandard_backed {owner : Nat} {h : Heap} {s : Store} (k : Keywords)
    (env : FrameId) (hs : s.Backed owner h) :
    h.Later owner ((s.bindStandard k env).Backed owner) :=
  (bindPrimitives_backed env _ hs).imp fun _ _ hall => hall.bindTruth k env

namespace Session

/-- The heap has all values in a session that has returned `vs`, and those of the host, whose procedures
are plain. -/
structure Backed (host h : Heap) (vs : List Value) (s : Session) : Prop where
  host : ∀ i v, host i = some v → h i = some v
  reader : s.reader.Backed 1 h
  store : s.store.Backed 0 h
  quote : h.Has s.keywords.quoteProcedure
  plain : s.keywords.Plain
  returned : ∀ v ∈ vs, h.Has v

/-- There is one heap behind the session and its host. -/
def Shared (host : Heap) (vs : List Value) (s : Session) : Prop := ∃ h, s.Backed host h vs

/-- The values that a host knows: its own, those in the session and those that have come out of it. -/
def Known (host : Heap) (vs : List Value) (s : Session) (v : Value) : Prop :=
  host.Has v ∨ Occurs vs s v

/-- The states that a session and its host can get into, with the values that have come out until
then.  The procedures of the host are plain.  Apart from its requests, the host may at any time add a
factory that makes values of those it knows and of new objects, build such values itself, bind or
evaluate values that it knows, read from a stream of its own, intern names and take what has been
printed. -/
inductive Hosted (host : Heap) : List Value → Session → Prop
  | start (hosts : Nat → Host) (plain : (standardWith hosts).keywords.Plain) :
      Hosted host [] (.standardWith hosts)
  | core (hosts : Nat → Host) (plain : (coreWith hosts).keywords.Plain) :
      Hosted host [] (.coreWith hosts)
  | register {vs : List Value} {s : Session} (before : Hosted host vs s) (f : Factory)
      (may : f.Builds (Known host vs s)) : Hosted host vs (s.register f)
  | build {vs : List Value} {s : Session} (before : Hosted host vs s)
      (make : Supply → Value × Supply)
      (may : ∀ supply : Supply, supply.Builds (Known host vs s) (make supply)) :
      Hosted host (vs ++ [(s.build make).1]) (s.build make).2
  | bind {vs : List Value} {s : Session} (before : Hosted host vs s) (name : String) {v : Value}
      (may : Known host vs s v) : Hosted host vs (s.set name v)
  | intern {vs : List Value} {s : Session} (before : Hosted host vs s) (name : String) :
      Hosted host vs (s.intern name).2
  | takePrinted {vs : List Value} {s : Session} (before : Hosted host vs s) :
      Hosted host vs s.takePrinted.2
  | read {vs : List Value} {s : Session} (before : Hosted host vs s) (final : Bool)
      {stream stream' : Stream} {answer : Except ReadError (Option Value)} {reader : Reader}
      (run : s.reader.read final stream = (answer, reader, stream')) :
      Hosted host (vs ++ answer.toOption.join.toList) { s with reader }
  | valued {vs : List Value} {s t : Session} (before : Hosted host vs s) (fuel : Nat)
      {expr v : Value} (may : Known host vs s expr) (run : eval fuel expr s = .done v t) :
      Hosted host (vs ++ [v]) t
  | unvalued {vs : List Value} {s t : Session} {e : Error} (before : Hosted host vs s) (fuel : Nat)
      {expr : Value} (may : Known host vs s expr) (run : eval fuel expr s = .failed e t) :
      Hosted host vs t
  | done {vs ws : List Value} {s t : Session} (before : Hosted host vs s) (fuel : Nat)
      (request : Request) (run : request.run fuel s = .done ws t) : Hosted host (vs ++ ws) t
  | failed {vs : List Value} {s t : Session} {e : Error} (before : Hosted host vs s) (fuel : Nat)
      (request : Request) (run : request.run fuel s = .failed e t) : Hosted host vs t

variable {host h h' : Heap} {vs ws : List Value} {s : Session}

theorem Backed.occurs (hs : s.Backed host h vs) {w : Value} (hw : Occurs vs s w) : h.Has w := by
  cases hw with
  | returned value part => exact (hs.returned _ value).part part
  | bound value part => exact (hs.store.bound _ _ _ value).part part
  | begun list value part => exact (hs.reader.items _ list _ value).part part

theorem Backed.fewer (hs : s.Backed host h vs) (hws : ∀ v ∈ ws, v ∈ vs) : s.Backed host h ws :=
  ⟨hs.host, hs.reader, hs.store, hs.quote, hs.plain, fun v hv => hs.returned v (hws v hv)⟩

theorem Backed.returning {v : Value} (hs : s.Backed host h vs) (hv : h.Has v) :
    s.Backed host h (vs ++ [v]) :=
  ⟨hs.host, hs.reader, hs.store, hs.quote, hs.plain,
    List.forall_mem_append.2 ⟨hs.returned, List.forall_mem_singleton.2 hv⟩⟩

theorem Backed.resetReader (hs : s.Backed host h vs) : s.resetReader.Backed host h vs :=
  ⟨hs.host, hs.reader.reset, hs.store, hs.quote, hs.plain, hs.returned⟩

theorem Backed.known (hs : s.Backed host h vs) {v : Value} (hv : Known host vs s v) : h.Has v := by
  rcases hv with hv | hv
  · exact fun w hw i hi => hs.host i w (hv w hw i hi)
  · exact hs.occurs hv

theorem Backed.register {f : Factory} (hs : s.Backed host h vs) (hf : f.Builds h.Has) :
    (s.register f).Backed host h vs :=
  ⟨hs.host, hs.reader.register hf, hs.store, hs.quote, hs.plain, hs.returned⟩

theorem Backed.set {v : Value} (hs : s.Backed host h vs) (hv : h.Has v) (name : String) :
    (s.set name v).Backed host h vs :=
  ⟨hs.host, hs.reader, ⟨hs.store.ready, hs.store.bound.set hv s.global name⟩, hs.quote, hs.plain,
    hs.returned⟩

theorem Backed.intern (hs : s.Backed host h vs) (name : String) :
    (s.intern name).2.Backed host h vs :=
  ⟨hs.host, ⟨hs.reader.ready, hs.reader.items, hs.reader.made⟩, hs.store, hs.quote, hs.plain,
    hs.returned⟩

theorem Backed.takePrinted (hs : s.Backed host h vs) : s.takePrinted.2.Backed host h vs :=
  ⟨hs.host, hs.reader, ⟨hs.store.ready, hs.store.bound⟩, hs.quote, hs.plain, hs.returned⟩

/-! ### Reading and evaluating -/

theorem Backed.read {reader : Reader} (hs : s.Backed host h vs) (hgrows : h.Grows 1 h')
    (hreader : reader.Backed 1 h') (stream : Stream) :
    Backed host h' vs { s with reader, stream } :=
  ⟨fun i v hv => hgrows.keeps i v (hs.host i v hv), hreader,
    hs.store.later hgrows Nat.zero_ne_one, hs.quote.later hgrows, hs.plain,
    fun v hv => (hs.returned v hv).later hgrows⟩

theorem Backed.evaluated {store : Store} (hs : s.Backed host h vs) (hgrows : h.Grows 0 h')
    (hstore : store.Backed 0 h') : Backed host h' vs { s with store } :=
  ⟨fun i v hv => hgrows.keeps i v (hs.host i v hv), hs.reader.later hgrows Nat.one_ne_zero, hstore,
    hs.quote.later hgrows, hs.plain, fun v hv => (hs.returned v hv).later hgrows⟩

theorem read_shared {final : Bool} {stream stream' : Stream} {reader : Reader}
    {answer : Except ReadError (Option Value)} (hs : s.Shared host vs)
    (hread : s.reader.read final stream = (answer, reader, stream')) :
    Shared host (vs ++ answer.toOption.join.toList) { s with reader } := by
  obtain ⟨h, hs⟩ := hs
  obtain ⟨h', hgrows, hreader, hdatum⟩ := Reader.read_backed hs.reader hread
  have hs' := hs.read hgrows hreader s.stream
  cases answer with
  | error e => exact ⟨h', hs'.fewer (by simp [Except.toOption])⟩
  | ok v? =>
    cases v? with
    | none => exact ⟨h', hs'.fewer (by simp [Except.toOption])⟩
    | some v => exact ⟨h', hs'.returning (hdatum v rfl)⟩

theorem onStore_shared {x : Eval Value} (hs : s.Backed host h vs)
    (hx : Allocates 0 ⟨h, hs.quote⟩ (fun w v => w.1.Has v) x) :
    ((onStore x s).map ([·])).Returns fun ws t => t.Shared host (vs ++ ws) := by
  have hends := hx s.store hs.store
  unfold onStore
  split
  · next v store hrun =>
    rw [hrun] at hends
    obtain ⟨w, hgrows, hv, hstore⟩ := hends
    exact ⟨w.1, (hs.evaluated hgrows hstore).returning hv⟩
  · next e store hrun =>
    rw [hrun] at hends
    obtain ⟨w, hgrows, hstore⟩ := hends
    exact ⟨w.1, (hs.evaluated hgrows hstore).fewer (by simp)⟩
  · trivial

theorem eval_allocates (fuel : Nat) {expr : Value} (hs : s.Backed host h vs) (hexpr : h.Has expr) :
    Allocates 0 ⟨h, hs.quote⟩ (fun w v => w.1.Has v)
      (Lisplet.eval s.keywords fuel s.global expr) :=
  ((steps_allocates s.keywords 0).rules hs.plain).eval fuel ⟨h, hs.quote⟩ s.global expr trivial hexpr

theorem eval_shared (fuel : Nat) {expr : Value} (hs : s.Shared host vs)
    (hexpr : Known host vs s expr) :
    ((eval fuel expr s).map ([·])).Returns fun ws t => t.Shared host (vs ++ ws) := by
  obtain ⟨h, hs⟩ := hs
  exact onStore_shared hs (eval_allocates fuel hs (hs.known hexpr))

theorem drain_shared (fuel : Nat) (final : Bool) (hs : s.Shared host vs) :
    (s.drain fuel final).Returns fun ws t => t.Shared host (vs ++ ws) := by
  refine drain_induct
    (P := fun s o => ∀ vs, s.Shared host vs → o.Returns fun ws t => t.Shared host (vs ++ ws))
    ?unread ?nothing ?stopped ?unvalued ?datum s vs hs
  case unread =>
    rintro s e reader stream hread vs ⟨h, hs⟩
    obtain ⟨h', hgrows, hreader, -⟩ := Reader.read_backed hs.reader hread
    exact ⟨h', (hs.read hgrows hreader stream).resetReader.fewer (by simp)⟩
  case nothing =>
    rintro s reader stream hread vs ⟨h, hs⟩
    obtain ⟨h', hgrows, hreader, -⟩ := Reader.read_backed hs.reader hread
    exact ⟨h', (hs.read hgrows hreader stream).fewer (by simp)⟩
  case stopped => exact fun _ _ _ _ _ _ _ _ _ => trivial
  case unvalued =>
    rintro s expr reader stream e store hread heval vs ⟨h, hs⟩
    obtain ⟨h', hgrows, hreader, hexpr⟩ := Reader.read_backed hs.reader hread
    have hs' := hs.read hgrows hreader stream
    have hends := eval_allocates fuel hs' (hexpr expr rfl) s.store hs'.store
    rw [heval] at hends
    obtain ⟨w, hgrows', hstore⟩ := hends
    exact ⟨w.1, (hs'.evaluated hgrows' hstore).resetReader.fewer (by simp)⟩
  case datum =>
    rintro s expr reader stream v store rest hread heval hrest vs ⟨h, hs⟩
    obtain ⟨h', hgrows, hreader, hexpr⟩ := Reader.read_backed hs.reader hread
    have hs' := hs.read hgrows hreader stream
    have hends := eval_allocates fuel hs' (hexpr expr rfl) s.store hs'.store
    rw [heval] at hends
    obtain ⟨w, hgrows', hv, hstore⟩ := hends
    have hmore := hrest (vs ++ [v]) ⟨w.1, (hs'.evaluated hgrows' hstore).returning hv⟩
    cases rest with
    | done ws t =>
      obtain ⟨h'', ht⟩ := hmore
      exact ⟨h'', ht.fewer (by simp)⟩
    | failed e t =>
      obtain ⟨h'', ht⟩ := hmore
      exact ⟨h'', ht.fewer (by simp +contextual)⟩
    | stopped why => trivial

theorem flush_shared (fuel : Nat) (hs : s.Shared host vs) :
    (flush fuel s).Returns fun ws t => t.Shared host (vs ++ ws) := by
  have hdrain := drain_shared fuel true hs
  unfold flush
  cases hrun : s.drain fuel true with
  | done ws t =>
    rw [hrun] at hdrain
    simp only
    split
    · exact hdrain
    · obtain ⟨h', ht⟩ := hdrain
      exact ⟨h', ht.resetReader.fewer (by simp +contextual)⟩
  | failed e t =>
    rw [hrun] at hdrain
    exact hdrain
  | stopped why => trivial

theorem evalText_shared (fuel : Nat) (text : String) (hs : s.Shared host vs) :
    ((evalText fuel text s).map ([·])).Returns fun ws t => t.Shared host (vs ++ ws) := by
  obtain ⟨h, hs⟩ := hs
  have hreset := hs.resetReader
  unfold evalText
  simp only
  split
  · next e reader hread =>
    obtain ⟨h', hgrows, hreader, -⟩ := Reader.readAll_backed hreset.reader hread
    exact ⟨h', (hreset.read hgrows hreader.reset s.resetReader.stream).fewer (by simp)⟩
  · next exprs reader hread =>
    obtain ⟨h', hgrows, hreader, hexprs⟩ := Reader.readAll_backed hreset.reader hread
    have hs' := hreset.read hgrows hreader s.resetReader.stream
    have hrules := (steps_allocates s.keywords 0).rules hs'.plain
    refine onStore_shared hs' (hrules.evalBody (fun w env e => hrules.eval fuel w env e) trivial ?_)
    exact hexprs exprs rfl

theorem request_shared (fuel : Nat) (request : Request) (hs : s.Shared host vs) :
    (request.run fuel s).Returns fun ws t => t.Shared host (vs ++ ws) := by
  cases request with
  | evalText text =>
    rw [run_evalText]
    exact evalText_shared fuel text hs
  | feed text =>
    obtain ⟨h, hs⟩ := hs
    have hfed : Backed host h vs { s with stream := s.stream.push text } :=
      ⟨hs.host, hs.reader, hs.store, hs.quote, hs.plain, hs.returned⟩
    exact drain_shared fuel false ⟨h, hfed⟩
  | flush => exact flush_shared fuel hs
  | resetReader =>
    obtain ⟨h, hs⟩ := hs
    exact ⟨h, hs.resetReader.fewer (by simp)⟩

/-! ### All states -/

theorem start_shared {hosts : Nat → Host} {bind : Keywords → FrameId → Store → Store}
    (hplain : (start hosts bind).keywords.Plain)
    (hbind : ∀ k env (h : Heap) (s : Store), s.Backed 0 h → h.Later 0 ((bind k env s).Backed 0))
    (hstore : host.Free (.ofOwner 0)) (hreader : host.Free (.ofOwner 1)) :
    (start hosts bind).Shared host [] := by
  have hprimitive : host.Makes 0
      (.primitive (Supply.ofOwner 0).ident .quote, (Supply.ofOwner 0).rest) :=
    Heap.makes_leaf ⟨rfl, hstore⟩ rfl rfl
  obtain ⟨h, hgrows, hquote, hsupply⟩ := hprimitive
  have hempty : Store.Backed 0 h
      { Store.empty (Supply.ofOwner 0).rest with scopes := Scopes.empty.create.2 } :=
    ⟨hsupply, Scopes.allBound_empty.push none (by simp)⟩
  obtain ⟨h', hgrows', hbound⟩ := hbind
    (Keywords.intern (.empty 0) (.ofOwner 0) hosts).1 _ h _ hempty
  have hboth := hgrows.trans hgrows'
  have hready : h'.Ready 1 (.ofOwner 1) := Heap.Ready.later ⟨rfl, hreader⟩ hboth Nat.one_ne_zero
  exact ⟨h', hboth.keeps, ⟨hready, nofun, nofun⟩, hbound, hquote.later hgrows', hplain, nofun⟩

theorem core_shared {hosts : Nat → Host} (hplain : (coreWith hosts).keywords.Plain)
    (hstore : host.Free (.ofOwner 0)) (hreader : host.Free (.ofOwner 1)) :
    (coreWith hosts).Shared host [] :=
  start_shared hplain (fun _ env _ _ hs => Store.bindPrimitives_backed env _ hs) hstore hreader

theorem standard_shared {hosts : Nat → Host} (hplain : (standardWith hosts).keywords.Plain)
    (hstore : host.Free (.ofOwner 0)) (hreader : host.Free (.ofOwner 1)) :
    (standardWith hosts).Shared host [] := by
  refine start_shared hplain (fun k env h s hs => ?_) hstore hreader
  have hcore : h.Later 0 ((s.bindCore env).Backed 0) := Store.bindPrimitives_backed env _ hs
  exact hcore.bind fun h' _ hcore => Store.bindStandard_backed k env hcore

theorem build_shared {make : Supply → Value × Supply} (hs : s.Backed host h vs)
    (hmake : ∀ supply : Supply, supply.Builds h.Has (make supply)) :
    (s.build make).2.Shared host (vs ++ [(s.build make).1]) := by
  have hmakes := Heap.makes_built hs.store.ready (fun _ hv => hv) (hmake s.store.supply)
  obtain ⟨h', hgrows, hv, hsupply⟩ := hmakes
  have hstore : Store.Backed 0 h' (s.store.build make).2 :=
    ⟨hsupply, hs.store.bound.imp fun _ hv => hv.later hgrows⟩
  exact ⟨h', (hs.evaluated hgrows hstore).returning hv⟩

theorem Hosted.shared (hstore : host.Free (.ofOwner 0)) (hreader : host.Free (.ofOwner 1))
    (hs : Hosted host vs s) : s.Shared host vs := by
  induction hs with
  | start hosts plain => exact standard_shared plain hstore hreader
  | core hosts plain => exact core_shared plain hstore hreader
  | register _ f may ih =>
    obtain ⟨h, hs⟩ := ih
    exact ⟨h, hs.register (may.imp fun _ hv => hs.known hv)⟩
  | build _ make may ih =>
    obtain ⟨h, hs⟩ := ih
    exact build_shared hs fun supply => (may supply).imp fun _ hv => hs.known hv
  | bind _ name may ih =>
    obtain ⟨h, hs⟩ := ih
    exact ⟨h, hs.set (hs.known may) name⟩
  | intern _ name ih =>
    obtain ⟨h, hs⟩ := ih
    exact ⟨h, hs.intern name⟩
  | takePrinted _ ih =>
    obtain ⟨h, hs⟩ := ih
    exact ⟨h, hs.takePrinted⟩
  | read _ final run ih => exact read_shared ih run
  | valued _ fuel may run ih =>
    have hstep := eval_shared fuel ih may
    rw [run] at hstep
    exact hstep
  | @unvalued vs _ _ _ _ fuel _ may run ih =>
    have hstep := eval_shared fuel ih may
    rw [run] at hstep
    exact List.append_nil vs ▸ hstep
  | done _ fuel request run ih =>
    have hstep := request_shared fuel request ih
    rw [run] at hstep
    exact hstep
  | @failed vs _ _ _ _ fuel request run ih =>
    have hstep := request_shared fuel request ih
    rw [run] at hstep
    exact List.append_nil vs ▸ hstep

/-- The laws of equality hold among all values in a session, in every state that the session and its
host can get into, if the session is the only one to use the identities of its supplies. -/
theorem equalityLaws_of_hosted (hstore : host.Free (.ofOwner 0)) (hreader : host.Free (.ofOwner 1))
    (hs : Hosted host vs s) : Value.EqualityLaws (Occurs vs s) := by
  obtain ⟨h, hbacked⟩ := hs.shared hstore hreader
  exact Heap.equalityLaws fun v hv => hbacked.occurs hv

/-- A session whose host has bound an extension of its own and has a factory that gives it again and
again, next to a factory for strings.  Two lists in it have the same end, with what is no number in it;
they are equal, although a comparison throughout would tell them apart. -/
theorem equalityLaws_of_hosted_nan :
    let host := Heap.single (.extension ⟨2, 0⟩ ⟨"color", "red", "#<color red>"⟩)
    ∃ vs s a b, host.Free (.ofOwner 0) ∧ host.Free (.ofOwner 1) ∧ Hosted host vs s ∧
      vs.map Value.inspect =
        ["l", "((a NaN #<color red>) (a NaN #<color red>) \"x\" #<color red>)"] ∧
      Occurs vs s a ∧ Occurs vs s b ∧ a.same b = false ∧ a.equal b = true ∧
      a.equalThroughout b = false ∧ Value.EqualityLaws (Occurs vs s) := by
  intro host
  have hfed : ((feed 12 "(define l (list (- 1e999 1e999) red))
        (list (cons 'a l) (cons 'a l) $x color) ('b "
      (((standard.set "color" (.extension ⟨2, 0⟩ ⟨"color", "red", "#<color red>"⟩)).register
        (Factory.constant "red" (.extension ⟨2, 0⟩ ⟨"color", "red", "#<color red>"⟩))).register
        (Factory.ofLead "$" "string"))).result?.any fun result =>
        result.1.map Value.inspect ==
            ["l", "((a NaN #<color red>) (a NaN #<color red>) \"x\" #<color red>)"] &&
          result.1.any fun v => v.elements.any fun a => v.elements.any fun b =>
            !a.same b && a.equal b && !a.equalThroughout b) = true := by
    decide +kernel
  obtain ⟨⟨vs, s⟩, hresult, hstate⟩ := (Option.any_eq_true _ _).1 hfed
  have hhas : host.Has (.extension ⟨2, 0⟩ ⟨"color", "red", "#<color red>"⟩) := Heap.has_single rfl
  have hplain : standard.keywords.Plain := fun _ => Host.plain_echo _
  have hhosted : Hosted host vs s := by
    refine .done (.register (.register (.bind (.start _ hplain) "color" (.inl hhas)) _ ?_) _ ?_)
      12 (.feed _) (Outcome.eq_done_of_result? hresult)
    · exact Factory.builds_constant (List.forall_mem_singleton.2 (.inl (.inl hhas)))
    · exact Factory.builds_ofLead _ "$" "string"
  have hfree : ∀ owner ≠ 2, host.Free (.ofOwner owner) := by
    intro owner howner
    refine Heap.free_single fun i hi => ?_
    obtain rfl := Option.some.inj hi
    exact howner.symm
  have hstore := hfree 0 (by decide)
  have hreader := hfree 1 (by decide)
  simp only [Bool.and_eq_true, beq_iff_eq, List.any_eq_true, Bool.not_eq_true'] at hstate
  obtain ⟨hvalues, v, hv, a, ha, b, hb, ⟨hsame, hequal⟩, hthroughout⟩ := hstate
  exact ⟨vs, s, a, b, hstore, hreader, hhosted, hvalues,
    .returned hv (Value.mem_parts_of_elements ha), .returned hv (Value.mem_parts_of_elements hb),
    hsame, hequal, hthroughout, equalityLaws_of_hosted hstore hreader hhosted⟩

end Session

end Lisplet
