import Lisplet.Proofs.Evaluate.Bound
import Lisplet.Proofs.Evaluate.Containment
import Lisplet.Proofs.Reader.Contents
import Lisplet.Proofs.Session.Requests

/-! The values in a session: those it has returned, those bound in its frames and those in the lists
that it has begun to read, with all their parts.  `Reached.keeps` is how to show something of each of
them in every state: they are all of a `Lasting` kind, whatever was asked of the session, as long as
what the factories make is of it.  `Reached.holds` says so of an invariant of all parts. -/

namespace Lisplet

theorem SymbolTable.extends_quotes (t : SymbolTable) : t.Extends (QuoteSymbols.intern t).2 := by
  simp only [QuoteSymbols.intern]
  iterate 3 refine .trans ?_ (extends_intern _ _)
  exact extends_intern _ _

theorem Keywords.interned_intern (t : SymbolTable) (supply : Supply) (hosts : Nat → Host) :
    (Keywords.intern t supply hosts).1.Interned (Keywords.intern t supply hosts).2.1 where
  reserved kind := SymbolTable.extends_intern _ _ _ _ (Reader.reserved_ofTable t supply kind)
  truth := SymbolTable.lookup_intern_self _ _

theorem Store.allBound_bindPrimitives {P : Value → Prop} (hP : ∀ id p, P (.primitive id p))
    (env : FrameId) (ps : List Primitive) {s : Store} (h : s.scopes.AllBound P) :
    (s.bindPrimitives env ps).scopes.AllBound P := by
  induction ps generalizing s with
  | nil => exact h
  | cons p ps ih => exact ih (h.set (hP _ p) env p.name)

theorem Store.size_bindPrimitives (env : FrameId) (ps : List Primitive) (s : Store) :
    (s.bindPrimitives env ps).scopes.frames.size = s.scopes.frames.size := by
  induction ps generalizing s with
  | nil => rfl
  | cons p ps ih => exact (ih _).trans (Scopes.size_set ..)

/-- A kind of values to which sessions keep: all values that are read belong to it, and so do the
procedures that a session starts with and whatever evaluation binds and gives.  It may depend on the
table and on the number of frames, which both grow. -/
structure Lasting (P : SymbolTable → Nat → Value → Prop) : Prop where
  readable : ∀ n, Readable fun t => P t n
  larger : ∀ {t n n' v}, n ≤ n' → P t n v → P t n' v
  primitive : ∀ t n id p, P t n (.primitive id p)
  eval : ∀ {k : Keywords} {t : SymbolTable}, k.Interned t → k.Plain → ∀ (fuel : Nat)
    {env : FrameId} {expr : Value} {s : Store}, env < s.scopes.frames.size →
    s.scopes.AllBound (P t s.scopes.frames.size) → P t s.scopes.frames.size expr →
    (Lisplet.eval k fuel env expr s).EndsWith (fun v u => P t u.scopes.frames.size v) fun u =>
      s.scopes.frames.size ≤ u.scopes.frames.size ∧ u.scopes.AllBound (P t u.scopes.frames.size)

theorem Invariant.lasting {N : SymbolTable → Value → Prop} (hN : Invariant N) :
    Lasting fun t _ => Value.All (N t) where
  readable _ := hN.readable
  larger _ h := h
  primitive _ _ _ _ := Value.all_leaf hN rfl rfl rfl
  eval {k t} hk hplain fuel {env expr s} _ hbound hexpr := by
    have hends := ((steps_bound hN hk).rules hplain).eval fuel () env expr trivial hexpr s hbound
    have hkept := confined_eval (confinedRules_of_plain hplain) fuel s.scopes.frames.size env expr s
      (Nat.le_refl _)
    cases hrun : Lisplet.eval k fuel env expr s with
    | done v u =>
      rw [hrun] at hends hkept
      exact ⟨hends.1, hkept.size, hends.2⟩
    | failed e u =>
      rw [hrun] at hends hkept
      exact ⟨hkept.size, hends⟩
    | stopped why => trivial

theorem Lasting.evalBody {P : SymbolTable → Nat → Value → Prop} (hP : Lasting P) {k : Keywords}
    {t : SymbolTable} (hk : k.Interned t) (hplain : k.Plain) (fuel : Nat) {env : FrameId}
    {exprs : List Value} {s : Store} (henv : env < s.scopes.frames.size)
    (hbound : s.scopes.AllBound (P t s.scopes.frames.size))
    (hexprs : ∀ e ∈ exprs, P t s.scopes.frames.size e) :
    (Lisplet.evalBody (Lisplet.eval k fuel) env exprs s).EndsWith
      (fun v u => P t u.scopes.frames.size v) fun u =>
        s.scopes.frames.size ≤ u.scopes.frames.size ∧
          u.scopes.AllBound (P t u.scopes.frames.size) := by
  induction exprs generalizing s with
  | nil => exact ⟨(hP.readable _).nil t, Nat.le_refl _, hbound⟩
  | cons e es ih =>
    obtain ⟨he, hes⟩ := List.forall_mem_cons.1 hexprs
    have hfirst := hP.eval hk hplain fuel henv hbound he
    cases es with
    | nil => exact hfirst
    | cons e' es =>
      show Outcome.EndsWith _ _ ((Lisplet.eval k fuel env e >>= fun _ =>
        Lisplet.evalBody (Lisplet.eval k fuel) env (e' :: es)) s)
      cases hrun : Lisplet.eval k fuel env e s with
      | failed error u =>
        rw [hrun] at hfirst
        rw [Run.bind_failed hrun]
        exact hfirst
      | stopped why =>
        rw [Run.bind_stopped hrun]
        trivial
      | done v u =>
        rw [hrun] at hfirst
        obtain ⟨-, hsize, hbound'⟩ := hfirst
        rw [Run.bind_done hrun]
        have hmore := ih (Nat.lt_of_lt_of_le henv hsize) hbound'
          fun e he => hP.larger hsize (hes e he)
        cases hrest : Lisplet.evalBody (Lisplet.eval k fuel) env (e' :: es) u with
        | done w u' =>
          rw [hrest] at hmore
          exact ⟨hmore.1, Nat.le_trans hsize hmore.2.1, hmore.2.2⟩
        | failed error u' =>
          rw [hrest] at hmore
          exact ⟨Nat.le_trans hsize hmore.1, hmore.2⟩
        | stopped why => trivial

namespace Session

/-- The values in a session that has returned `vs`, at every depth. -/
inductive Occurs (vs : List Value) (s : Session) : Value → Prop
  | returned {v w : Value} (value : v ∈ vs) (part : w ∈ v.parts) : Occurs vs s w
  | bound {f : FrameId} {name : String} {v w : Value} (value : s.store.scopes.get? f name = some v)
      (part : w ∈ v.parts) : Occurs vs s w
  | begun {items : List Value} {v w : Value} (list : .list items ∈ s.reader.stack)
      (value : v ∈ items) (part : w ∈ v.parts) : Occurs vs s w

/-- All values in a session that has returned `vs` are of the kind, and what the session makes values
of is fit for that. -/
structure Holds (P : SymbolTable → Nat → Value → Prop) (vs : List Value) (s : Session) : Prop where
  reader : s.reader.Holds (fun t => P t s.store.scopes.frames.size) s.reader.table
  keywords : s.keywords.Interned s.reader.table
  plain : s.keywords.Plain
  global : s.global < s.store.scopes.frames.size
  bound : s.store.scopes.AllBound (P s.reader.table s.store.scopes.frames.size)
  returned : ∀ v ∈ vs, P s.reader.table s.store.scopes.frames.size v

theorem Holds.occurs {N : SymbolTable → Value → Prop} {vs : List Value} {s : Session} {w : Value}
    (h : s.Holds (fun t _ => Value.All (N t)) vs) (hw : Occurs vs s w) :
    w.All (N s.reader.table) := by
  cases hw with
  | returned value part => exact (h.returned _ value).part part
  | bound value part => exact (h.bound _ _ _ value).part part
  | begun list value part => exact (h.reader.items _ list _ value).part part

variable {P : SymbolTable → Nat → Value → Prop} {vs : List Value} {s : Session}

theorem Holds.fewer {ws : List Value} (h : s.Holds P vs) (hws : ∀ v ∈ ws, v ∈ vs) :
    s.Holds P ws := 
  ⟨h.reader, h.keywords, h.plain, h.global, h.bound, fun v hv => h.returned v (hws v hv)⟩

theorem Holds.returning {v : Value} (h : s.Holds P vs)
    (hv : P s.reader.table s.store.scopes.frames.size v) : s.Holds P (vs ++ [v]) :=
  ⟨h.reader, h.keywords, h.plain, h.global, h.bound,
    List.forall_mem_append.2 ⟨h.returned, List.forall_mem_singleton.2 hv⟩⟩

theorem Holds.resetReader (h : s.Holds P vs) : s.resetReader.Holds P vs :=
  ⟨h.reader.reset, h.keywords, h.plain, h.global, h.bound, h.returned⟩

theorem Holds.register (h : s.Holds P vs) {f : Factory}
    (hf : f.Makes (P s.reader.table s.store.scopes.frames.size)) : (s.register f).Holds P vs :=
  ⟨h.reader.register hf, h.keywords, h.plain, h.global, h.bound, h.returned⟩

variable (hP : Lasting P)

include hP

/-! ### Reading and evaluating -/

/-- What holds of the values so far still holds when the table has gained names. -/
theorem Holds.read {reader : Reader} (h : s.Holds P vs)
    (hreader : reader.Holds (fun t => P t s.store.scopes.frames.size) s.reader.table)
    (stream : Stream) : Holds P vs { s with reader, stream } :=
  ⟨hreader.now, h.keywords.later hreader.grown, h.plain, h.global,
    h.bound.imp fun _ hv => (hP.readable _).later hreader.grown hv,
    fun v hv => (hP.readable _).later hreader.grown (h.returned v hv)⟩

/-- And also when there are more frames. -/
theorem Holds.evaluated {store : Store} (h : s.Holds P vs)
    (hstore : s.store.scopes.frames.size ≤ store.scopes.frames.size ∧
      store.scopes.AllBound (P s.reader.table store.scopes.frames.size)) :
    Holds P vs { s with store } :=
  ⟨h.reader.imp fun _ hv => hP.larger hstore.1 hv, h.keywords, h.plain,
    Nat.lt_of_lt_of_le h.global hstore.1, hstore.2,
    fun v hv => hP.larger hstore.1 (h.returned v hv)⟩

theorem onStore_holds {x : Eval Value} (h : s.Holds P vs)
    (hx : (x s.store).EndsWith (fun v u => P s.reader.table u.scopes.frames.size v) fun u =>
      s.store.scopes.frames.size ≤ u.scopes.frames.size ∧
        u.scopes.AllBound (P s.reader.table u.scopes.frames.size)) :
    ((onStore x s).map ([·])).Returns fun ws t => t.Holds P (vs ++ ws) := by
  unfold onStore
  split
  · next v store hrun =>
    rw [hrun] at hx
    exact (h.evaluated hP hx.2).returning hx.1
  · next e store hrun =>
    rw [hrun] at hx
    exact (h.evaluated hP hx).fewer (by simp)
  · trivial

theorem drain_holds (fuel : Nat) (final : Bool) (h : s.Holds P vs) :
    (s.drain fuel final).Returns fun ws t => t.Holds P (vs ++ ws) := by
  refine drain_induct
    (P := fun s o => ∀ vs, s.Holds P vs → o.Returns fun ws t => t.Holds P (vs ++ ws))
    ?unread ?nothing ?stopped ?unvalued ?datum s vs h
  case unread =>
    intro s e reader stream hread vs h
    have hreader := (Reader.read_holds (hP.readable _) h.reader hread).1
    exact (h.read hP hreader stream).resetReader.fewer (by simp)
  case nothing =>
    intro s reader stream hread vs h
    have hreader := (Reader.read_holds (hP.readable _) h.reader hread).1
    exact (h.read hP hreader stream).fewer (by simp)
  case stopped => exact fun _ _ _ _ _ _ _ _ _ => trivial
  case unvalued =>
    intro s expr reader stream e store hread heval vs h
    obtain ⟨hreader, hexpr⟩ := Reader.read_holds (hP.readable _) h.reader hread
    have hs := h.read hP hreader stream
    have hends := hP.eval hs.keywords hs.plain fuel hs.global hs.bound (hexpr expr rfl)
    rw [heval] at hends
    exact (hs.evaluated hP hends).resetReader.fewer (by simp)
  case datum =>
    intro s expr reader stream v store rest hread heval hrest vs h
    obtain ⟨hreader, hexpr⟩ := Reader.read_holds (hP.readable _) h.reader hread
    have hs := h.read hP hreader stream
    have hends := hP.eval hs.keywords hs.plain fuel hs.global hs.bound (hexpr expr rfl)
    rw [heval] at hends
    -- The value counts as returned while the rest is drained, which may make the table grow.
    have hmore := hrest (vs ++ [v]) ((hs.evaluated hP hends.2).returning hends.1)
    cases rest with
    | done ws t => exact hmore.fewer (by simp)
    | failed e t => exact hmore.fewer (by simp +contextual)
    | stopped why => trivial

theorem flush_holds (fuel : Nat) (h : s.Holds P vs) :
    (flush fuel s).Returns fun ws t => t.Holds P (vs ++ ws) := by
  have hdrain := drain_holds hP fuel true h
  unfold flush
  cases hrun : s.drain fuel true with
  | done ws t =>
    rw [hrun] at hdrain
    simp only
    split
    · exact hdrain
    · exact hdrain.resetReader.fewer (by simp +contextual)
  | failed e t =>
    rw [hrun] at hdrain
    exact hdrain
  | stopped why => trivial

theorem evalText_holds (fuel : Nat) (text : String) (h : s.Holds P vs) :
    ((evalText fuel text s).map ([·])).Returns fun ws t => t.Holds P (vs ++ ws) := by
  unfold evalText
  simp only
  split
  · next e reader hread =>
    obtain ⟨hreader, -⟩ := Reader.readAll_holds (hP.readable _) h.resetReader.reader hread
    have hs := h.resetReader.read hP hreader.reset s.resetReader.stream
    exact hs.fewer (by simp)
  · next exprs reader hread =>
    obtain ⟨hreader, hexprs⟩ := Reader.readAll_holds (hP.readable _) h.resetReader.reader hread
    have hs := h.resetReader.read hP hreader s.resetReader.stream
    exact onStore_holds hP hs
      (hP.evalBody hs.keywords hs.plain fuel hs.global hs.bound (hexprs exprs rfl))

theorem request_holds (fuel : Nat) (request : Request) (h : s.Holds P vs) :
    (request.run fuel s).Returns fun ws t => t.Holds P (vs ++ ws) := by
  cases request with
  | evalText text =>
    rw [run_evalText]
    exact evalText_holds hP fuel text h
  | feed text =>
    have hfed : Holds P vs { s with stream := s.stream.push text } :=
      ⟨h.reader, h.keywords, h.plain, h.global, h.bound, h.returned⟩
    exact drain_holds hP fuel false hfed
  | flush => exact flush_holds hP fuel h
  | resetReader => exact h.resetReader.fewer (by simp)

/-! ### All states -/

theorem standard_holds (hosts : Nat → Host) (hplain : (standardWith hosts).keywords.Plain) :
    (standardWith hosts).Holds P [] := by
  have hkeywords := (Keywords.interned_intern (.empty 0) (.ofOwner 0) hosts).later
    (SymbolTable.extends_quotes _)
  have hsize : (standardWith hosts).store.scopes.frames.size = 1 := by
    simp only [standardWith, start, Store.bindStandard, Store.bindCore, Scopes.size_set,
      Store.size_bindPrimitives]
    rfl
  have hprimitive : ∀ id p, P (standardWith hosts).reader.table
      (standardWith hosts).store.scopes.frames.size (.primitive id p) := hP.primitive _ _
  refine ⟨⟨.refl _, Reader.reserved_ofTable _ _, nofun, nofun⟩, hkeywords, hplain, ?_, ?_, nofun⟩
  · rw [hsize]
    exact Nat.zero_lt_one
  refine .set (.set ?_ ((hP.readable _).nil _) _ "nil") ?_ _ "t"
  · refine Store.allBound_bindPrimitives hprimitive _ _ ?_
    refine Store.allBound_bindPrimitives hprimitive _ _ ?_
    exact Scopes.allBound_empty.push none (by simp)
  · exact (hP.readable _).symbol hkeywords.truth

/-- If what the factories make is of a lasting kind, then so are all values in a session, in every
state. -/
theorem Reached.keeps
    (h : Reached (fun s f => f.Makes (P s.reader.table s.store.scopes.frames.size)) vs s) :
    s.Holds P vs :=
  Reached.induct (standard_holds hP) (fun _ _ _ hs hf => hs.register hf)
    (fun _ _ fuel request hs => request_holds hP fuel request hs) h

omit hP in
/-- An invariant that holds of what the factories make holds of all values in a session, in every
state. -/
theorem Reached.holds {N : SymbolTable → Value → Prop} (hN : Invariant N)
    (h : Reached (fun s f => f.Makes (Value.All (N s.reader.table))) vs s) :
    s.Holds (fun t _ => Value.All (N t)) vs :=
  Reached.keeps hN.lasting h

end Session

end Lisplet
