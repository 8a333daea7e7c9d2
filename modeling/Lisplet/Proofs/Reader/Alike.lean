import Lisplet.Proofs.Reader.Pieces

/-! Readers that differ only in what no text shows.  `Value.bare` forgets the identities in a datum
and the places of its symbols.  Two readers without factories that have begun the same, up to that,
take every token alike, and so make the same datums, up to that, of every text. -/

namespace Lisplet

namespace Value

/-- The value with its structure only: its pairs, texts and extensions have no identity of their
own, and its symbols have their names and no place.  A procedure stays what it is. -/
def bare : Value → Value
  | .pair _ head tail => .pair ⟨0, 0⟩ head.bare tail.bare
  | .symbol s => .symbol ⟨0, 0, s.name⟩
  | .string _ text => .string ⟨0, 0⟩ text
  | .extension _ e => .extension ⟨0, 0⟩ e
  | v => v

theorem bare_list (vs : List Value) (s : Supply) :
    (list vs s).1.bare = (vs.map bare).foldr (.pair ⟨0, 0⟩) .nil := by
  induction vs with
  | nil => rfl
  | cons v vs ih => simp only [list_cons, bare, ih, List.map_cons, List.foldr_cons]

theorem bare_wrap (s : Symbol) (datum : Value) (supply : Supply) :
    (wrap s datum supply).1.bare =
      .pair ⟨0, 0⟩ (.symbol ⟨0, 0, s.name⟩) (.pair ⟨0, 0⟩ datum.bare .nil) :=
  bare_list [.symbol s, datum] supply

end Value

/-- What has begun, with the structure of its datums only. -/
def Context.bare : Context → Context
  | .list items => .list (items.map Value.bare)
  | .quote kind => .quote kind

namespace Reader

/-- A reader that no factory was added to, with reserved symbols of the reserved names. -/
structure Plain (r : Reader) : Prop where
  factories : r.factories = []
  quotes : ∀ kind, (r.quotes.get kind).name = kind.name

theorem plain_ofTable (table : SymbolTable) (supply : Supply) : (ofTable table supply).Plain := by
  refine ⟨rfl, fun kind => ?_⟩
  cases kind <;> exact SymbolTable.intern_fst_name _ _

/-- Two readers that have begun the same. -/
structure Alike (r r' : Reader) : Prop where
  left : r.Plain
  right : r'.Plain
  stack : r.stack.map Context.bare = r'.stack.map Context.bare
  pending : r.pending = r'.pending
  failed : r.failed = r'.failed

theorem Plain.alike {r : Reader} (h : r.Plain) : Alike r r := ⟨h, h, rfl, rfl, rfl⟩

theorem Alike.quotes {r r' : Reader} (h : r.Alike r') (kind : QuoteKind) :
    (r.quotes.get kind).name = (r'.quotes.get kind).name :=
  (h.left.quotes kind).trans (h.right.quotes kind).symm

/-- Alike readers stay so when what they have begun changes in the same way, whatever becomes of
their tables and supplies. -/
theorem Alike.update {r r' : Reader} (h : r.Alike r') {stack stack' : List Context}
    {pending pending' : Option Pending} {failed failed' : Bool} {table table' : SymbolTable}
    {supply supply' : Supply} (hstack : stack.map Context.bare = stack'.map Context.bare)
    (hpending : pending = pending') (hfailed : failed = failed') :
    Alike { r with stack, pending, failed, table, supply }
      { r' with stack := stack', pending := pending', failed := failed', table := table',
                supply := supply' } :=
  ⟨⟨h.left.1, h.left.2⟩, ⟨h.right.1, h.right.2⟩, hstack, hpending, hfailed⟩

theorem alike_ofTable (table table' : SymbolTable) (supply supply' : Supply) :
    Alike (ofTable table supply) (ofTable table' supply') :=
  ⟨plain_ofTable _ _, plain_ofTable _ _, rfl, rfl, rfl⟩

end Reader

inductive Accepted.Alike : Accepted → Accepted → Prop
  | refused {r r' : Reader} (fault : Fault) (reader : r.Alike r') :
      Alike (.refused fault r) (.refused fault r')
  | ongoing {r r' : Reader} (reader : r.Alike r') : Alike (.ongoing r) (.ongoing r')
  | datum {r r' : Reader} {v v' : Value} (value : v.bare = v'.bare) (reader : r.Alike r') :
      Alike (.datum v r) (.datum v' r')

/-- Two readings came to the same end. -/
inductive Reading.Alike : Reading → Reading → Prop
  | datum {r r' : Reader} {v v' : Value} (rest : List Char) (value : v.bare = v'.bare)
      (reader : r.Alike r') : Alike ⟨r, rest, .ok (some v)⟩ ⟨r', rest, .ok (some v')⟩
  | nothing {r r' : Reader} (rest : List Char) (reader : r.Alike r') :
      Alike ⟨r, rest, .ok none⟩ ⟨r', rest, .ok none⟩
  | fault {r r' : Reader} (rest : List Char) (fault : Fault) (reader : r.Alike r') :
      Alike ⟨r, rest, .error fault⟩ ⟨r', rest, .error fault⟩

structure Datums.Alike (a b : Datums) : Prop where
  values : a.values.map Value.bare = b.values.map Value.bare
  reader : a.reader.Alike b.reader
  rest : a.rest = b.rest
  fault? : a.fault? = b.fault?

namespace Reader

/-! ### Tokens -/

/-- A datum goes to the same place of two stacks that have begun the same. -/
theorem place_alike {q q' : QuoteSymbols}
    (hquotes : ∀ kind, (q.get kind).name = (q'.get kind).name) {stack stack' : List Context}
    (hstack : stack.map Context.bare = stack'.map Context.bare) {v v' : Value}
    (hv : v.bare = v'.bare) (s s' : Supply) :
    (place q v s stack).1.map Value.bare = (place q' v' s' stack').1.map Value.bare ∧
      (place q v s stack).2.1.map Context.bare = (place q' v' s' stack').2.1.map Context.bare := by
  induction stack generalizing stack' v v' s s' with
  | nil =>
    cases stack' with
    | nil => exact ⟨congrArg some hv, rfl⟩
    | cons c' stack' => cases hstack
  | cons c stack ih =>
    cases stack' with
    | nil => cases hstack
    | cons c' stack' =>
      obtain ⟨hc, houter⟩ := List.cons.inj hstack
      cases c with
      | list items =>
        cases c' with
        | quote kind' => cases hc
        | list items' =>
          have hitems := Context.list.inj hc
          refine ⟨rfl, ?_⟩
          simp only [place, List.map_cons, Context.bare, hv, hitems, houter]
      | quote kind =>
        cases c' with
        | list items' => cases hc
        | quote kind' =>
          obtain rfl := Context.quote.inj hc
          have hform : (Value.wrap (q.get kind) v s).1.bare =
              (Value.wrap (q'.get kind) v' s').1.bare := by
            rw [Value.bare_wrap, Value.bare_wrap, hquotes, hv]
          exact ih houter hform _ _

variable {r r' : Reader}

theorem attach_alike (h : r.Alike r') {v v' : Value} (hv : v.bare = v'.bare) :
    (r.attach v).Alike (r'.attach v') := by
  obtain ⟨hdatum, hstack⟩ := place_alike h.quotes h.stack hv r.supply r'.supply
  simp only [attach]
  generalize place r.quotes v r.supply r.stack = p at hdatum hstack
  generalize place r'.quotes v' r'.supply r'.stack = p' at hdatum hstack
  obtain ⟨_ | w, stack, s⟩ := p <;> obtain ⟨_ | w', stack', s'⟩ := p'
  case none.none => exact .ongoing (h.update hstack h.pending h.failed)
  case none.some => cases hdatum
  case some.none => cases hdatum
  case some.some => exact .datum (Option.some.inj hdatum) (h.update hstack h.pending h.failed)

/-- An atom stands for the same number, or for a symbol of the same name. -/
theorem atom_alike (h : r.Alike r') (text : String) :
    (r.atom text).1.bare = (r'.atom text).1.bare ∧ (r.atom text).2.Alike (r'.atom text).2 := by
  have hnone : r.factories.findSome? (· text) = none := by rw [h.left.factories]; rfl
  have hnone' : r'.factories.findSome? (· text) = none := by rw [h.right.factories]; rfl
  simp only [atom, hnone, hnone']
  cases Number.ofAtom? text.toList with
  | some n => exact ⟨rfl, h⟩
  | none =>
    refine ⟨?_, h.update h.stack h.pending h.failed⟩
    simp only [Value.bare, SymbolTable.intern_fst_name]

theorem accept_alike (h : r.Alike r') (t : Token) : (r.accept t).Alike (r'.accept t) := by
  cases t with
  | openList => exact .ongoing (h.update (congrArg (List.cons _) h.stack) h.pending h.failed)
  | quote kind => exact .ongoing (h.update (congrArg (List.cons _) h.stack) h.pending h.failed)
  | string text =>
    simp only [accept]
    exact attach_alike (h.update h.stack h.pending h.failed) rfl
  | atom text =>
    obtain ⟨hvalue, hreader⟩ := atom_alike h text
    exact attach_alike hreader hvalue
  | closeList =>
    have hstack := h.stack
    simp only [accept]
    rcases hs : r.stack with _ | ⟨items | kind, stack⟩ <;>
      rcases hs' : r'.stack with _ | ⟨items' | kind', stack'⟩ <;>
      rw [hs, hs'] at hstack
    case nil.nil => exact .refused _ (h.update rfl h.pending rfl)
    case cons.list.cons.list =>
      obtain ⟨hitems, houter⟩ := List.cons.inj hstack
      refine attach_alike (h.update houter h.pending h.failed) ?_
      rw [Value.bare_list, Value.bare_list, List.map_reverse, List.map_reverse,
        Context.list.inj hitems]
    case cons.quote.cons.quote =>
      obtain ⟨hkind, houter⟩ := List.cons.inj hstack
      obtain rfl := Context.quote.inj hkind
      exact .refused _ (h.update houter h.pending rfl)
    all_goals cases hstack

/-! ### Texts -/

theorem readFrom_alike (h : r.Alike r') (final : Bool) (cs : List Char) :
    (r.readFrom final cs).Alike (r'.readFrom final cs) := by
  -- Both find the same tokens, so all that can differ is what a token leads to.
  fun_induction readFrom final r cs generalizing r' with
  | case1 r cs hscan =>
    rw [readFrom_eq, hscan]
    exact .nothing _ h
  | case2 r cs here hscan | case3 r cs here hscan =>
    rw [readFrom_eq, hscan]
    exact .nothing _ (h.update h.stack rfl h.failed)
  | case4 r cs here hscan =>
    rw [readFrom_eq, hscan]
    exact .fault _ _ (h.update h.stack h.pending rfl)
  | case5 r cs t here rest hscan fault r₁ hacc =>
    have htoken := accept_alike h t
    rw [hacc] at htoken
    rw [readFrom_eq final r', hscan]
    dsimp only
    generalize r'.accept t = a at htoken ⊢
    cases htoken with
    | refused _ hreader => exact .fault _ _ hreader
  | case6 r cs t here rest hscan r₁ hacc ih =>
    have htoken := accept_alike h t
    rw [hacc] at htoken
    rw [readFrom_eq final r', hscan]
    dsimp only
    generalize r'.accept t = a at htoken ⊢
    cases htoken with
    | ongoing hreader => exact ih hreader
  | case7 r cs t here rest hscan v r₁ hacc =>
    have htoken := accept_alike h t
    rw [hacc] at htoken
    rw [readFrom_eq final r', hscan]
    dsimp only
    generalize r'.accept t = a at htoken ⊢
    cases htoken with
    | datum hvalue hreader => exact .datum _ hvalue hreader

theorem readChars_alike (h : r.Alike r') (final : Bool) (cs : List Char) :
    (r.readChars final cs).Alike (r'.readChars final cs) :=
  readFrom_alike (h.update h.stack rfl h.failed) final cs

/-- Alike readers read the same datums and stop at the same place for the same reason. -/
theorem readMany_alike (h : r.Alike r') (final : Bool) (cs : List Char) :
    (r.readMany final cs).Alike (r'.readMany final cs) := by
  fun_induction readMany final r cs generalizing r' with
  | case1 r cs r₁ rest v hfirst =>
    rename_i ih
    have hread := readChars_alike h final cs
    rw [hfirst] at hread
    rw [readMany_eq final r']
    generalize r'.readChars final cs = b at hread ⊢
    cases hread with
    | datum _ hvalue hreader =>
      have hmore := ih hreader
      refine ⟨?_, hmore.reader, hmore.rest, hmore.fault?⟩
      rw [List.map_cons, List.map_cons, hvalue, hmore.values]
  | case2 r cs r₁ rest hfirst =>
    have hread := readChars_alike h final cs
    rw [hfirst] at hread
    rw [readMany_eq final r']
    generalize r'.readChars final cs = b at hread ⊢
    cases hread with
    | nothing _ hreader => exact ⟨rfl, hreader, rfl, rfl⟩
  | case3 r cs r₁ rest fault hfirst =>
    have hread := readChars_alike h final cs
    rw [hfirst] at hread
    rw [readMany_eq final r']
    generalize r'.readChars final cs = b at hread ⊢
    cases hread with
    | fault _ _ hreader => exact ⟨rfl, hreader, rfl, rfl⟩

theorem openLists_bare (r : Reader) :
    { r with stack := r.stack.map Context.bare }.openLists = r.openLists := by
  simp only [openLists, List.countP_map]
  congr 1
  funext c
  cases c <;> rfl

theorem missing?_alike (h : r.Alike r') : r.missing? = r'.missing? := by
  have hstack := h.stack
  have hlists : r.openLists = r'.openLists := by
    rw [← openLists_bare r, ← openLists_bare r', hstack]
    rfl
  simp only [missing?, h.pending, hlists]
  rcases hs : r.stack with _ | ⟨items | kind, stack⟩ <;>
    rcases hs' : r'.stack with _ | ⟨items' | kind', stack'⟩ <;>
    rw [hs, hs'] at hstack
  case cons.quote.cons.quote =>
    obtain ⟨hkind, -⟩ := List.cons.inj hstack
    rw [Context.quote.inj hkind]
  all_goals first | rfl | cases hstack

end Reader

end Lisplet
