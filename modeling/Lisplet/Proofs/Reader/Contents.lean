import Lisplet.Proofs.Reader.Step
import Lisplet.Proofs.Value.Parts

/-! What a reader holds and gives.  A reader whose open lists and factories have nothing in them but
values of a `Readable` kind keeps this up, token after token, and gives only such values. -/

namespace Lisplet

/-- All values that the factory makes have the property. -/
def Factory.Makes (P : Value → Prop) (f : Factory) : Prop :=
  ∀ text make, f text = some make → ∀ supply, P (make supply).1

/-- The factories by a lead make strings, extensions and the empty list. -/
theorem Factory.makes_ofLead {P : Value → Prop} (hstring : ∀ id text, P (.string id text))
    (hnil : P .nil) (hextension : ∀ id e, P (.extension id e)) (lead kind : String) :
    (Factory.ofLead lead kind).Makes P := by
  intro text make hmake supply
  simp only [Factory.ofLead] at hmake
  split at hmake
  · split at hmake
    · obtain rfl := Option.some.inj hmake
      exact hstring _ _
    · split at hmake
      · obtain rfl := Option.some.inj hmake
        exact hnil
      · obtain rfl := Option.some.inj hmake
        exact hextension _ _
  · cases hmake

theorem Factory.ofLead_makes {N : SymbolTable → Value → Prop} (hN : Invariant N) (t : SymbolTable)
    (lead kind : String) : (Factory.ofLead lead kind).Makes (Value.All (N t)) :=
  makes_ofLead (fun _ _ => Value.all_leaf hN rfl rfl rfl) (Value.all_leaf hN rfl rfl rfl)
    (fun _ _ => Value.all_leaf hN rfl rfl rfl) lead kind

/-- A kind of values to which all belong that are read: the symbols of the table, numbers, strings,
and lists of such values.  It may depend on the table, which gains names. -/
structure Readable (P : SymbolTable → Value → Prop) : Prop where
  later : ∀ {t t' v}, t.Extends t' → P t v → P t' v
  symbol : ∀ {t name s}, t.lookup name = some s → P t (.symbol s)
  number : ∀ t n, P t (.number n)
  string : ∀ t id text, P t (.string id text)
  list : ∀ {t items}, (∀ v ∈ items, P t v) → ∀ supply, P t (Value.list items supply).1

theorem Readable.nil {P : SymbolTable → Value → Prop} (hP : Readable P) (t : SymbolTable) :
    P t .nil :=
  hP.list (List.forall_mem_nil _) (.ofOwner 0)

theorem Invariant.readable {N : SymbolTable → Value → Prop} (hN : Invariant N) :
    Readable fun t => Value.All (N t) where
  later ht h := h.later hN ht
  symbol h := Value.all_symbol hN h
  number _ _ := Value.all_leaf hN rfl rfl rfl
  string _ _ _ := Value.all_leaf hN rfl rfl rfl
  list h supply := Value.all_list hN h supply

/-- The table has the names of `t`, the reserved symbols are those of the table, and what has been
read of the open lists and what the factories make is of the kind. -/
structure Reader.Holds (P : SymbolTable → Value → Prop) (t : SymbolTable) (r : Reader) : Prop where
  grown : t.Extends r.table
  reserved : r.Reserved
  items : ∀ items, .list items ∈ r.stack → ∀ v ∈ items, P r.table v
  made : ∀ f ∈ r.factories, f.Makes (P r.table)

/-- The reader after a token holds what it should, and so does the datum, if there is one. -/
def Accepted.Holds (P : SymbolTable → Value → Prop) (t : SymbolTable) : Accepted → Prop
  | .refused _ r => r.Holds P t
  | .ongoing r => r.Holds P t
  | .datum v r => P r.table v ∧ r.Holds P t

structure Reading.Holds (P : SymbolTable → Value → Prop) (t : SymbolTable) (reading : Reading) :
    Prop where
  reader : reading.reader.Holds P t
  datum : ∀ v, reading.answer = .ok (some v) → P reading.reader.table v

structure Datums.Holds (P : SymbolTable → Value → Prop) (t : SymbolTable) (datums : Datums) :
    Prop where
  reader : datums.reader.Holds P t
  values : ∀ v ∈ datums.values, P datums.reader.table v

namespace Reader

variable {P : SymbolTable → Value → Prop} (hP : Readable P) {t : SymbolTable} {r : Reader}

theorem Holds.now (h : r.Holds P t) : r.Holds P r.table := ⟨.refl _, h.reserved, h.items, h.made⟩

theorem Holds.since {t' : SymbolTable} (h : r.Holds P t') (ht : t.Extends t') : r.Holds P t :=
  ⟨ht.trans h.grown, h.reserved, h.items, h.made⟩

theorem Holds.imp {P' : SymbolTable → Value → Prop} (h : r.Holds P t)
    (hP : ∀ v, P r.table v → P' r.table v) : r.Holds P' t :=
  ⟨h.grown, h.reserved, fun items hitems v hv => hP v (h.items items hitems v hv),
    fun f hf text make hmake supply => hP _ (h.made f hf text make hmake supply)⟩

theorem Holds.update (h : r.Holds P t) {stack : List Context}
    (hstack : ∀ items, .list items ∈ stack → ∀ v ∈ items, P r.table v)
    (pending : Option Pending) (failed : Bool) (supply : Supply) :
    Holds P t { r with stack, pending, failed, supply } :=
  ⟨h.grown, h.reserved, hstack, h.made⟩

theorem Holds.reset (h : r.Holds P t) : r.reset.Holds P t :=
  h.update (fun _ hitems => absurd hitems List.not_mem_nil) none false r.supply

theorem Holds.register (h : r.Holds P t) {f : Factory} (hf : f.Makes (P r.table)) :
    (r.register f).Holds P t := by
  refine ⟨h.grown, h.reserved, h.items, fun g hg => ?_⟩
  rcases List.mem_append.1 hg with hg | hg
  · exact h.made g hg
  · exact List.mem_singleton.1 hg ▸ hf

include hP

/-! ### One token -/

theorem place_all {quotes : QuoteSymbols}
    (hquotes : ∀ kind, t.lookup kind.name = some (quotes.get kind)) {stack : List Context}
    (hstack : ∀ items, .list items ∈ stack → ∀ v ∈ items, P t v) {datum : Value}
    (hdatum : P t datum) (supply : Supply) :
    (∀ v, (place quotes datum supply stack).1 = some v → P t v) ∧
      ∀ items, .list items ∈ (place quotes datum supply stack).2.1 → ∀ v ∈ items, P t v := by
  induction stack generalizing datum supply with
  | nil => exact ⟨fun v hv => Option.some.inj hv ▸ hdatum, nofun⟩
  | cons c stack ih =>
    have hrest := fun items hitems => hstack items (List.mem_cons_of_mem c hitems)
    cases c with
    | list items =>
      refine ⟨nofun, fun items' hitems' => ?_⟩
      rcases List.mem_cons.1 hitems' with heq | hitems'
      · obtain rfl := Context.list.inj heq
        exact List.forall_mem_cons.2 ⟨hdatum, hstack items List.mem_cons_self⟩
      · exact hrest items' hitems'
    | quote kind =>
      -- The quote form is the datum for what is around the mark.
      have hform : P t (Value.wrap (quotes.get kind) datum supply).1 := by
        refine hP.list (List.forall_mem_cons.2 ⟨?_, ?_⟩) supply
        · exact hP.symbol (hquotes kind)
        · exact List.forall_mem_singleton.2 hdatum
      exact ih hrest hform _

theorem attach_holds {v : Value} (h : r.Holds P t) (hv : P r.table v) :
    (r.attach v).Holds P t := by
  have hplace := place_all hP h.reserved h.items hv r.supply
  simp only [attach]
  split
  · next w stack supply heq =>
    rw [heq] at hplace
    exact ⟨hplace.1 w rfl, h.update hplace.2 _ _ _⟩
  · next stack supply heq =>
    rw [heq] at hplace
    exact h.update hplace.2 _ _ _

theorem atom_holds (h : r.Holds P t) (text : String) :
    P (r.atom text).2.table (r.atom text).1 ∧ (r.atom text).2.Holds P t := by
  simp only [atom]
  split
  · next make hmake =>
    obtain ⟨f, hf, hclaim⟩ := List.exists_of_findSome?_eq_some hmake
    exact ⟨h.made f hf text make hclaim r.supply, h.update h.items _ _ _⟩
  · split
    · exact ⟨hP.number _ _, h⟩
    · have hgrows := SymbolTable.extends_intern r.table text
      refine ⟨hP.symbol (SymbolTable.lookup_intern_self r.table text), ?_⟩
      exact ⟨h.grown.trans hgrows, fun kind => hgrows _ _ (h.reserved kind),
        fun items hitems v hv => hP.later hgrows (h.items items hitems v hv),
        fun f hf claimed make hmake supply => hP.later hgrows (h.made f hf claimed make hmake supply)⟩

theorem accept_holds (h : r.Holds P t) (token : Token) : (r.accept token).Holds P t := by
  cases token with
  | openList =>
    refine h.update (fun items hitems => ?_) _ _ _
    rcases List.mem_cons.1 hitems with heq | hitems
    · obtain rfl := Context.list.inj heq
      exact nofun
    · exact h.items items hitems
  | quote kind =>
    refine h.update (fun items hitems => ?_) _ _ _
    rcases List.mem_cons.1 hitems with heq | hitems
    · cases heq
    · exact h.items items hitems
  | string text =>
    exact attach_holds hP (h.update h.items _ _ _) (hP.string _ _ _)
  | atom text =>
    obtain ⟨hv, hr⟩ := atom_holds hP h text
    exact attach_holds hP hr hv
  | closeList =>
    have hstack := h.items
    simp only [accept]
    split
    · next items stack heq =>
      rw [heq] at hstack
      refine attach_holds hP (h.update (fun items' hitems' => ?_) _ _ _) ?_
      · exact hstack items' (List.mem_cons_of_mem _ hitems')
      · refine hP.list (fun v hv => ?_) r.supply
        exact hstack items List.mem_cons_self v (List.mem_reverse.1 hv)
    · next kind stack heq =>
      rw [heq] at hstack
      exact h.update (fun items hitems => hstack items (List.mem_cons_of_mem _ hitems)) _ _ _
    · exact h.update h.items _ _ _

/-! ### Texts -/

theorem readFrom_holds (final : Bool) (h : r.Holds P t) (cs : List Char) :
    (r.readFrom final cs).Holds P t := by
  fun_induction readFrom final r cs with
  | case1 r cs hscan => exact ⟨h, fun v hv => by cases hv⟩
  | case2 r cs here hscan => exact ⟨h.update h.items _ _ _, fun v hv => by cases hv⟩
  | case3 r cs here hscan => exact ⟨h.update h.items _ _ _, fun v hv => by cases hv⟩
  | case4 r cs here hscan => exact ⟨h.update h.items _ _ _, fun v hv => by cases hv⟩
  | case5 r cs token here rest hscan fault r' hacc =>
    have hr' := accept_holds hP h token
    rw [hacc] at hr'
    exact ⟨hr', fun v hv => by cases hv⟩
  | case6 r cs token here rest hscan r' hacc ih =>
    have hr' := accept_holds hP h token
    rw [hacc] at hr'
    exact ih hr'
  | case7 r cs token here rest hscan v r' hacc =>
    have hr' := accept_holds hP h token
    rw [hacc] at hr'
    refine ⟨hr'.2, fun w hw => ?_⟩
    obtain rfl := Option.some.inj (Except.ok.inj hw)
    exact hr'.1

theorem readChars_holds (final : Bool) (h : r.Holds P t) (cs : List Char) :
    (r.readChars final cs).Holds P t :=
  readFrom_holds hP final (h.update h.items none r.failed r.supply) cs

theorem readMany_holds (final : Bool) (h : r.Holds P t) (cs : List Char) :
    (r.readMany final cs).Holds P t := by
  fun_induction readMany final r cs generalizing t with
  | case1 r cs r' rest v hfirst more =>
    rename_i ih
    have hread := readChars_holds hP final h cs
    rw [hfirst] at hread
    -- The others are read with a table that has grown, so the first datum is fit for it too.
    have hmore : more.Holds P r'.table := ih hread.reader.now
    refine ⟨hmore.reader.since hread.reader.grown, List.forall_mem_cons.2 ⟨?_, hmore.values⟩⟩
    exact hP.later hmore.reader.grown (hread.datum v rfl)
  | case2 r cs r' rest hfirst =>
    have hread := readChars_holds hP final h cs
    rw [hfirst] at hread
    exact ⟨hread.reader, fun v hv => by cases hv⟩
  | case3 r cs r' rest fault hfirst =>
    have hread := readChars_holds hP final h cs
    rw [hfirst] at hread
    exact ⟨hread.reader, fun v hv => by cases hv⟩

theorem read_holds {final : Bool} {s s' : Stream} {r' : Reader}
    {answer : Except ReadError (Option Value)} (h : r.Holds P t)
    (hread : r.read final s = (answer, r', s')) :
    r'.Holds P t ∧ ∀ v, answer = .ok (some v) → P r'.table v := by
  have hreading := readChars_holds hP final h s.rest
  simp only [read] at hread
  split at hread
  · next v? hanswer =>
    obtain ⟨rfl, rfl, -⟩ := by simpa only [Prod.mk.injEq] using hread
    refine ⟨hreading.reader, fun v hv => ?_⟩
    obtain rfl := Except.ok.inj hv
    exact hreading.datum v hanswer
  · obtain ⟨rfl, rfl, -⟩ := by simpa only [Prod.mk.injEq] using hread
    exact ⟨hreading.reader, fun v hv => by cases hv⟩

theorem readAll_holds {text : String} {r' : Reader} {answer : Except ReadError (List Value)}
    (h : r.Holds P t) (hread : r.readAll text = (answer, r')) :
    r'.Holds P t ∧ ∀ vs, answer = .ok vs → ∀ v ∈ vs, P r'.table v := by
  have hdatums := readMany_holds hP true h text.toList
  simp only [readAll] at hread
  split at hread
  · obtain ⟨rfl, rfl⟩ := Prod.mk.inj hread
    exact ⟨hdatums.reader, fun v hv => by cases hv⟩
  · obtain ⟨rfl, rfl⟩ := Prod.mk.inj hread
    refine ⟨hdatums.reader, fun vs hvs => ?_⟩
    cases hfinish : finish (r.readMany true text.toList).reader
        ((Stream.ofText text).moveTo (r.readMany true text.toList).rest) with
    | error e =>
      rw [hfinish] at hvs
      cases hvs
    | ok u =>
      rw [hfinish] at hvs
      obtain rfl := Except.ok.inj hvs
      exact hdatums.values

end Reader

end Lisplet
