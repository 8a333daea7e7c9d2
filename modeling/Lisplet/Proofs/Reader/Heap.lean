import Lisplet.Proofs.Reader.Contents
import Lisplet.Proofs.Value.Heap

/-! Reading and the heap.  A reader is backed by a heap that has what is in its open lists and what its
factories make use of, and in which the identities to come are free.  Reading adds objects to the heap
and does nothing else to it. -/

namespace Lisplet

/-- Whatever the factory makes, it makes of old values and new objects. -/
def Factory.Builds (old : Value → Prop) (f : Factory) : Prop :=
  ∀ text make, f text = some make → ∀ supply : Supply, supply.Builds old (make supply)

theorem Factory.Builds.imp {old old' : Value → Prop} {f : Factory} (h : f.Builds old)
    (hold : ∀ v, old v → old' v) : f.Builds old' :=
  fun text make hmake supply => (h text make hmake supply).imp hold

/-- Claims one atom, which always stands for the same value. -/
def Factory.constant (name : String) (v : Value) : Factory := fun text =>
  if text = name then some fun supply => (v, supply) else none

theorem Factory.builds_constant {old : Value → Prop} {name : String} {v : Value}
    (hv : v.All fun w => old w ∨ w.ident? = none) : (Factory.constant name v).Builds old := by
  intro text make hmake supply
  simp only [Factory.constant] at hmake
  split at hmake
  · obtain rfl := Option.some.inj hmake
    exact Supply.builds_old hv
  · cases hmake

/-- The factories by a lead make one new object or none. -/
theorem Factory.builds_ofLead (old : Value → Prop) (lead kind : String) :
    (Factory.ofLead lead kind).Builds old := by
  intro text make hmake supply
  simp only [Factory.ofLead] at hmake
  split at hmake
  · split at hmake
    · obtain rfl := Option.some.inj hmake
      exact Supply.builds_one rfl fun w hw => .inl (List.mem_singleton.1 hw)
    · split at hmake
      · obtain rfl := Option.some.inj hmake
        exact Supply.builds_old (List.forall_mem_singleton.2 (.inr rfl))
      · obtain rfl := Option.some.inj hmake
        exact Supply.builds_one rfl fun w hw => .inl (List.mem_singleton.1 hw)
  · cases hmake

structure Reader.Backed (owner : Nat) (h : Heap) (r : Reader) : Prop where
  ready : h.Ready owner r.supply
  items : ∀ items, .list items ∈ r.stack → ∀ v ∈ items, h.Has v
  made : ∀ f ∈ r.factories, f.Builds h.Has

/-- The heap backs the reader after a token, and has the datum, if there is one. -/
def Accepted.Backed (owner : Nat) (h : Heap) : Accepted → Prop
  | .refused _ r => r.Backed owner h
  | .ongoing r => r.Backed owner h
  | .datum v r => h.Has v ∧ r.Backed owner h

structure Reading.Backed (owner : Nat) (h : Heap) (reading : Reading) : Prop where
  reader : reading.reader.Backed owner h
  datum : ∀ v, reading.answer = .ok (some v) → h.Has v

structure Datums.Backed (owner : Nat) (h : Heap) (datums : Datums) : Prop where
  reader : datums.reader.Backed owner h
  values : ∀ v ∈ datums.values, h.Has v

namespace Reader

variable {owner : Nat} {h h' : Heap} {r : Reader}

theorem Backed.later (hr : r.Backed owner h) {other : Nat} (hgrows : h.Grows other h')
    (howner : owner ≠ other) : r.Backed owner h' where
  ready := hr.ready.later hgrows howner
  items items hitems v hv := (hr.items items hitems v hv).later hgrows
  made f hf := (hr.made f hf).imp fun _ hv => hv.later hgrows

theorem Backed.update (hr : r.Backed owner h) {supply : Supply} (hsupply : h.Ready owner supply)
    {stack : List Context} (hstack : ∀ items, .list items ∈ stack → ∀ v ∈ items, h.Has v)
    (pending : Option Pending) (failed : Bool) :
    Backed owner h { r with stack, pending, failed, supply } :=
  ⟨hsupply, hstack, hr.made⟩

/-- The reader after it has made objects. -/
theorem Backed.supplied (hr : r.Backed owner h) (hgrows : h.Grows owner h') {supply : Supply}
    (hsupply : h'.Ready owner supply) : Backed owner h' { r with supply } :=
  ⟨hsupply, fun items hitems v hv => (hr.items items hitems v hv).later hgrows,
    fun f hf => (hr.made f hf).imp fun _ hv => hv.later hgrows⟩

theorem Backed.reset (hr : r.Backed owner h) : r.reset.Backed owner h :=
  hr.update hr.ready (fun _ hitems => absurd hitems List.not_mem_nil) none false

theorem Backed.register (hr : r.Backed owner h) {f : Factory} (hf : f.Builds h.Has) :
    (r.register f).Backed owner h := by
  refine ⟨hr.ready, hr.items, fun g hg => ?_⟩
  rcases List.mem_append.1 hg with hg | hg
  · exact hr.made g hg
  · exact List.mem_singleton.1 hg ▸ hf

/-! ### One token -/

theorem place_backed (quotes : QuoteSymbols) {stack : List Context}
    (hstack : ∀ items, .list items ∈ stack → ∀ v ∈ items, h.Has v) {datum : Value}
    (hdatum : h.Has datum) {supply : Supply} (hsupply : h.Ready owner supply) :
    let placed := place quotes datum supply stack
    h.Later owner fun h' => h'.Ready owner placed.2.2 ∧ (∀ v, placed.1 = some v → h'.Has v) ∧
      ∀ items, .list items ∈ placed.2.1 → ∀ v ∈ items, h'.Has v := by
  induction stack generalizing h datum supply with
  | nil => exact .now ⟨hsupply, fun v hv => Option.some.inj hv ▸ hdatum, nofun⟩
  | cons c stack ih =>
    have hrest := fun items hitems => hstack items (List.mem_cons_of_mem c hitems)
    cases c with
    | list items =>
      refine .now ⟨hsupply, nofun, fun items' hitems' => ?_⟩
      rcases List.mem_cons.1 hitems' with heq | hitems'
      · obtain rfl := Context.list.inj heq
        exact List.forall_mem_cons.2 ⟨hdatum, hstack items List.mem_cons_self⟩
      · exact hrest items' hitems'
    | quote kind =>
      -- The quote form is the datum for what is around the mark.
      have hitems : ∀ v ∈ [.symbol (quotes.get kind), datum], h.Has v :=
        List.forall_mem_cons.2 ⟨Heap.has_of_ident rfl rfl, List.forall_mem_singleton.2 hdatum⟩
      refine (Heap.makes_list hsupply hitems).bind fun h' hgrows hform => ?_
      exact ih (fun items hitems v hv => (hrest items hitems v hv).later hgrows) hform.1 hform.2

theorem attach_backed {v : Value} (hr : r.Backed owner h) (hv : h.Has v) :
    h.Later owner ((r.attach v).Backed owner) := by
  refine (place_backed r.quotes hr.items hv hr.ready).imp fun h' hgrows hplace => ?_
  obtain ⟨hsupply, hdatum, hstack⟩ := hplace
  have hr' := hr.supplied hgrows hsupply
  simp only [attach]
  split
  · next w stack supply heq =>
    rw [heq] at hsupply hdatum hstack
    exact ⟨hdatum w rfl, hr'.update hsupply hstack _ _⟩
  · next stack supply heq =>
    rw [heq] at hsupply hstack
    exact hr'.update hsupply hstack _ _

theorem atom_backed (hr : r.Backed owner h) (text : String) :
    h.Later owner fun h' => h'.Has (r.atom text).1 ∧ (r.atom text).2.Backed owner h' := by
  simp only [atom]
  split
  · next make hmake =>
    obtain ⟨f, hf, hclaim⟩ := List.exists_of_findSome?_eq_some hmake
    have hbuilds := hr.made f hf text make hclaim r.supply
    refine (Heap.makes_built hr.ready (fun _ hv => hv) hbuilds).imp fun h' hgrows hmade => ?_
    exact ⟨hmade.1, hr.supplied hgrows hmade.2⟩
  · split
    · exact .now ⟨Heap.has_of_ident rfl rfl, hr⟩
    · exact .now ⟨Heap.has_of_ident rfl rfl, hr.ready, hr.items, hr.made⟩

theorem accept_backed (hr : r.Backed owner h) (token : Token) :
    h.Later owner ((r.accept token).Backed owner) := by
  cases token with
  | openList =>
    refine .now (hr.update hr.ready (fun items hitems => ?_) _ _)
    rcases List.mem_cons.1 hitems with heq | hitems
    · obtain rfl := Context.list.inj heq
      exact nofun
    · exact hr.items items hitems
  | quote kind =>
    refine .now (hr.update hr.ready (fun items hitems => ?_) _ _)
    rcases List.mem_cons.1 hitems with heq | hitems
    · cases heq
    · exact hr.items items hitems
  | string text =>
    have hstring : h.Makes owner (.string r.supply.ident text, r.supply.rest) :=
      Heap.makes_leaf hr.ready rfl rfl
    exact hstring.bind fun h' hgrows hmade => attach_backed (hr.supplied hgrows hmade.2) hmade.1
  | atom text =>
    exact (atom_backed hr text).bind fun h' _ hatom => attach_backed hatom.2 hatom.1
  | closeList =>
    have hstack := hr.items
    simp only [accept]
    split
    · next items stack heq =>
      rw [heq] at hstack
      have hitems : ∀ v ∈ items.reverse, h.Has v := fun v hv =>
        hstack items List.mem_cons_self v (List.mem_reverse.1 hv)
      refine (Heap.makes_list hr.ready hitems).bind fun h' hgrows hmade => ?_
      have hr' := hr.supplied hgrows hmade.2
      refine attach_backed (hr'.update hmade.2 (fun items' hitems' v hv => ?_) _ _) hmade.1
      exact (hstack items' (List.mem_cons_of_mem _ hitems') v hv).later hgrows
    · next kind stack heq =>
      rw [heq] at hstack
      refine .now (hr.update hr.ready (fun items hitems => ?_) _ _)
      exact hstack items (List.mem_cons_of_mem _ hitems)
    · exact .now (hr.update hr.ready hr.items _ _)

/-! ### Texts -/

theorem readFrom_backed (final : Bool) (hr : r.Backed owner h) (cs : List Char) :
    h.Later owner ((r.readFrom final cs).Backed owner) := by
  fun_induction readFrom final r cs generalizing h with
  | case1 r cs hscan => exact .now ⟨hr, fun v hv => by cases hv⟩
  | case2 r cs here hscan | case3 r cs here hscan | case4 r cs here hscan =>
    exact .now ⟨hr.update hr.ready hr.items _ _, fun v hv => by cases hv⟩
  | case5 r cs token here rest hscan fault r' hacc =>
    have haccept := accept_backed hr token
    rw [hacc] at haccept
    exact haccept.imp fun h' _ hr' => ⟨hr', fun v hv => by cases hv⟩
  | case6 r cs token here rest hscan r' hacc ih =>
    have haccept := accept_backed hr token
    rw [hacc] at haccept
    exact haccept.bind fun h' _ hr' => ih hr'
  | case7 r cs token here rest hscan v r' hacc =>
    have haccept := accept_backed hr token
    rw [hacc] at haccept
    refine haccept.imp fun h' _ hr' => ⟨hr'.2, fun w hw => ?_⟩
    obtain rfl := Option.some.inj (Except.ok.inj hw)
    exact hr'.1

theorem readChars_backed (final : Bool) (hr : r.Backed owner h) (cs : List Char) :
    h.Later owner ((r.readChars final cs).Backed owner) :=
  readFrom_backed final (hr.update hr.ready hr.items none r.failed) cs

theorem readMany_backed (final : Bool) (hr : r.Backed owner h) (cs : List Char) :
    h.Later owner ((r.readMany final cs).Backed owner) := by
  fun_induction readMany final r cs generalizing h with
  | case1 r cs r' rest v hfirst more =>
    rename_i ih
    have hread := readChars_backed final hr cs
    rw [hfirst] at hread
    refine hread.bind fun h' _ hread => (ih hread.reader).imp fun h'' hgrows hmore => ?_
    exact ⟨hmore.reader,
      List.forall_mem_cons.2 ⟨(hread.datum v rfl).later hgrows, hmore.values⟩⟩
  | case2 r cs r' rest hfirst | case3 r cs r' rest fault hfirst =>
    have hread := readChars_backed final hr cs
    rw [hfirst] at hread
    exact hread.imp fun h' _ hread => ⟨hread.reader, fun v hv => by cases hv⟩

theorem read_backed {final : Bool} {s s' : Stream} {r' : Reader}
    {answer : Except ReadError (Option Value)} (hr : r.Backed owner h)
    (hread : r.read final s = (answer, r', s')) :
    h.Later owner fun h' => r'.Backed owner h' ∧ ∀ v, answer = .ok (some v) → h'.Has v := by
  have hreading := readChars_backed final hr s.rest
  cases answer with
  | ok v? =>
    rw [read_eq_ok hread] at hreading
    refine hreading.imp fun h' _ hreading => ⟨hreading.reader, fun v hv => hreading.datum v ?_⟩
    rw [Except.ok.inj hv]
  | error e =>
    rw [(read_eq_error hread).1] at hreading
    exact hreading.imp fun h' _ hreading => ⟨hreading.reader, fun v hv => by cases hv⟩

theorem readAll_backed {text : String} {r' : Reader} {answer : Except ReadError (List Value)}
    (hr : r.Backed owner h) (hread : r.readAll text = (answer, r')) :
    h.Later owner fun h' => r'.Backed owner h' ∧ ∀ vs, answer = .ok vs → ∀ v ∈ vs, h'.Has v := by
  refine (readMany_backed true hr text.toList).imp fun h' _ hdatums => ?_
  simp only [readAll] at hread
  split at hread
  · obtain ⟨rfl, rfl⟩ := Prod.mk.inj hread
    exact ⟨hdatums.reader, fun vs hvs => by cases hvs⟩
  · obtain ⟨rfl, rfl⟩ := Prod.mk.inj hread
    refine ⟨hdatums.reader, fun vs hvs => ?_⟩
    cases hfinish : finish (r.readMany true text.toList).reader
        ((Stream.ofText text).moveTo (r.readMany true text.toList).rest) with
    | error e =>
      rw [hfinish] at hvs
      cases hvs
    | ok u =>
      rw [hfinish] at hvs
      obtain rfl := Except.ok.inj hvs
      exact hdatums.values

end Reader

end Lisplet
