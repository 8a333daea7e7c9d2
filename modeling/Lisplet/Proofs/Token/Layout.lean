import Lisplet.Proofs.Token.Written
import Mathlib.Data.List.Chain

/-! Texts that are laid out from tokens.  A `Layout` spells each of its tokens, with any spaces and
comments around them or none; only two tokens that would run together have something between them.
Whatever stands there, the tokens of the text are those of the layout: `Layout.sequence_chars`. -/

namespace Lisplet

namespace Token

/-- Spaces and comments, each comment with the character that ends it. -/
inductive Trivia : List Char → Prop
  | nil : Trivia []
  | space {c : Char} {cs : List Char} (space : isSpace c = true) (more : Trivia cs) :
      Trivia (c :: cs)
  | comment {body cs : List Char} {c : Char} (inside : ∀ d ∈ body, endsComment d = false)
      (ends : endsComment c = true) (more : Trivia cs) : Trivia (';' :: body ++ c :: cs)

/-- What may stand after the last token: the last comment may go on to the end of the text. -/
inductive Closing : List Char → Prop
  | trivia {gap : List Char} (trivia : Trivia gap) : Closing gap
  | comment {gap body : List Char} (trivia : Trivia gap)
      (inside : ∀ d ∈ body, endsComment d = false) : Closing (gap ++ ';' :: body)

/-- How a token is written. -/
def spelling : Token → List Char
  | .openList => ['(']
  | .closeList => [')']
  | .quote kind => kind.mark.toList
  | .string text => Text.Quoted.encode text.toList
  | .atom text => text.toList

/-- A token that can be written; an atom has characters, and none of them is a delimiter. -/
def Spelt : Token → Prop
  | .atom text => text.toList ≠ [] ∧ ∀ c ∈ text.toList, isDelimiter c = false
  | _ => True

/-- With nothing between them the two are written as other tokens. -/
def Fuses : Token → Token → Prop
  | .atom _, .atom _ => True
  | .quote .unquote, .atom text => text.toList.head? = some '@'
  | _, _ => False

/-- The token ends where the text goes on with `k`. -/
def EndsBefore : Token → List Char → Prop
  | .atom _, k => Delimited k
  | .quote .unquote, k => k.head? ≠ some '@'
  | _, _ => True

/-! ### Spaces and comments -/

theorem skipGap_trivia {gap : List Char} (h : Trivia gap) (k : List Char) :
    skipGap none (gap ++ k) = skipGap none k := by
  induction h with
  | nil => rfl
  | @space c cs hspace _ ih =>
    rw [List.cons_append, skipGap]
    simp only [hspace, if_true]
    exact ih
  | @comment body cs c hinside hends _ ih =>
    rw [List.append_assoc, List.cons_append, skipGap]
    simp only [show isSpace ';' = false by decide, Bool.false_eq_true, if_false, if_true]
    rw [skipGap_inside _ _ hinside, List.cons_append, skipGap]
    simp only [hends, if_true]
    exact ih

theorem lexes_trivia {gap : List Char} (h : Trivia gap) (k : List Char) : Lexes gap [] k := by
  have hscan : scan true (gap ++ k) = scan true k := scan_congr (skipGap_trivia h k)
  have hseq := sequence_eq (gap ++ k)
  rw [hscan, ← sequence_eq] at hseq
  simp only [Lexes, hseq, List.nil_append, and_self]

theorem sequence_closing {last : List Char} (h : Closing last) : sequence last = ⟨[], none⟩ := by
  have hscan : scan true last = .finished := by
    cases h with
    | trivia htrivia =>
      have hgap := skipGap_trivia htrivia []
      rw [List.append_nil] at hgap
      rw [scan_congr hgap]
      rfl
    | @comment gap body htrivia hinside =>
      have hgap : skipGap none (gap ++ ';' :: body) = .comment (';' :: body) := by
        rw [skipGap_trivia htrivia, skipGap]
        simp only [show isSpace ';' = false by decide, Bool.false_eq_true, if_false, if_true]
        rw [← List.append_nil body, skipGap_inside _ _ hinside]
        rfl
      simp only [scan, hgap, if_true]
  rw [sequence_eq, hscan]

/-! ### Where a token ends -/

theorem isDelimiter_of_isSpace {c : Char} (h : isSpace c = true) : isDelimiter c = true := by
  simp [isDelimiter, h]

theorem Trivia.delimited {gap : List Char} (h : Trivia gap) {k : List Char}
    (hk : gap = [] → Delimited k) : Delimited (gap ++ k) := by
  cases h with
  | nil => exact hk rfl
  | space hspace _ => exact fun d hd => Option.some.inj hd ▸ isDelimiter_of_isSpace hspace
  | comment _ _ _ => exact fun d hd => Option.some.inj hd ▸ by decide

theorem Closing.delimited {last : List Char} (h : Closing last) : Delimited last := by
  cases h with
  | trivia htrivia =>
    have hends := htrivia.delimited (k := []) fun _ => nofun
    rwa [List.append_nil] at hends
  | comment htrivia _ =>
    exact htrivia.delimited fun _ d hd => Option.some.inj hd ▸ by decide

theorem delimited_spelling {t : Token} (h : ∀ text, t ≠ .atom text) (k : List Char) :
    Delimited (t.spelling ++ k) := by
  intro c hc
  cases t with
  | atom text => exact absurd rfl (h text)
  | openList | closeList | string => exact Option.some.inj hc ▸ by decide
  | quote kind => cases kind <;> exact Option.some.inj hc ▸ by decide

theorem EndsBefore.of_delimited {k : List Char} (h : Delimited k) (t : Token) :
    t.EndsBefore k := by
  cases t with
  | atom text => exact h
  | quote kind =>
    cases kind with
    | unquote => exact fun hat => absurd (h '@' hat) (by decide)
    | _ => trivial
  | _ => trivial

theorem EndsBefore.of_not_fuses {t u : Token} (h : ¬ t.Fuses u) (hu : u.Spelt) (k : List Char) :
    t.EndsBefore (u.spelling ++ k) := by
  by_cases hatom : ∃ text, u = .atom text
  · obtain ⟨text, rfl⟩ := hatom
    cases t with
    | atom other => exact absurd trivial h
    | quote kind =>
      cases kind with
      | unquote =>
        obtain ⟨c, cs, htext⟩ := List.exists_cons_of_ne_nil hu.1
        simpa only [EndsBefore, Fuses, spelling, htext, List.cons_append, List.head?_cons] using h
      | _ => trivial
    | _ => trivial
  · exact .of_delimited (delimited_spelling (fun text hu => hatom ⟨text, hu⟩) k) t

theorem lexes_spelling {t : Token} (ht : t.Spelt) {k : List Char} (hk : t.EndsBefore k) :
    Lexes t.spelling [t] k := by
  cases t with
  | openList => exact lexes_open k
  | closeList => exact lexes_close k
  | quote kind => exact lexes_mark kind k fun hkind => by subst hkind; exact hk
  | string text => exact lexes_string text k
  | atom text =>
    have hatom := lexes_atom ht.1 ht.2 hk
    rwa [String.ofList_toList] at hatom

end Token

open Token

/-- A token with what stands between it and the token before it. -/
structure Laid where
  gap : List Char
  token : Token

/-- Tokens with spaces and comments before, between and after them. -/
structure Layout where
  pieces : List Laid
  last : List Char
  gaps : ∀ p ∈ pieces, Trivia p.gap
  spelt : ∀ p ∈ pieces, p.token.Spelt
  /-- Tokens that would run together do not stand side by side. -/
  apart : pieces.IsChain fun p q => p.token.Fuses q.token → q.gap ≠ []
  closing : Closing last

namespace Layout

def tokens (l : Layout) : List Token := l.pieces.map Laid.token

/-- The spellings of the pieces, each after its gap, and then the end of the text. -/
def write (last : List Char) : List Laid → List Char
  | [] => last
  | p :: pieces => p.gap ++ (p.token.spelling ++ write last pieces)

def chars (l : Layout) : List Char := write l.last l.pieces

/-- A token ends before whatever a layout has after it. -/
theorem endsBefore_write {t : Token} {last : List Char} (hlast : Closing last)
    {pieces : List Laid} (hgaps : ∀ p ∈ pieces, Trivia p.gap)
    (hspelt : ∀ p ∈ pieces, p.token.Spelt)
    (hnext : ∀ p ∈ pieces.head?, t.Fuses p.token → p.gap ≠ []) :
    t.EndsBefore (write last pieces) := by
  cases pieces with
  | nil => exact .of_delimited hlast.delimited t
  | cons p pieces =>
    have hgap := hgaps p List.mem_cons_self
    rw [write]
    by_cases hempty : p.gap = []
    · rw [hempty, List.nil_append]
      refine .of_not_fuses (fun hfuses => ?_) (hspelt p List.mem_cons_self) _
      exact hnext p rfl hfuses hempty
    · exact .of_delimited (hgap.delimited fun h => absurd h hempty) t

/-- The tokens of the text are the tokens of the layout, and the text ends in no quoted text. -/
theorem sequence_chars (l : Layout) :
    (sequence l.chars).tokens = l.tokens ∧ (sequence l.chars).open? = none := by
  obtain ⟨pieces, last, hgaps, hspelt, hapart, hlast⟩ := l
  simp only [chars, tokens]
  induction pieces with
  | nil =>
    rw [write, sequence_closing hlast]
    exact ⟨rfl, rfl⟩
  | cons p pieces ih =>
    obtain ⟨hgap, hgaps⟩ := List.forall_mem_cons.1 hgaps
    obtain ⟨hp, hspelt⟩ := List.forall_mem_cons.1 hspelt
    obtain ⟨hnext, hapart⟩ := List.isChain_cons.1 hapart
    obtain ⟨htokens, hopen⟩ := ih hgaps hspelt hapart
    have hends := endsBefore_write hlast hgaps hspelt hnext
    obtain ⟨hmore, hstill⟩ := (lexes_trivia hgap _).append (lexes_spelling hp hends)
    rw [List.append_assoc] at hmore hstill
    exact ⟨by rw [write, hmore, htokens]; rfl, by rw [write, hstill, hopen]⟩

/-- The tokens with one space between any two of them. -/
def spaced (ts : List Token) (h : ∀ t ∈ ts, t.Spelt) : Layout where
  pieces :=
    match ts with
    | [] => []
    | t :: ts => ⟨[], t⟩ :: ts.map (⟨[' '], ·⟩)
  last := []
  gaps := by
    cases ts with
    | nil => exact nofun
    | cons t ts =>
      refine List.forall_mem_cons.2 ⟨.nil, List.forall_mem_map.2 fun _ _ => ?_⟩
      exact .space (by decide) .nil
  spelt := by
    cases ts with
    | nil => exact nofun
    | cons t ts =>
      obtain ⟨ht, hts⟩ := List.forall_mem_cons.1 h
      exact List.forall_mem_cons.2 ⟨ht, List.forall_mem_map.2 hts⟩
  apart := by
    cases ts with
    | nil => exact .nil
    | cons t ts =>
      refine List.Pairwise.isChain (List.pairwise_cons.2 ⟨?_, List.pairwise_map.2 ?_⟩)
      · exact List.forall_mem_map.2 fun _ _ _ => List.cons_ne_nil _ _
      · exact List.pairwise_of_forall fun _ _ _ => List.cons_ne_nil _ _
  closing := .trivia .nil

theorem tokens_spaced (ts : List Token) (h : ∀ t ∈ ts, t.Spelt) : (spaced ts h).tokens = ts := by
  cases ts with
  | nil => rfl
  | cons t ts => simp [tokens, spaced, Function.comp_def]

theorem chars_spaced (ts : List Token) (h : ∀ t ∈ ts, t.Spelt) :
    (spaced ts h).chars = [' '].intercalate (ts.map spelling) := by
  have hwrite : ∀ t ts, write [] (⟨[], t⟩ :: ts.map (⟨[' '], ·⟩)) =
      [' '].intercalate ((t :: ts).map spelling) := by
    intro t ts
    induction ts generalizing t with
    | nil => simp [write]
    | cons u ts ih =>
      have hmore := ih u
      simp only [List.map_cons, write, List.nil_append] at hmore ⊢
      rw [List.intercalate_cons_cons, ← hmore, List.append_assoc]
  cases ts with
  | nil => rfl
  | cons t ts => exact hwrite t ts

end Layout

end Lisplet
