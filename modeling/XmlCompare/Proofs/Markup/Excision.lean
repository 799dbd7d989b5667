import XmlCompare.Proofs.Line.Excision
import XmlCompare.Proofs.Markup.Nesting
import XmlCompare.Proofs.Markup.Spelling
import XmlCompare.Proofs.Text.Words

/-!
# Cutting pieces out

A chain of pieces is cut where tokens begin and end. Blanks at the end of a chain belong to
character data, as markup ends with `>`, and so do blanks at the start, as markup begins with `<`.
If pieces between two such places go, the character data before and behind them becomes one piece.
-/

set_option autoImplicit false

namespace XmlCompare

namespace Markup.Token

open Text (byteSize)

namespace Piece

variable {pieces before after : List Piece} {cs blanks : List Char}

/-- The text of one piece is its spelling. -/
theorem join_singleton (p : Piece) : join [p] = p.spelling := by
  rw [join, List.flatMap_singleton]

/-- The tokens of two runs of pieces follow each other, the second placed behind the first. -/
theorem place_append (start : Nat) (before after : List Piece) : place start (before ++ after) =
    place start before ++ place (start + byteSize (join before)) after := by
  induction before generalizing start with
  | nil => rfl
  | cons p before ih =>
    rw [List.cons_append, place, ih, place, join_cons, Text.byteSize_append, Nat.add_assoc]
    rfl

/-- Pieces that are placed keep their tokens. -/
theorem map_token_place (start : Nat) (pieces : List Piece) :
    (place start pieces).map PlacedToken.token = pieces.map Piece.token := by
  induction pieces generalizing start with
  | nil => rfl
  | cons p rest ih => exact congrArg (p.token :: ·) (ih _)

/-- Tokens are the same wherever pieces are placed. -/
theorem map_token_place_congr (start start' : Nat) (pieces : List Piece) :
    (place start' pieces).map PlacedToken.token = (place start pieces).map PlacedToken.token := by
  rw [map_token_place, map_token_place]

/-- Where tokens are split, their pieces are. -/
theorem split_of_place {start : Nat} {first more : List PlacedToken}
    (h : place start pieces = first ++ more) : ∃ before after, pieces = before ++ after ∧
      place start before = first ∧ place (start + byteSize (join before)) after = more := by
  induction first generalizing start pieces with
  | nil => exact ⟨[], pieces, rfl, rfl, h⟩
  | cons t first ih =>
    cases pieces with
    | nil => cases h
    | cons p rest =>
      obtain ⟨rfl, hrest⟩ := List.cons.inj h
      obtain ⟨before, after, rfl, rfl, rfl⟩ := ih hrest
      refine ⟨p :: before, after, rfl, rfl, ?_⟩
      rw [join_cons, Text.byteSize_append, ← Nat.add_assoc]

/-- The first token begins where the pieces do. -/
theorem start_of_place {start : Nat} {t : PlacedToken} {rest : List PlacedToken}
    (h : place start pieces = t :: rest) : t.start = start := by
  cases pieces with
  | nil => cases h
  | cons p pieces =>
    obtain ⟨rfl, -⟩ := List.cons.inj h
    rfl

/-- The last token ends where the pieces do. -/
theorem stop_of_place {start : Nat} {t : PlacedToken} {init : List PlacedToken}
    (h : place start pieces = init ++ [t]) : t.stop = start + byteSize (join pieces) := by
  obtain ⟨before, after, rfl, -, hlast⟩ := split_of_place h
  cases after with
  | nil => cases hlast
  | cons p after =>
    obtain ⟨rfl, hnil⟩ := List.cons.inj hlast
    obtain rfl : after = [] := by
      cases after with
      | nil => rfl
      | cons q after => cases hnil
    rw [join_append, Text.byteSize_append, ← Nat.add_assoc, join_singleton]

/-- The first part of a chain is a chain. -/
theorem Chain.left (h : Chain (before ++ after)) : Chain before :=
  ⟨fun p hp => h.spelled p (List.mem_append_left _ hp), (List.isChain_append.mp h.apart).1⟩

/-- The second part of a chain is a chain. -/
theorem Chain.right (h : Chain (before ++ after)) : Chain after :=
  ⟨fun p hp => h.spelled p (List.mem_append_right _ hp), (List.isChain_append.mp h.apart).2.1⟩

/-- Markup ends with a bracket. -/
theorem Spelled.getLast? {p : Piece} (h : p.Spelled) (hmarkup : p.token.isMarkup = true) :
    p.spelling.getLast? = some '>' := by
  cases h with
  | text => cases hmarkup
  | markup _ hbody =>
    rw [List.getLast?_cons, hbody.last]
    rfl

/-- Markup shows in the text. -/
theorem Chain.mem_join (h : Chain pieces) {p : Piece} (hp : p ∈ pieces)
    (hmarkup : p.token.isMarkup = true) : '<' ∈ join pieces := by
  obtain ⟨first, rest, hspelling, hfirst⟩ := (h.spelled p hp).head
  rw [hfirst.mpr hmarkup] at hspelling
  exact List.mem_flatMap.mpr ⟨p, hp, by rw [hspelling]; exact List.mem_cons_self⟩

/-- Blanks at the start of a chain begin its character data. -/
theorem Chain.text_first (h : Chain pieces) (hjoin : join pieces = blanks ++ cs)
    (hne : blanks ≠ []) (hno : '<' ∉ blanks) : ∃ v after,
      pieces = ⟨.text (blanks ++ v), blanks ++ v⟩ :: after ∧ cs = v ++ join after := by
  obtain ⟨first, others, rfl⟩ := List.exists_cons_of_ne_nil hne
  cases pieces with
  | nil => cases hjoin
  | cons p rest =>
    rw [join_cons] at hjoin
    have hspelled := h.spelled p List.mem_cons_self
    cases hspelled with
    | markup ht hbody =>
      obtain ⟨rfl, -⟩ := List.cons.inj hjoin
      exact absurd List.mem_cons_self hno
    | @text raw _ _ =>
      rcases List.append_eq_append_iff.mp hjoin with ⟨m, hblanks, hrest⟩ | ⟨v, rfl, rfl⟩
      · -- The data ends where a `<` stands or nothing, so it does not end among the blanks.
        have hnil : m = [] := by
          cases m with
          | nil => rfl
          | cons c m =>
            exfalso
            rcases h.behind_text with hempty | ⟨tail, htail⟩
            · rw [hempty] at hrest
              cases hrest
            · rw [htail] at hrest
              obtain ⟨rfl, -⟩ := List.cons.inj hrest
              rw [hblanks] at hno
              exact hno (by simp)
        obtain rfl := hnil
        rw [List.append_nil] at hblanks
        rw [hblanks]
        exact ⟨[], rest, by rw [List.append_nil], hrest.symm⟩
      · exact ⟨v, rest, rfl, rfl⟩

/-- A chain whose last piece is markup ends with `>`. -/
theorem Chain.getLast?_join {p : Piece} (h : Chain (before ++ [p]))
    (hmarkup : p.token.isMarkup = true) : (join (before ++ [p])).getLast? = some '>' := by
  have hp : p ∈ before ++ [p] := List.mem_append_right _ List.mem_cons_self
  rw [join_append, join_singleton, List.getLast?_append, (h.spelled p hp).getLast? hmarkup]
  rfl

/-- Blanks at the end of a chain end its character data. -/
theorem Chain.text_last (h : Chain pieces) (hjoin : join pieces = cs ++ blanks)
    (hne : blanks ≠ []) (hno : '>' ∉ blanks) : ∃ before u,
      pieces = before ++ [⟨.text (u ++ blanks), u ++ blanks⟩] ∧ cs = join before ++ u := by
  have hend : ∀ {a m : List Char}, (a ++ m).getLast? = some '>' → m ≠ [] → '>' ∈ m := by
    intro a m hlast hm
    rw [List.getLast?_append_of_ne_nil _ hm] at hlast
    exact List.mem_of_getLast? hlast
  rcases List.eq_nil_or_concat pieces with rfl | ⟨before, p, rfl⟩
  · exact absurd (List.append_eq_nil_iff.mp hjoin.symm).2 hne
  rw [List.concat_eq_append] at h hjoin ⊢
  by_cases hmarkup : p.token.isMarkup = true
  · have hlast := h.getLast?_join hmarkup
    rw [hjoin] at hlast
    exact absurd (hend hlast hne) hno
  · cases h.spelled p (by simp) with
    | markup ht _ => exact absurd ht hmarkup
    | @text raw _ _ =>
      rw [join_append, join_singleton] at hjoin
      rcases List.append_eq_append_iff.mp hjoin with ⟨u, rfl, rfl⟩ | ⟨m, hbefore, rfl⟩
      · exact ⟨before, u, rfl, rfl⟩
      · -- The data begins where markup has ended, so not behind one of the blanks.
        have hnil : m = [] := by
          by_contra hm
          rcases List.eq_nil_or_concat before with rfl | ⟨before, q, rfl⟩
          · exact hm (List.append_eq_nil_iff.mp hbefore.symm).2
          · rw [List.concat_eq_append] at h hbefore
            have hq : q.token.isMarkup = true := by
              have hapart := (List.isChain_append.mp h.apart).2.2 q (by simp) _ rfl
              exact hapart.resolve_right Bool.false_ne_true
            have hlast := h.left.getLast?_join hq
            rw [hbefore] at hlast
            exact hno (List.mem_append_left _ (hend hlast hm))
        obtain rfl := hnil
        exact ⟨before, [], rfl, by rw [hbefore, List.append_nil, List.append_nil]⟩

/-- Character data may be put in the place of character data. -/
theorem Chain.retext {raw raw₁ raw₂ : List Char} (hne : raw ≠ []) (hno : '<' ∉ raw)
    (hbefore : Chain (before ++ [⟨.text raw₁, raw₁⟩])) (hafter : Chain (⟨.text raw₂, raw₂⟩ :: after)) :
    Chain (before ++ ⟨.text raw, raw⟩ :: after) := by
  constructor
  · intro p hp
    rcases List.mem_append.mp hp with hp | hp
    · exact hbefore.left.spelled p hp
    · rcases List.mem_cons.mp hp with rfl | hp
      · exact .text hne hno
      · exact hafter.tail.spelled p hp
  · obtain ⟨hleft, -, hbetween⟩ := List.isChain_append.mp hbefore.apart
    obtain ⟨hnext, hright⟩ := List.isChain_cons.mp hafter.apart
    refine List.isChain_append.mpr ⟨hleft, List.isChain_cons.mpr ⟨hnext, hright⟩, ?_⟩
    rintro p hp q ⟨⟩
    exact hbetween p hp ⟨.text raw₁, raw₁⟩ rfl

end Piece

open Piece

/-- Where an element stands, its pieces stand. -/
theorem pieces_of_extents {pieces : List Piece} {i start stop : Nat}
    (h : (extents (place 0 pieces))[i]? = some (start, some stop)) : ∃ before element after,
      pieces = before ++ element ++ after ∧ Whole (element.map Piece.token) ∧
        ((place 0 before).filter Event.State.isOpening).length = i ∧
        byteSize (join before) = start ∧ start + byteSize (join element) = stop := by
  obtain ⟨first, whole, rest, hitems, hwhole, hlength, ⟨t, more, ht, hstart⟩, init, last, hlast,
    hstop⟩ := split_of_extents h
  rw [List.append_assoc] at hitems
  obtain ⟨before, others, rfl, rfl, hothers⟩ := split_of_place hitems
  rw [Nat.zero_add] at hothers
  obtain ⟨element, after, rfl, helement, -⟩ := split_of_place hothers
  have hstart' := start_of_place (helement.trans ht)
  have hstop' := stop_of_place (helement.trans hlast)
  rw [← helement, map_token_place] at hwhole
  refine ⟨before, element, after, by rw [List.append_assoc], hwhole, hlength, ?_, ?_⟩
  · rw [← hstart', hstart]
  · rw [← hstop, hstop', ← hstart', hstart]

/-- An element between two texts, and the text that they become without it. -/
structure Excision where
  before : List Piece
  element : List Piece
  after : List Piece
  u : List Char
  v : List Char
  w₁ : List Char
  w₂ : List Char
  w₃ : List Char
  whole : Whole (element.map Piece.token)
  gap₁ : Text.IsMarkupGap w₁
  gap₂ : Text.IsMarkupGap w₂
  gap₃ : Text.IsMarkupGap w₃
  chain : Chain (before ++ [⟨.text (u ++ w₁), u ++ w₁⟩] ++ element ++
    ⟨.text (w₂ ++ v), w₂ ++ v⟩ :: after)

namespace Excision

/-- The pieces with the element. -/
def pieces (x : Excision) : List Piece :=
  x.before ++ [⟨.text (x.u ++ x.w₁), x.u ++ x.w₁⟩] ++ x.element ++
    ⟨.text (x.w₂ ++ x.v), x.w₂ ++ x.v⟩ :: x.after

/-- The pieces without the element. -/
def remaining (x : Excision) : List Piece :=
  x.before ++ ⟨.text (x.u ++ x.w₃ ++ x.v), x.u ++ x.w₃ ++ x.v⟩ :: x.after

/-- How many elements open before the element. -/
def index (x : Excision) : Nat := ((place 0 x.before).filter Event.State.isOpening).length

/-- What remains after an excision is a chain. -/
theorem chain_remaining (x : Excision) : Chain x.remaining := by
  have hbefore := x.chain.left.left
  have hafter := x.chain.right
  have hno : ∀ {cs : List Char} {p : Piece}, p.Spelled → p = ⟨.text cs, cs⟩ → '<' ∉ cs := by
    rintro cs p hspelled rfl
    cases hspelled with
    | text _ hno => exact hno
    | markup ht _ => cases ht
  have hu := hno (hbefore.spelled _ (List.mem_append_right _ List.mem_cons_self)) rfl
  have hv := hno (hafter.spelled _ List.mem_cons_self) rfl
  have hw := x.gap₃.not_mem (show Text.isMarkupBlank '<' = false from rfl)
  rw [List.mem_append, not_or] at hu hv
  refine hbefore.retext ?_ ?_ hafter
  · exact List.append_ne_nil_of_left_ne_nil (List.append_ne_nil_of_right_ne_nil _ x.gap₃.1) _
  · simp [hu.1, hw, hv.2]

end Excision

/-- The source of an element ends with `>`. -/
theorem getLast?_of_whole {pieces : List Piece} (h : Chain pieces)
    (hwhole : Whole (pieces.map Piece.token)) : (join pieces).getLast? = some '>' := by
  have hlast : ∃ init last, pieces.map Piece.token = init ++ [last] ∧ last.isMarkup = true := by
    generalize pieces.map Piece.token = tokens at hwhole
    cases hwhole with
    | single => exact ⟨[], _, rfl, rfl⟩
    | paired _ => exact ⟨_ :: _, _, rfl, rfl⟩
  obtain ⟨init, last, htokens, hmarkup⟩ := hlast
  obtain ⟨before, ending, rfl, -, hending⟩ := List.map_eq_append_iff.mp htokens
  obtain ⟨p, rest, rfl, rfl, hrest⟩ := List.map_eq_cons_iff.mp hending
  obtain rfl := List.map_eq_nil_iff.mp hrest
  exact h.getLast?_join hmarkup

section StandsAlone

variable {cs : List Char} {lines : LineRange} {start stop : Nat} {before element after : List Piece}

/-- An element that stands alone on some lines, with markup before and behind them, stands between
blanks: a line feed and what leads to the element, and what is behind it up to the next line. -/
theorem exists_gaps (hchain : Chain (before ++ element ++ after))
    (hjoin : join (before ++ element ++ after) = cs) (hwhole : Whole (element.map Piece.token))
    (hstart : byteSize (join before) = start) (hstop : start + byteSize (join element) = stop)
    (halone : Line.StandsAlone cs lines start stop)
    (hbefore : ∃ p ∈ before, p.token.isMarkup = true)
    (hafter : ∃ p ∈ after, p.token.isMarkup = true) :
    Line.textBehind cs lines ≠ [] ∧ ∃ b lead trail, Line.textBefore cs lines = b ++ ['\n'] ∧
      Text.IsMarkupGap ('\n' :: lead) ∧ Text.IsMarkupGap trail ∧
      join before = b ++ '\n' :: lead ∧ join after = trail ++ Line.textBehind cs lines := by
  rw [join_append, join_append] at hjoin
  obtain ⟨lead, trail, hlead, htrail, hfirst, hon, hlast⟩ :=
    halone.exists_parts hjoin hstart hstop
  -- There is markup before and behind the lines.
  have hin : Line.textBefore cs lines ≠ [] := by
    intro hnil
    obtain ⟨p, hp, hmarkup⟩ := hbefore
    have hmem := hchain.left.left.mem_join hp hmarkup
    rw [hfirst, hnil] at hmem
    cases hlead '<' hmem
  have hin' : Line.textBehind cs lines ≠ [] := by
    intro hnil
    obtain ⟨q, hq, hmarkup⟩ := hafter
    have hmem := hchain.right.mem_join hq hmarkup
    rw [hlast, hnil, List.append_nil] at hmem
    cases htrail '<' hmem
  -- So the lines before them end with a line feed, and so do they, but the element with `>`.
  have hfeed := Line.getLast?_textBefore (Line.last_lt_length hin') hin
  have hfeed' := Line.getLast?_textOn (Line.last_lt_length hin')
    (List.append_ne_nil_of_left_ne_nil hin _)
  have htrail' : trail ≠ [] := by
    rintro rfl
    rw [hon, List.append_nil, ← List.append_assoc, List.getLast?_append,
      getLast?_of_whole hchain.left.right hwhole] at hfeed'
    cases hfeed'
  have hb := (List.dropLast_append_getLast? _ hfeed).symm
  refine ⟨hin', _, lead, trail, hb, ⟨List.cons_ne_nil _ _, ?_⟩, ⟨htrail', htrail⟩, ?_, hlast⟩
  · exact List.forall_mem_cons.mpr ⟨rfl, hlead⟩
  · rw [hfirst, hb, List.append_assoc, List.dropLast_concat]
    rfl

/-- An element that stands alone on some lines, with markup before and behind them, is cut out with
the lines. -/
theorem exists_excision (hchain : Chain (before ++ element ++ after))
    (hjoin : join (before ++ element ++ after) = cs) (hwhole : Whole (element.map Piece.token))
    (hstart : byteSize (join before) = start) (hstop : start + byteSize (join element) = stop)
    (halone : Line.StandsAlone cs lines start stop)
    (hbefore : ∃ p ∈ before, p.token.isMarkup = true)
    (hafter : ∃ p ∈ after, p.token.isMarkup = true) :
    Line.textBefore cs lines ≠ [] ∧ Line.textBehind cs lines ≠ [] ∧ ∃ x : Excision,
      x.pieces = before ++ element ++ after ∧
      join x.remaining = Line.textBefore cs lines ++ Line.textBehind cs lines ∧
      x.index = ((place 0 before).filter Event.State.isOpening).length := by
  obtain ⟨hbehind, b, lead, trail, hb, hgap₁, hgap₂, hfirst, hlast⟩ :=
    exists_gaps hchain hjoin hwhole hstart hstop halone hbefore hafter
  obtain ⟨before, u, rfl, rfl⟩ := hchain.left.left.text_last hfirst hgap₁.1 (hgap₁.not_mem rfl)
  obtain ⟨v, after, rfl, hv⟩ := hchain.right.text_first hlast hgap₂.1 (hgap₂.not_mem rfl)
  have hgap₃ : Text.IsMarkupGap ['\n'] := ⟨List.cons_ne_nil _ _, by simp [Text.isMarkupBlank]⟩
  refine ⟨by simp [hb], hbehind, ⟨before, element, after, u, v, _, trail, ['\n'], hwhole, hgap₁,
    hgap₂, hgap₃, hchain⟩, rfl, ?_, ?_⟩
  · rw [hb, hv, Excision.remaining, join_append, join_cons]
    simp
  · rw [Excision.index, place_append, List.filter_append]
    simp [place, Event.State.isOpening]

end StandsAlone

end Markup.Token

end XmlCompare
