import XmlCompare.Proofs.Document.Excision
import XmlCompare.Proofs.Line.Feeds

/-!
# Where elements begin and end

An element covers the lines from the `<` of its start tag to the `>` of its end tag; one that is a
single tag covers the line of its `<`. What is open before an element remains open while it is read,
so its end tag closes what its start tag has opened, on whatever lines the two stand and whatever
stands between them.
-/

set_option autoImplicit false

namespace XmlCompare

open Markup (PlacedToken Token)
open Markup.Token (Whole depthAfter? extents)
open Markup.Token.Piece (place join)

/-- A last line before the first one makes no difference. -/
theorem LineRange.between_max (first last : Nat) :
    LineRange.between first (max last first) = LineRange.between first last := by
  have hlast : max (max 1 first) (max last first) = max (max 1 first) last := by omega
  simp only [LineRange.between, hlast]

/-- The lines from one offset of a text to another. -/
def LineTable.between (t : LineTable) (first last : Nat) : LineRange :=
  .between (t.line first) (t.line last)

namespace Markup.Token

/-- The tokens of one element with the name in its tag, the offset of its `<`, and the offset whose
line is its last: that of the `>` of its end tag, or again that of its `<` if it is a single tag. -/
inductive Reaches : List PlacedToken → List Char → Nat → Nat → Prop
  | single {content : List Char} {start stop : Nat} :
    Reaches [⟨.emptyTag content, start, stop⟩] (Tag.name content) start start
  | paired {content name : List Char} {start stop start' stop' : Nat} {inner : List PlacedToken} :
    (inner.map PlacedToken.token).foldlM depthAfter? 0 = some 0 →
    Reaches (⟨.startTag content, start, stop⟩ :: (inner ++ [⟨.endTag name, start', stop'⟩]))
      (Tag.name content) start (stop' - 1)

/-- The tokens of a whole element have a name and two offsets to reach between. -/
theorem exists_reaches {tokens : List PlacedToken} (h : Whole (tokens.map PlacedToken.token)) :
    ∃ name first last, Reaches tokens name first last := by
  generalize htokens : tokens.map PlacedToken.token = whole at h
  cases h with
  | single =>
    obtain ⟨⟨token, start, stop⟩, rest, rfl, rfl, hrest⟩ := List.map_eq_cons_iff.mp htokens
    obtain rfl := List.map_eq_nil_iff.mp hrest
    exact ⟨_, _, _, .single⟩
  | paired hdepth =>
    obtain ⟨⟨token, start, stop⟩, rest, rfl, rfl, hrest⟩ := List.map_eq_cons_iff.mp htokens
    obtain ⟨inner, ending, rfl, rfl, hending⟩ := List.map_eq_append_iff.mp hrest
    obtain ⟨⟨token', start', stop'⟩, nothing, rfl, rfl, hnothing⟩ := List.map_eq_cons_iff.mp hending
    obtain rfl := List.map_eq_nil_iff.mp hnothing
    exact ⟨_, _, _, .paired hdepth⟩

/-- Among some tokens, the element that opens behind `index` others has the given name in its tag
and reaches from one offset to the other. -/
def Stands (tokens : List PlacedToken) (index : Nat) (name : List Char) (first last : Nat) : Prop :=
  ∃ before whole after, tokens = before ++ whole ++ after ∧
    (before.filter Event.State.isOpening).length = index ∧ Reaches whole name first last

/-- An element that stands among some tokens is one of those that open there. -/
theorem lt_of_stands {tokens : List PlacedToken} {index first last : Nat} {name : List Char}
    (h : Stands tokens index name first last) :
    index < (tokens.filter Event.State.isOpening).length := by
  obtain ⟨before, whole, after, rfl, rfl, hreaches⟩ := h
  cases hreaches with
  | single => simp [Event.State.isOpening]
  | paired _ => simp [Event.State.isOpening]

end Markup.Token

open Markup.Token (Reaches Stands)

namespace Event.State

variable {source : String} {s s' : State} {events : List Event}

/-- What was open before some events remains open, if they close only what they have opened. -/
theorem frames_of_run {inner outer : List Frame} {depth : Nat} (h : Run source s events s')
    (hframes : s.frames = inner ++ outer)
    (hdepth : events.foldlM Event.depthAfter? inner.length = some depth) :
    ∃ inner', s'.frames = inner' ++ outer ∧ inner'.length = depth := by
  induction h generalizing inner with
  | done => exact ⟨inner, hframes, Option.some.inj hdepth⟩
  | move hmove _ ih =>
    rw [List.foldlM_cons] at hdepth
    obtain ⟨next, hnext, hdepth⟩ := Option.bind_eq_some_iff.mp hdepth
    cases hmove with
    | opened henter =>
      rename_i start content e
      obtain ⟨-, -, -, -, -, rfl⟩ := enter_eq_ok_iff.mp henter
      obtain rfl := Option.some.inj hnext
      refine @ih (⟨e.name, e.path, e.line⟩ :: inner) ?_ hdepth
      rw [hframes, List.cons_append]
    | closed hleave =>
      obtain ⟨frame, frames, hleft, -, -, rfl⟩ := leave_eq_ok_iff.mp hleave
      cases inner with
      | nil => cases hnext
      | cons innermost inner =>
        obtain rfl := Option.some.inj hnext
        rw [hframes] at hleft
        exact ih (List.cons.inj hleft).2.symm hdepth
    | text _ =>
      obtain rfl := Option.some.inj hnext
      exact ih hframes hdepth
    | comment =>
      obtain rfl := Option.some.inj hnext
      exact ih hframes hdepth

/-- The tokens of an element open it and close it on the lines of the offsets it reaches. -/
theorem lines_of_reaches {tokens : List PlacedToken} {name : List Char} {first last : Nat}
    (h : Steps source s tokens events s') (hreaches : Reaches tokens name first last) :
    ∃ e more ended, events = .opened e :: more ∧ .closed ended ∈ more ∧
      e.name = String.ofList name ∧ ended.path = e.path ∧
      ended.lines = (LineTable.ofText source).between first last := by
  cases hreaches with
  | single =>
    cases step_eq_ok_iff.mp h.single with
    | emptyTag henter hleave =>
      rename_i e ended
      obtain ⟨-, -, hname, -, hline, rfl⟩ := enter_eq_ok_iff.mp henter
      obtain ⟨frame, frames, hframes, hpath, hlines, -⟩ := leave_eq_ok_iff.mp hleave
      obtain ⟨rfl, -⟩ := List.cons.inj hframes
      rw [LineRange.between_max, hline] at hlines
      exact ⟨e, _, ended, rfl, List.mem_cons_self, hname, hpath, hlines⟩
  | paired hdepth =>
    cases h with
    | step hstep h =>
      obtain ⟨s₁, made, more, rfl, hinner, hend⟩ := h.split
      cases step_eq_ok_iff.mp hstep with
      | startTag henter =>
        rename_i e
        obtain ⟨-, -, hname, -, hline, rfl⟩ := enter_eq_ok_iff.mp henter
        cases step_eq_ok_iff.mp hend.single with
        | endTag hleave =>
          rename_i ended
          -- Behind what is inside, the element is the innermost open one again.
          rw [← depth_of_steps hinner] at hdepth
          obtain ⟨inner, hframes', hlength⟩ :=
            frames_of_run (run_of_steps hinner).1 (List.nil_append _).symm hdepth
          obtain rfl := List.eq_nil_of_length_eq_zero hlength
          obtain ⟨frame, frames, hframes, hpath, hlines, -⟩ := leave_eq_ok_iff.mp hleave
          rw [hframes'] at hframes
          obtain ⟨rfl, -⟩ := List.cons.inj hframes
          rw [LineRange.between_max, hline] at hlines
          exact ⟨e, _, ended, rfl, by simp, hname, hpath, hlines⟩

end Event.State

namespace Document

variable {text : String} {d : Document} {x : Element} {index : Nat}

/-- Every element of a document stands somewhere among the tokens. -/
theorem exists_stands (h : parse text = .ok d) (hx : d.elements[index]? = some x) :
    ∃ name first last, Stands (Markup.Token.readAll text).items index name first last := by
  have hextents := extents_of_parse h
  have hlength : index < (extents (Markup.Token.readAll text).items).length := by
    rw [← hextents.length_eq]
    exact (List.getElem?_eq_some_iff.mp hx).1
  have hextent := List.getElem?_eq_getElem hlength
  generalize (extents (Markup.Token.readAll text).items)[index] = extent at hextent
  obtain ⟨start, stop?⟩ := extent
  obtain ⟨-, hstop⟩ := List.forall₂_iff_get.mp hextents |>.2 index
    (by rw [hextents.length_eq]; exact hlength) hlength
  rw [List.get_eq_getElem, (List.getElem?_eq_some_iff.mp hextent).2] at hstop
  obtain ⟨stop, rfl⟩ := Option.isSome_iff_exists.mp hstop
  obtain ⟨before, whole, after, hsplit, hwhole, hcount, -⟩ :=
    Markup.Token.split_of_extents hextent
  obtain ⟨name, first, last, hreaches⟩ := Markup.Token.exists_reaches hwhole
  exact ⟨name, first, last, before, whole, after, hsplit, hcount, hreaches⟩

/-- An element has the name in its tag and covers the lines of the offsets it reaches. -/
theorem lines_of_stands {name : List Char} {first last : Nat} (h : parse text = .ok d)
    (hx : d.elements[index]? = some x)
    (hstands : Stands (Markup.Token.readAll text).items index name first last) :
    x.name = String.ofList name ∧ x.lines = (LineTable.ofText text).between first last := by
  obtain ⟨events, hevents, hd⟩ := parse_eq_ok_iff.mp h
  obtain ⟨-, s, hsteps, hframes, hroot⟩ := Event.toExcept_ofTokens_eq_ok_iff.mp hevents
  obtain ⟨before, whole, after, hsplit, hcount, hreaches⟩ := hstands
  obtain ⟨d', hd', hplaced, hbegun, hfinished⟩ :=
    exists_of_run (Event.State.run_of_steps hsteps).1 hframes hroot
  obtain rfl : d' = d := Option.some.inj (hd'.symm.trans hd)
  rw [hsplit] at hsteps
  obtain ⟨s₂, made, made₃, rfl, hsteps, -⟩ := hsteps.split
  obtain ⟨s₁, made₁, made₂, rfl, hbefore, hwhole⟩ := hsteps.split
  obtain ⟨e, more, ended, rfl, hclosed, hname, hpath, hlines⟩ :=
    Event.State.lines_of_reaches hwhole hreaches
  -- The element is the one that opens here.
  have hlength : (made₁.filterMap Event.opened?).length = index := by
    rw [← (Event.State.run_of_steps hbefore).2.length_eq, hcount]
  rw [elements_eq] at hx
  subst hlength
  have hframe : x.frame = ⟨e.name, e.path, e.line⟩ := by
    have hhere := congrArg (·[(made₁.filterMap Event.opened?).length]?) hbegun
    simpa [hx, List.filterMap_cons, Event.opened?] using hhere
  have hxname : x.name = e.name := congrArg Event.Frame.name hframe
  have hxpath : x.path = e.path := congrArg Event.Frame.path hframe
  -- It has the lines with which it closes, as no other element has its path.
  have hentry : (ended.path, ended.lines) ∈ d'.root.all.map Element.entry := by
    rw [hfinished.mem_iff]
    exact List.mem_filterMap.mpr ⟨.closed ended, by simp [hclosed], rfl⟩
  obtain ⟨y, hy, hyentry⟩ := List.mem_map.mp hentry
  obtain ⟨hypath, hylines⟩ := Prod.mk.inj hyentry
  have hmem := List.mem_of_getElem? hx
  have hsame : y = x := List.inj_on_of_nodup_map (Element.nodup_paths hplaced.inner) hy hmem
    (by rw [hypath, hpath, hxpath])
  rw [← hsame, hylines, hsame]
  exact ⟨hxname.trans hname, hlines⟩

end Document

/-! ## In the text -/

namespace Markup.Token

open Text (byteSize)
open Piece (Chain Spelled join_cons join_append join_singleton place_append)

/-- How an element is written among the pieces of a text: the pieces, how many elements open before
it, the name in its tag, the text before the `<` with which it begins, and the text before the `>`
of its end tag or, if it is a single tag, again before its `<`. -/
inductive Written : List Piece → Nat → List Char → List Char → List Char → Prop
  | single {before after : List Piece} {content body : List Char} :
    Written (before ++ ⟨.emptyTag content, '<' :: body⟩ :: after)
      ((place 0 before).filter Event.State.isOpening).length (Tag.name content)
      (join before) (join before)
  | paired {before inner after : List Piece} {content body name body' : List Char} :
    (inner.map Piece.token).foldlM depthAfter? 0 = some 0 →
    Written (before ++ ⟨.startTag content, '<' :: body⟩ ::
        (inner ++ ⟨.endTag name, body' ++ ['>']⟩ :: after))
      ((place 0 before).filter Event.State.isOpening).length (Tag.name content)
      (join before) (join (before ++ ⟨.startTag content, '<' :: body⟩ :: inner) ++ body')

variable {pieces : List Piece} {index : Nat} {name first last : List Char}

/-- The pieces of an element stand among other ones. -/
theorem stands_of_pieces {before whole : List Piece} {first last : Nat}
    (h : Reaches (place (byteSize (join before)) whole) name first last) (after : List Piece) :
    Stands (place 0 (before ++ (whole ++ after)))
      ((place 0 before).filter Event.State.isOpening).length name first last := by
  refine ⟨_, _, place (byteSize (join before) + byteSize (join whole)) after, ?_, rfl, h⟩
  rw [place_append, place_append, Nat.zero_add, List.append_assoc]

/-- The end of an element lies one byte before the end of its source. -/
theorem byteSize_behind (before inner : List Piece) (t : Token) (spelling body : List Char) :
    byteSize (join (before ++ ⟨t, spelling⟩ :: inner) ++ body) = byteSize (join before) +
      byteSize spelling + byteSize (join inner) + byteSize (body ++ ['>']) - 1 := by
  have hend : byteSize ['>'] = 1 := rfl
  simp only [join_append, join_cons, Text.byteSize_append, hend]
  omega

/-- An element that is written among some pieces stands among their tokens. -/
theorem Written.stands (h : Written pieces index name first last) :
    Stands (place 0 pieces) index name (byteSize first) (byteSize last) := by
  cases h with
  | @single before after content body =>
    have hreaches : Reaches
        (place (byteSize (join before)) [⟨.emptyTag content, '<' :: body⟩])
        (Tag.name content) (byteSize (join before)) (byteSize (join before)) := .single
    exact stands_of_pieces hreaches after
  | @paired before inner after content body name body' hdepth =>
    have hreaches : Reaches
        (place (byteSize (join before))
          (⟨.startTag content, '<' :: body⟩ :: (inner ++ [⟨.endTag name, body' ++ ['>']⟩])))
        (Tag.name content) (byteSize (join before))
        (byteSize (join before) + byteSize ('<' :: body) + byteSize (join inner) +
          byteSize (body' ++ ['>']) - 1) := by
      rw [place, place_append]
      exact .paired (by rw [Piece.map_token_place]; exact hdepth)
    rw [byteSize_behind]
    simpa using stands_of_pieces hreaches after

/-- What is written before the beginning of an element, and before its end, is the text up to there;
the second does not come before the first. -/
theorem Written.split (h : Written pieces index name first last) :
    ∃ rest rest' c, join pieces = first ++ '<' :: rest ∧ join pieces = last ++ c :: rest' ∧
      first <+: last := by
  cases h with
  | @single before after content body =>
    have hjoin : join (before ++ ⟨.emptyTag content, '<' :: body⟩ :: after) =
        join before ++ '<' :: (body ++ join after) := by
      rw [join_append, join_cons, List.cons_append]
    exact ⟨_, _, _, hjoin, hjoin, List.prefix_rfl⟩
  | @paired before inner after content body name body' _ =>
    refine ⟨body ++ join (inner ++ ⟨.endTag name, body' ++ ['>']⟩ :: after), join after, '>',
      ?_, ?_, ?_⟩
    · rw [join_append, join_cons, List.cons_append]
    · simp [join_append, join_cons]
    · rw [join_append, List.append_assoc]
      exact List.prefix_append _ _

/-- Markup begins with `<` and ends with `>`. -/
theorem Piece.Spelled.delimited {t : Token} {spelling : List Char} (h : Spelled ⟨t, spelling⟩)
    (hmarkup : t.isMarkup = true) :
    (∃ body, spelling = '<' :: body) ∧ ∃ body, spelling = body ++ ['>'] := by
  refine ⟨?_, spelling.dropLast, (List.dropLast_append_getLast? _ (h.getLast? hmarkup)).symm⟩
  cases h with
  | text => cases hmarkup
  | markup _ _ => exact ⟨_, rfl⟩

/-- The first token of some pieces is that of the first piece. -/
theorem exists_of_place_cons {start first last : Nat} {t : Token} {rest : List PlacedToken}
    (h : place start pieces = ⟨t, first, last⟩ :: rest) : ∃ spelling more,
      pieces = ⟨t, spelling⟩ :: more ∧ first = start ∧ last = start + byteSize spelling ∧
        place (start + byteSize spelling) more = rest := by
  cases pieces with
  | nil => cases h
  | cons p more =>
    obtain ⟨ht, hrest⟩ := List.cons.inj h
    obtain ⟨rfl, rfl, rfl⟩ := PlacedToken.mk.inj ht
    exact ⟨p.spelling, more, rfl, rfl, rfl, hrest⟩

/-- Where there are no tokens there are no pieces. -/
theorem eq_nil_of_place {start : Nat} (h : place start pieces = []) : pieces = [] := by
  cases pieces with
  | nil => rfl
  | cons p more => cases h

/-- An element that stands among the tokens of a chain is written among its pieces. -/
theorem exists_written {first last : Nat} (hchain : Chain pieces)
    (h : Stands (place 0 pieces) index name first last) :
    ∃ before behind, Written pieces index name before behind ∧
      first = byteSize before ∧ last = byteSize behind := by
  obtain ⟨before, whole, after, hplace, rfl, hreaches⟩ := h
  obtain ⟨left, after, rfl, hleft, rfl⟩ := Piece.split_of_place hplace
  obtain ⟨before, whole, rfl, rfl, rfl⟩ := Piece.split_of_place hleft
  have hspelled := hchain.left.right.spelled
  generalize hwhole : place (0 + byteSize (join before)) whole = tokens at hreaches
  rw [Nat.zero_add] at hwhole
  rw [List.append_assoc]
  cases hreaches with
  | single =>
    obtain ⟨spelling, more, rfl, rfl, -, hmore⟩ := exists_of_place_cons hwhole
    obtain rfl := eq_nil_of_place hmore
    obtain ⟨⟨body, rfl⟩, -⟩ := (hspelled _ List.mem_cons_self).delimited rfl
    exact ⟨_, _, .single, rfl, rfl⟩
  | paired hdepth =>
    obtain ⟨spelling, more, rfl, rfl, -, hmore⟩ := exists_of_place_cons hwhole
    obtain ⟨inner, ending, rfl, rfl, hending⟩ := Piece.split_of_place hmore
    obtain ⟨spelling', nothing, rfl, -, rfl, hnothing⟩ := exists_of_place_cons hending
    obtain rfl := eq_nil_of_place hnothing
    rw [Piece.map_token_place] at hdepth
    obtain ⟨⟨body, rfl⟩, -⟩ := (hspelled _ List.mem_cons_self).delimited rfl
    obtain ⟨-, body', rfl⟩ := (hspelled _ (List.mem_cons_of_mem _ (List.mem_append_right _
      List.mem_cons_self))).delimited rfl
    rw [List.cons_append, List.append_assoc]
    exact ⟨_, _, .paired hdepth, rfl, (byteSize_behind _ _ _ _ _).symm⟩

/-- An element of a chain does not end before it begins. -/
theorem le_of_stands {first last : Nat} (hchain : Chain pieces)
    (h : Stands (place 0 pieces) index name first last) : first ≤ last := by
  obtain ⟨before, behind, hwritten, rfl, rfl⟩ := exists_written hchain h
  obtain ⟨-, -, -, -, -, m, rfl⟩ := hwritten.split
  rw [Text.byteSize_append]
  exact Nat.le_add_right _ _

end Markup.Token

open Markup.Token (Written)

variable {text : String} {d : Document}

/-- If a text without a byte order mark is a document, its tokens are spelled by the pieces of which
it is made, and every element is written among them. It begins on the line that is one more than the
number of line feeds before its `<`, and ends on the line that is one more than the number of line
feeds before the `>` of its end tag, or, if it is a single tag, where it begins. -/
theorem lines_of_written (hmark : text.toList.head? ≠ some '\ufeff')
    (hparse : Document.parse text = .ok d) :
    ∃ pieces, Markup.Token.Piece.Chain pieces ∧ join pieces = text.toList ∧
      (Markup.Token.readAll text).items = place 0 pieces ∧
      ∀ i x, d.elements[i]? = some x → (∃ name first last, Written pieces i name first last) ∧
        ∀ name first last, Written pieces i name first last → x.name = String.ofList name ∧
          x.lines.first = 1 + first.count '\n' ∧ x.lines.last = 1 + last.count '\n' := by
  obtain ⟨events, hevents, -⟩ := Document.parse_eq_ok_iff.mp hparse
  obtain ⟨hfault, -⟩ := Event.toExcept_ofTokens_eq_ok_iff.mp hevents
  obtain ⟨pieces, hchain, hjoin, hitems⟩ := Markup.Token.exists_pieces hfault
  rw [Markup.Token.dropByteOrderMark_eq_self hmark] at hjoin
  refine ⟨pieces, hchain, hjoin, hitems, fun i x hx => ⟨?_, ?_⟩⟩
  · obtain ⟨name, first, last, hstands⟩ := Document.exists_stands hparse hx
    rw [hitems] at hstands
    obtain ⟨before, behind, hwritten, -⟩ := Markup.Token.exists_written hchain hstands
    exact ⟨name, before, behind, hwritten⟩
  · intro name first last hwritten
    have hstands := hwritten.stands
    rw [← hitems] at hstands
    obtain ⟨hname, hlines⟩ := Document.lines_of_stands hparse hx hstands
    obtain ⟨rest, rest', c, hfirst, hlast, hfront⟩ := hwritten.split
    rw [LineTable.between, LineTable.line_of_split (hjoin.symm.trans hfirst),
      LineTable.line_of_split (hjoin.symm.trans hlast)] at hlines
    have hle : 1 + first.count '\n' ≤ 1 + last.count '\n' :=
      Nat.add_le_add_left (hfront.sublist.count_le _) 1
    obtain ⟨hfirst', hlast'⟩ := LineRange.between_of_le (Nat.le_add_right 1 _) hle
    rw [hlines]
    exact ⟨hname, hfirst', hlast'⟩

/-- A list whose only item is a single tag that goes on for two lines. -/
def spreadItem : Document where
  prolog := []
  root := .mk ⟨"r", .bare "r", ⟨[⟨"r", 1⟩]⟩, .between 1 4, .empty, .empty⟩
    [.element (.mk ⟨"i", .bare "i", ⟨[⟨"r", 1⟩, ⟨"i", 1⟩]⟩, .between 2 2, .empty, .empty⟩ [])]
  epilog := []

/-- The item ends on the line where it begins. -/
theorem lines_of_spread_item :
    "<r>\n <i\n/>\n</r>".toList.head? ≠ some '\ufeff' ∧
    Document.parse "<r>\n <i\n/>\n</r>" = .ok spreadItem ∧
    ∃ pieces, Markup.Token.Piece.Chain pieces ∧ join pieces = "<r>\n <i\n/>\n</r>".toList ∧
      (Markup.Token.readAll "<r>\n <i\n/>\n</r>").items = place 0 pieces ∧
      ∀ i x, spreadItem.elements[i]? = some x →
        (∃ name first last, Written pieces i name first last) ∧
        ∀ name first last, Written pieces i name first last → x.name = String.ofList name ∧
          x.lines.first = 1 + first.count '\n' ∧ x.lines.last = 1 + last.count '\n' := by
  have hmark : "<r>\n <i\n/>\n</r>".toList.head? ≠ some '\ufeff' := by decide
  have hparse : Document.parse "<r>\n <i\n/>\n</r>" = .ok spreadItem := by decide
  exact ⟨hmark, hparse, lines_of_written hmark hparse⟩

end XmlCompare
