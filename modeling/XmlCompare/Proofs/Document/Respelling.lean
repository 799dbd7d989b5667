import XmlCompare.Proofs.Document.Lineless
import XmlCompare.Proofs.Document.Padding
import XmlCompare.Proofs.Document.Part
import XmlCompare.Proofs.Document.Relocation
import XmlCompare.Proofs.Markup.Respelling

/-!
# The same document spelled in another way

If a token of a document is spelled in another way, the pieces before it and behind it stay, and
what counts is what the new pieces do in its place. Character data does what a section with the same
characters does, except that no piece is read where there are no characters: then an empty text is
missing, which no document shows. A start tag with an end tag behind it does what a single tag does,
but for the line on which the element ends.
-/

set_option autoImplicit false

namespace XmlCompare

open Event (State)
open Event.State (Steps step_eq_ok_iff characters_eq_ok_iff enter_eq_ok_iff)
open Markup (Token)
open Markup.Token (Piece namesAfter?)
open Markup.Token.Piece (join place data pair)
open Text (Resolves byteSize)

/-- A token of a document that is read from a text, between the pieces before it and those behind
it, with the names of the open tags, the states and the events to either side of it. -/
structure Site (text : String) (t : Token) (d : Document) where
  first : List Piece
  spelling : List Char
  last : List Piece
  spelled_first : ∀ p ∈ first, p.Spelled
  spelled : Piece.Spelled ⟨t, spelling⟩
  spelled_last : ∀ p ∈ last, p.Spelled
  toList : text.toList = join first ++ (spelling ++ join last)
  outer : List (List Char)
  inner : List (List Char)
  names_first : (first.map Piece.token).foldlM namesAfter? [] = some outer
  names : namesAfter? outer t = some inner
  names_last : ∃ names, (last.map Piece.token).foldlM namesAfter? inner = some names
  s : State
  s' : State
  final : State
  earlier : List Event
  events : List Event
  later : List Event
  steps_first : Steps text .initial (place 0 first) earlier s
  step : s.step (.ofText text)
    ⟨t, byteSize (join first), byteSize (join first) + byteSize spelling⟩ = .ok (s', events)
  steps_last : Steps text s' (place (byteSize (join first) + byteSize spelling) last) later final
  frames : final.frames = []
  seenRoot : final.seenRoot = true
  document : Document.ofEvents? (earlier ++ (events ++ later)) = some d

namespace Site

variable {text text' : String} {t : Token} {d d' : Document}

/-- A token of a document has a site. -/
theorem exists_of_mem {before after : List Char} {stop : Nat}
    (hmark : text.toList.head? ≠ some '\ufeff') (hparse : Document.parse text = .ok d)
    (htext : text.toList = before ++ after)
    (ht : ⟨t, byteSize before, stop⟩ ∈ (Token.readAll text).items) :
    ∃ x : Site text t d, join x.first = before ∧ x.spelling ++ join x.last = after := by
  obtain ⟨events, hevents, hd⟩ := Document.parse_eq_ok_iff.mp hparse
  obtain ⟨hfault, final, hsteps, hframes, hroot⟩ := Event.toExcept_ofTokens_eq_ok_iff.mp hevents
  obtain ⟨first, spelling, last, hchain, hfirst, hrest, hitems⟩ :=
    Token.exists_split hmark hfault htext ht
  obtain ⟨hspelled₁, hspelled₂⟩ := List.forall_mem_append.mp hchain.spelled
  obtain ⟨hspelled, hspelled₂⟩ := List.forall_mem_cons.mp hspelled₂
  have hjoin : join (first ++ ⟨t, spelling⟩ :: last) = Token.dropByteOrderMark text.toList := by
    rw [Token.dropByteOrderMark_eq_self hmark, Piece.join_append, Piece.join_cons, hfirst, htext,
      ← hrest]
  obtain ⟨names, hnames⟩ := (Token.readAll_of_chain hchain hjoin).mp hfault
  rw [List.map_append, List.foldlM_append] at hnames
  obtain ⟨outer, houter, hnames⟩ := Option.bind_eq_some_iff.mp hnames
  rw [List.map_cons, List.foldlM_cons] at hnames
  obtain ⟨inner, hinner, hnames⟩ := Option.bind_eq_some_iff.mp hnames
  rw [hitems, Piece.place_append, Nat.zero_add] at hsteps
  obtain ⟨s, earlier, more, rfl, hsteps₁, hsteps⟩ := hsteps.split
  cases hsteps with
  | step hstep hsteps₂ =>
    refine ⟨⟨first, spelling, last, hspelled₁, hspelled, hspelled₂, ?_, outer, inner, houter,
      hinner, ⟨names, hnames⟩, s, _, final, earlier, _, _, hsteps₁, hstep, hsteps₂, hframes, hroot,
      hd⟩, hfirst, hrest⟩
    rw [htext, hfirst, hrest]

variable (x : Site text t d)

/-- To either side of the token the pieces do what they did, if there are as many line feeds in its
place. -/
theorem relocate {found : List Char} (hfeeds : found.count '\n' = x.spelling.count '\n')
    (htext' : text'.toList = join x.first ++ (found ++ join x.last)) :
    Steps text' .initial (place 0 x.first) x.earlier x.s ∧
      Steps text' x.s' (place (byteSize (join x.first) + byteSize found) x.last) x.later
        x.final := by
  constructor
  · have hfirst : Steps text' .initial (place (byteSize []) x.first) x.earlier x.s :=
      Event.State.Steps.relocate x.spelled_first (show text.toList = [] ++ _ from x.toList)
        (show text'.toList = [] ++ _ from htext') rfl x.steps_first
    exact hfirst
  · have hlast := x.steps_last
    have hbehind : text.toList = join x.first ++ x.spelling ++ (join x.last ++ []) := by
      rw [x.toList, List.append_nil, List.append_assoc]
    have hbehind' : text'.toList = join x.first ++ found ++ (join x.last ++ []) := by
      rw [htext', List.append_nil, List.append_assoc]
    rw [← Text.byteSize_append] at hlast ⊢
    refine Event.State.Steps.relocate x.spelled_last hbehind hbehind' ?_ hlast
    rw [List.count_append, List.count_append, hfeeds]

/-- A text with other pieces in the place of the token is a document if they leave the same tags
open and everything can be followed to the end. -/
theorem parse_of_middle {middle : List Piece} (hspelled : ∀ p ∈ middle, p.Spelled)
    (htext' : text'.toList = join x.first ++ (join middle ++ join x.last))
    (hnames : (middle.map Piece.token).foldlM namesAfter? x.outer = some x.inner)
    {events : List Event} {final : State}
    (hsteps : Steps text' .initial (place 0 (x.first ++ (middle ++ x.last))) events final)
    (hframes : final.frames = []) (hroot : final.seenRoot = true)
    (hd' : Document.ofEvents? events = some d') : Document.parse text' = .ok d' := by
  obtain ⟨names, hlast⟩ := x.names_last
  have hall : ∀ p ∈ x.first ++ (middle ++ x.last), p.Spelled :=
    List.forall_mem_append.mpr ⟨x.spelled_first,
      List.forall_mem_append.mpr ⟨hspelled, x.spelled_last⟩⟩
  have hjoin : join (x.first ++ (middle ++ x.last)) = text'.toList := by
    rw [Piece.join_append, Piece.join_append, htext']
  have htags : ((x.first ++ (middle ++ x.last)).map Piece.token).foldlM namesAfter? [] =
      some names := by
    rw [List.map_append, List.map_append, List.foldlM_append, x.names_first]
    refine Eq.trans ?_ hlast
    rw [Option.bind_eq_bind, Option.bind_some, List.foldlM_append, hnames]
    rfl
  exact Document.parse_of_steps hall hjoin htags hsteps hframes hroot hd'

end Site

/-! ## Sections -/

namespace Event.State

variable {lines : LineTable} {s s' : State} {events : List Event} {raw body : List Char}
  {start stop : Nat}

/-- A step over a character section stays in the same state. -/
theorem characters_of_step (h : s.step lines ⟨.cdata body, start, stop⟩ = .ok (s', events)) :
    s' = s ∧ s.characters lines start body = .ok events := by
  cases step_eq_ok_iff.mp h with
  | cdata hchars => exact ⟨rfl, hchars⟩

/-- Character data does to a tree what a section with the same characters does. -/
theorem exists_steps_data (hraw : Resolves raw body)
    (h : s.characters lines start body = .ok events) (text : String) (start' : Nat) :
    ∃ events', Steps text s (place start' (data raw)) events' s ∧
      ∀ earlier later, Document.ofEvents? (earlier ++ (events' ++ later)) =
        Document.ofEvents? (earlier ++ (events ++ later)) := by
  unfold data
  split
  · rename_i hnil
    subst hnil
    cases hraw
    refine ⟨[], .done, fun earlier later => ?_⟩
    rcases characters_eq_ok_iff.mp h with ⟨-, rfl⟩ | ⟨-, -, rfl⟩
    · exact (Document.ofEvents?_empty_text earlier later).symm
    · rfl
  · have hchars : s.characters (.ofText text) start' body = .ok events :=
      characters_of_characters h
    have hstep : s.step (.ofText text) ⟨.text raw, start', start' + byteSize raw⟩ =
        .ok (s, events) := step_eq_ok_iff.mpr (.text (Text.unescape_eq_ok_iff.mpr hraw) hchars)
    refine ⟨events ++ [], .step hstep .done, fun earlier later => ?_⟩
    rw [List.append_nil]

end Event.State

/-- A text is the same document, with the same lines, if a section in it is written as character
data that stands for the same characters and has as many line feeds. -/
theorem Document.parse_of_section {text text' : String} {d : Document}
    {before body raw after : List Char} {stop : Nat} (hmark : text.toList.head? ≠ some '\ufeff')
    (hparse : parse text = .ok d)
    (htext : text.toList = before ++ ("<![CDATA[".toList ++ body ++ "]]>".toList ++ after))
    (hsection : ⟨.cdata body, byteSize before, stop⟩ ∈ (Token.readAll text).items)
    (htext' : text'.toList = before ++ (raw ++ after)) (hno : '<' ∉ raw) (hraw : Resolves raw body)
    (hfeeds : raw.count '\n' = body.count '\n') : parse text' = .ok d := by
  obtain ⟨x, rfl, hrest⟩ := Site.exists_of_mem hmark hparse htext hsection
  have hspelling := Piece.spelling_of_cdata x.spelled
  rw [hspelling] at hrest
  obtain rfl : join x.last = after := List.append_cancel_left hrest
  have hjoin := Piece.join_data raw
  have hcount : raw.count '\n' = x.spelling.count '\n' := by
    rw [hspelling]
    simp [hfeeds]
  obtain ⟨hfirst, hlast⟩ := x.relocate hcount htext'
  obtain ⟨hstate, hchars⟩ := Event.State.characters_of_step x.step
  obtain ⟨made, hmiddle, hmade⟩ :=
    Event.State.exists_steps_data hraw hchars text' (byteSize (join x.first))
  rw [hstate, ← hjoin] at hlast
  refine x.parse_of_middle (Piece.spelled_data hno) ?_ ?_ ?_ x.frames x.seenRoot
    ((hmade _ _).trans x.document)
  · rw [hjoin]
    exact htext'
  · rw [Piece.namesAfter?_data]
    exact x.names
  · rw [Piece.place_append, Piece.place_append, Nat.zero_add]
    exact hfirst.append (hmiddle.append hlast)

/-! ## Single tags -/

namespace Event.State

variable {lines : LineTable} {s s' r : State} {events : List Event} {content : List Char}
  {start stop : Nat}

/-- A step over a single tag opens an element and closes it on the same line. -/
theorem enter_of_step (h : s.step lines ⟨.emptyTag content, start, stop⟩ = .ok (s', events)) :
    ∃ s₁ e ended, s.enter lines start content = .ok (s₁, e) ∧
      s₁.leave lines start = .ok (s', ended) ∧ events = [.opened e, .closed ended] := by
  cases step_eq_ok_iff.mp h with
  | emptyTag henter hleave => exact ⟨_, _, _, henter, hleave, rfl⟩

/-- A start tag and an end tag do what a single tag does, but for paths and lines. -/
theorem Same.pair (h : s.Same r)
    (hstep : s.step lines ⟨.emptyTag content, start, stop⟩ = .ok (s', events)) (text : String)
    (start' : Nat) : ∃ r' events',
      Steps text r (place start' (pair content)) events' r' ∧ s'.Same r' ∧
        List.Forall₂ Event.Same events events' := by
  obtain ⟨s₁, e, ended, henter, hleave, rfl⟩ := enter_of_step hstep
  obtain ⟨r₁, e', henter', hsame, hopened⟩ := h.enter henter (.ofText text) start'
  obtain ⟨r', ended', hleave', hsame', hclosed⟩ := hsame.leave hleave (.ofText text)
    (start' + byteSize (Piece.startTag content).spelling +
      byteSize (Piece.endTag (Markup.Tag.name content)).spelling - 1)
  exact ⟨r', _, .step (step_eq_ok_iff.mpr (.startTag henter'))
    (.step (step_eq_ok_iff.mpr (.endTag hleave')) .done), hsame',
    .cons hopened (.cons hclosed .nil)⟩

end Event.State

/-- A text is the same document but for lines, if a single tag in it is written as a start tag with
an end tag behind it, as long as its name can stand in an end tag and holds no slash. -/
theorem Document.exists_parse_of_pair {text text' : String} {d : Document}
    {before content after : List Char} {stop : Nat} (hmark : text.toList.head? ≠ some '\ufeff')
    (hparse : parse text = .ok d)
    (htext : text.toList = before ++ ('<' :: (content ++ "/>".toList) ++ after))
    (htag : ⟨.emptyTag content, byteSize before, stop⟩ ∈ (Token.readAll text).items)
    (htext' : text'.toList = before ++ ('<' :: (content ++ ['>']) ++
      ("</".toList ++ Markup.Tag.name content ++ ['>'] ++ after)))
    (hname : ∀ c ∈ Markup.Tag.name content, c ≠ '/' ∧ c ≠ '"' ∧ c ≠ '\'') :
    ∃ d', parse text' = .ok d' ∧ d'.withoutLines = d.withoutLines := by
  obtain ⟨x, rfl, hrest⟩ := Site.exists_of_mem hmark hparse htext htag
  rw [Piece.spelling_of_emptyTag x.spelled] at hrest
  obtain rfl : join x.last = after := List.append_cancel_left hrest
  obtain ⟨s₁, e, -, henter, -⟩ := Event.State.enter_of_step x.step
  obtain ⟨-, hattributes, -⟩ := enter_eq_ok_iff.mp henter
  -- Everything is followed in the other text, where at most paths and lines are not the same.
  obtain ⟨r, earlier, hfirst, hsame, hsames⟩ :=
    (State.Same.refl .initial).steps x.steps_first text' rfl
  obtain ⟨r₁, made, hmiddle, hsame₁, hsames₁⟩ := hsame.pair x.step text' (byteSize (join x.first))
  obtain ⟨final, later, hlast, hsame₂, hsames₂⟩ := hsame₁.steps x.steps_last text'
    (Piece.map_token_place_congr _
      (byteSize (join x.first) + byteSize (join (pair content))) x.last)
  have hsteps : Steps text' .initial (place 0 (x.first ++ (pair content ++ x.last)))
      (earlier ++ (made ++ later)) final := by
    rw [Piece.place_append, Piece.place_append, Nat.zero_add]
    exact hfirst.append (hmiddle.append hlast)
  -- The paths follow from the names, so it is at most lines that are not the same.
  have hevents := (State.Aligned.refl .initial).run
    (Event.State.run_of_steps (x.steps_first.append (.step x.step x.steps_last))).1
    (Event.State.run_of_steps hsteps).1
    (List.rel_append hsames (List.rel_append hsames₁ hsames₂))
  obtain ⟨d', hd', hlines⟩ := exists_of_aligned hevents x.document
  refine ⟨d', x.parse_of_middle (Piece.spelled_pair x.spelled hattributes hname) ?_ ?_ hsteps
    (hsame₂.frames_eq_nil_iff.mp x.frames) (hsame₂.seenRoot.symm.trans x.seenRoot) hd', hlines⟩
  · rw [htext']
    simp [pair, join, Piece.startTag, Piece.endTag]
  · rw [Piece.namesAfter?_pair]
    exact x.names

end XmlCompare
