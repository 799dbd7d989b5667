import XmlCompare.Proofs.Document.Agreement
import XmlCompare.Proofs.Document.Thinning
import XmlCompare.Proofs.Markup.Excision
import XmlCompare.Proofs.Text.References

/-!
# A document without one element

If an element is cut out of a text between two pieces of character data that meet in blanks there,
what is left is a document, and it agrees with the document of the whole text without the element.
The end tags still match, as those of the element match among themselves; and the events before and
behind the element are the same but for paths and lines, so the two trees grow side by side.
-/

set_option autoImplicit false

namespace XmlCompare

open Markup (PlacedToken Token)
open Markup.Token (Excision Whole namesAfter?)
open Markup.Token.Piece (join place place_append)
open Text (Resolves)

namespace Markup.Token

/-- A text is read without a fault if it is a chain of pieces in which the end tags match. -/
theorem readAll_of_chain {text : String} {pieces : List Piece} (hchain : Piece.Chain pieces)
    (hjoin : join pieces = dropByteOrderMark text.toList) :
    (readAll text).fault? = none ↔
      ∃ names, (pieces.map Piece.token).foldlM namesAfter? [] = some names := by
  obtain ⟨hfault, hitems⟩ := readFrom_join hchain 0
  rw [readAll, ← hjoin, matchTags_ok_iff, hitems, Piece.map_token_place]
  exact and_iff_right hfault

/-- A text that is read without fault has the tokens of the pieces that make it up. -/
theorem items_readAll {text : String} {pieces : List Piece} (hchain : Piece.Chain pieces)
    (hjoin : join pieces = dropByteOrderMark text.toList)
    (h : (readAll text).fault? = none) : (readAll text).items = place 0 pieces := by
  rw [readAll, ← hjoin] at h ⊢
  rw [items_matchTags h, (readFrom_join hchain 0).2]

/-- A text that begins with something else loses no mark. -/
theorem dropByteOrderMark_eq_self {cs : List Char} (h : cs.head? ≠ some '\ufeff') :
    dropByteOrderMark cs = cs := by
  cases cs with
  | nil => rfl
  | cons c rest =>
    have hc : c ≠ '\ufeff' := fun heq => h (congrArg some heq)
    exact if_neg hc

/-- A text that is read without a fault is a chain of pieces. -/
theorem exists_pieces {text : String} (h : (readAll text).fault? = none) : ∃ pieces,
    Piece.Chain pieces ∧ join pieces = dropByteOrderMark text.toList ∧
      (readAll text).items = place 0 pieces := by
  obtain ⟨pieces, hchain, hjoin, -⟩ := exists_chain _ (matchTags_ok_iff.mp h).1
  exact ⟨pieces, hchain, hjoin, items_readAll hchain hjoin h⟩

/-- Without the element the end tags match as before. -/
theorem Excision.names (x : Excision) {names : List (List Char)}
    (h : (x.pieces.map Piece.token).foldlM namesAfter? [] = some names) :
    (x.remaining.map Piece.token).foldlM namesAfter? [] = some names := by
  rw [Excision.pieces, List.map_append, List.map_append, List.map_append, List.foldlM_append,
    List.foldlM_append, List.foldlM_append] at h
  obtain ⟨around, h, hafter⟩ := Option.bind_eq_some_iff.mp h
  obtain ⟨outer, h, helement⟩ := Option.bind_eq_some_iff.mp h
  obtain ⟨names', hbefore, hfirst⟩ := Option.bind_eq_some_iff.mp h
  obtain rfl := Option.some.inj hfirst
  obtain rfl := x.whole.names helement
  rw [Excision.remaining, List.map_append, List.foldlM_append]
  exact Option.bind_eq_some_iff.mpr ⟨_, hbefore, hafter⟩

end Markup.Token

namespace Event.State

variable {source : String} {s s' : State} {events : List Event}

/-- A step over character data that succeeds resolves it and stays in the same state. -/
theorem text_of_step {lines : LineTable} {raw : List Char} {start stop : Nat}
    (h : s.step lines ⟨.text raw, start, stop⟩ = .ok (s', events)) : s' = s ∧
      ∃ content, Resolves raw content ∧
        (s.frames ≠ [] → events = [.text (String.ofList content)]) := by
  cases step_eq_ok_iff.mp h with
  | text hraw hchars =>
    refine ⟨rfl, _, Text.unescape_eq_ok_iff.mp hraw, fun hopen => ?_⟩
    rcases characters_eq_ok_iff.mp hchars with ⟨-, rfl⟩ | ⟨hnil, -⟩
    · rfl
    · exact absurd hnil hopen

/-- Character data inside an element can be taken if it resolves. -/
theorem step_of_text {raw content : List Char} (h : Resolves raw content) (hopen : s.frames ≠ [])
    (lines : LineTable) (start stop : Nat) :
    s.step lines ⟨.text raw, start, stop⟩ = .ok (s, [.text (String.ofList content)]) :=
  step_eq_ok_iff.mpr (.text (Text.unescape_eq_ok_iff.mpr h)
    (characters_eq_ok_iff.mpr (.inl ⟨hopen, rfl⟩)))

/-- A run over character data stays in the same state. -/
theorem eq_of_texts {tokens : List PlacedToken} (h : Steps source s tokens events s')
    (htexts : ∀ t ∈ tokens, t.token.isMarkup = false) : s' = s := by
  induction h with
  | done => rfl
  | @step s s₁ s' t tokens events more hstep _ ih =>
    obtain ⟨ht, hrest⟩ := List.forall_mem_cons.mp htexts
    obtain ⟨token, start, stop⟩ := t
    cases token with
    | text raw =>
      obtain ⟨rfl, -⟩ := text_of_step hstep
      exact ih hrest
    | _ => cases ht

/-- Before an element that is not the first one there is markup, and behind it too. -/
theorem markup_around {tokens whole tokens' : List PlacedToken}
    (h : Steps source .initial (tokens ++ whole ++ tokens') events s') (hframes : s'.frames = [])
    (hwhole : Whole (whole.map PlacedToken.token)) (hindex : 0 < (tokens.filter isOpening).length) :
    (∃ t ∈ tokens, t.token.isMarkup = true) ∧ ∃ t ∈ tokens', t.token.isMarkup = true := by
  obtain ⟨s₂, made, last, rfl, h, hlast⟩ := h.split
  obtain ⟨s₁, first, element, rfl, hfirst, helement⟩ := h.split
  constructor
  · obtain ⟨t, ht⟩ := List.exists_mem_of_length_pos hindex
    obtain ⟨ht, htag⟩ := List.mem_filter.mp ht
    refine ⟨t, ht, ?_⟩
    unfold isOpening at htag
    split at htag
    · rename_i htoken
      rw [htoken]
      rfl
    · rename_i htoken
      rw [htoken]
      rfl
    · cases htag
  · obtain ⟨-, hopen, -⟩ := open_of_whole helement hwhole (seenRoot_of_steps hfirst hindex)
    by_contra hnone
    have htexts : ∀ t ∈ tokens', t.token.isMarkup = false := by
      intro t ht
      rw [← Bool.not_eq_true]
      exact fun hmarkup => hnone ⟨t, ht, hmarkup⟩
    rw [eq_of_texts hlast htexts] at hframes
    exact hopen hframes

/-- What is made of a text from which an element is cut out: the same before and behind it, and one
text in the place of the element and the two texts next to it. -/
theorem steps_of_excision (x : Excision) (hindex : 0 < x.index)
    (h : Steps source .initial (place 0 x.pieces) events s') (source' : String) :
    ∃ e made r, Excised source e x.index events made ∧
      Steps source' .initial (place 0 x.remaining) made r ∧ s'.Same r := by
  have hamp : Text.isMarkupBlank '&' = false := rfl
  have hsemi : Text.isMarkupBlank ';' = false := rfl
  rw [Excision.pieces, place_append, place_append, place_append] at h
  obtain ⟨s₂, made, last, rfl, h, hlast⟩ := h.split
  obtain ⟨s₁, made, element, rfl, h, helement⟩ := h.split
  obtain ⟨s, before, first, rfl, hbefore, hfirst⟩ := h.split
  obtain ⟨rfl, content, hcontent, hfirst⟩ := text_of_step hfirst.single
  cases hlast with
  | @step _ s₃ _ _ _ second after hsecond hafter =>
  obtain ⟨rfl, content', hcontent', hsecond⟩ := text_of_step hsecond
  -- An element has opened before, so the element is inside an open one, and so is what follows.
  have hwhole : Whole ((place (0 + Text.byteSize (Markup.Token.Piece.join
      (x.before ++ [⟨.text (x.u ++ x.w₁), x.u ++ x.w₁⟩]))) x.element).map PlacedToken.token) := by
    rw [Markup.Token.Piece.map_token_place]
    exact x.whole
  obtain ⟨hrun, hopens⟩ := run_of_steps hbefore
  have hlength : (before.filterMap opened?).length = x.index := hopens.length_eq.symm
  have hseen := seenRoot_of_steps hbefore hindex
  obtain ⟨e, inner, ended, rfl, hdepth⟩ := events_of_whole helement hwhole
  obtain ⟨hopen, hopen', hseen'⟩ := open_of_whole helement hwhole hseen
  have hframes := frames_of_whole helement hwhole
  obtain rfl := hfirst hopen
  obtain rfl := hsecond hopen'
  -- The blanks belong to no reference, so they are there in the texts.
  obtain ⟨u, rfl, hu⟩ := hcontent.of_append_plain (x.gap₁.not_mem hamp) (x.gap₁.not_mem hsemi)
  obtain ⟨v, rfl, hv⟩ := hcontent'.of_plain_append (x.gap₂.not_mem hamp)
  have hjoined := (hu.append (Text.resolves_self (x.gap₃.not_mem hamp))).append hv
  -- The other text is followed to the element and on from there.
  obtain ⟨r, before', hbefore', hsame, hsames⟩ := (Same.refl .initial).steps hbefore source' rfl
  have hopen'' : r.frames ≠ [] := hsame.frames_eq_nil_iff.not.mp hopen
  have hsame' : s₃.Same r :=
    ⟨hframes.trans hsame.frames, hseen'.trans (hseen.symm.trans hsame.seenRoot)⟩
  obtain ⟨r', after', hafter', hsame'', hsames'⟩ := hsame'.steps hafter source'
    (Markup.Token.Piece.map_token_place_congr _ _ _)
  refine ⟨e, before' ++ [.text (String.ofList (u ++ x.w₃ ++ v))] ++ after', r', ?_, ?_, hsame''⟩
  · have hrejoined : Text.Rejoined (String.ofList (u ++ x.w₁)).toList
        (String.ofList (x.w₂ ++ v)).toList (String.ofList (u ++ x.w₃ ++ v)).toList := by
      simp only [String.toList_ofList]
      exact .intro x.gap₁.isGap x.gap₂.isGap x.gap₃.isGap
    have hexcised : Excised source e x.index (before ++ ([.text (String.ofList (u ++ x.w₁))] ++
        (.opened e :: (inner ++ [.closed ended])) ++ [.text (String.ofList (x.w₂ ++ v))]) ++ after)
        (before' ++ [.text (String.ofList (u ++ x.w₃ ++ v))] ++ after') :=
      .intro hrun hopen hlength hdepth hrejoined hsames hsames'
    simpa using hexcised
  · rw [Excision.remaining, place_append, List.append_assoc before']
    exact hbefore'.append (.step (step_of_text hjoined hopen'' _ _ _) hafter')

end Event.State

namespace Document

variable {text : String} {c d : Document}

/-- Every element of a document stands somewhere in the text, from a place on its first line to one
where it ends. -/
theorem extents_of_parse (h : parse text = .ok d) :
    List.Forall₂ (fun x extent => x.lines.first = (LineTable.ofText text).line extent.1 ∧
      extent.2.isSome = true) d.elements
      (Markup.Token.extents (Markup.Token.readAll text).items) := by
  obtain ⟨events, hevents, -⟩ := parse_eq_ok_iff.mp h
  obtain ⟨-, s, hsteps, hframes, -⟩ := Event.toExcept_ofTokens_eq_ok_iff.mp hevents
  have hdepth := Event.State.depth_of_run (Event.State.run_of_steps hsteps).1
  rw [Event.State.depth_of_steps hsteps, hframes] at hdepth
  have hends := Markup.Token.isSome_of_mem_extents hdepth
  obtain ⟨-, htags, -⟩ := index_of_parse h
  have hstarts : List.Forall₂ (fun x start => x.lines.first = (LineTable.ofText text).line start)
      d.root.all ((startTags text).map PlacedToken.start) := by
    rw [List.forall₂_map_right_iff]
    refine htags.flip.imp ?_
    rintro x t ⟨content, -, -, hline⟩
    exact hline
  rw [startTags, ← Markup.Token.starts_of_extents, List.forall₂_map_right_iff] at hstarts
  rw [Document.elements_eq]
  have hboth := (List.forall₂_and_left _ _).mpr ⟨hends, hstarts.flip⟩
  exact hboth.flip.imp fun _ _ h => ⟨h.2, h.1⟩

/-- The root of a document is the one that its events have grown. -/
theorem root_of_events {events : List Event} (h : ofEvents? events = some d) :
    (events.foldl Growth.step .initial).root = some d.root := by
  obtain ⟨root, hroot, rfl⟩ := Option.map_eq_some_iff.mp h
  exact hroot

/-- Events that have grown a root describe a document with that root. -/
theorem exists_of_root {events : List Event} {root : Element}
    (h : (events.foldl Growth.step .initial).root = some root) :
    ∃ d, ofEvents? events = some d ∧ d.root = root := by
  rw [ofEvents?, h]
  exact ⟨_, rfl, rfl⟩

/-- The elements of a document have the paths with which they open. -/
theorem paths_of_run {source : String} {events : List Event} {s : Event.State}
    (hrun : Event.State.Run source .initial events s) (hframes : s.frames = [])
    (hroot : s.seenRoot = true) (hd : ofEvents? events = some d) : d.Placed ∧
      d.root.all.map Element.path = (events.filterMap Event.opened?).map OpenedElement.path := by
  obtain ⟨d', hd', hplaced, hbegun, -⟩ := exists_of_run hrun hframes hroot
  obtain rfl : d' = d := Option.some.inj (hd'.symm.trans hd)
  have hpaths := congrArg (List.map Event.Frame.path) hbegun
  rw [List.map_map, List.map_map] at hpaths
  exact ⟨hplaced, hpaths⟩

/-- A text from which an element is cut out is a document, and agrees with the document of the whole
text without the element. -/
theorem parse_of_excision {control result : String} {e : Element} (x : Excision)
    (hcontrol : parse control = .ok c)
    (hjoin : Markup.Token.Piece.join x.pieces = Markup.Token.dropByteOrderMark control.toList)
    (hjoin' : Markup.Token.Piece.join x.remaining = Markup.Token.dropByteOrderMark result.toList)
    (hindex : 0 < x.index) (he : c.root.all[x.index]? = some e) :
    ∃ d, parse result = .ok d ∧ (c.root.without e.path).Agree d.root := by
  obtain ⟨events, hevents, hc⟩ := parse_eq_ok_iff.mp hcontrol
  obtain ⟨hfault, s', hsteps, hframes, hroot⟩ := Event.toExcept_ofTokens_eq_ok_iff.mp hevents
  obtain ⟨names, hnames⟩ := (Markup.Token.readAll_of_chain x.chain hjoin).mp hfault
  rw [Markup.Token.items_readAll x.chain hjoin hfault] at hsteps
  obtain ⟨hplaced, hpaths⟩ := paths_of_run (Event.State.run_of_steps hsteps).1 hframes hroot hc
  obtain ⟨opening, made, r, hexcised, hsteps', hsame⟩ :=
    Event.State.steps_of_excision x hindex hsteps result
  have hpath : e.path = opening.path := by
    have hhere := congrArg (·[x.index]?) hpaths
    simpa [he, hexcised.opened] using hhere
  have hnodup := Element.nodup_paths hplaced.inner
  rw [hpaths] at hnodup
  have hgrown := (hexcised.thinned hnodup).root
  rw [root_of_events hc, ← hpath] at hgrown
  cases hfound : (made.foldl Growth.step .initial).root with
  | none =>
    rw [hfound] at hgrown
    cases hgrown
  | some root =>
    rw [hfound] at hgrown
    cases hgrown with
    | some hagree =>
      have hfault' := (Markup.Token.readAll_of_chain x.chain_remaining hjoin').mpr
        ⟨names, x.names hnames⟩
      rw [← Markup.Token.items_readAll x.chain_remaining hjoin' hfault'] at hsteps'
      obtain ⟨d, hd, rfl⟩ := exists_of_root hfound
      refine ⟨d, parse_eq_ok_iff.mpr ⟨made, ?_, hd⟩, hagree⟩
      exact Event.toExcept_ofTokens_eq_ok_iff.mpr ⟨hfault', r, hsteps',
        hsame.frames_eq_nil_iff.mp hframes, hsame.seenRoot.symm.trans hroot⟩

end Document

end XmlCompare
