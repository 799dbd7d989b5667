import XmlCompare.Proofs.Document.Addressing
import XmlCompare.Proofs.Document.Extent

/-!
# A byte order mark before a text

A byte order mark belongs to no token, and the offsets of tokens do not count it; the line table
counts its three bytes. So a text with the mark has the elements of the text without it, at the same
paths, but the line of every offset is looked up three bytes too early. An element that begins or
ends within three bytes behind a line feed is given the line before.
-/

set_option autoImplicit false

namespace XmlCompare

open Markup.Token (Stands)

/-- Dictionaries with the same keys in the same order are one if they hold the same values. -/
theorem Dictionary.eq_of_keys {κ ν : Type} [DecidableEq κ] {d d' : Dictionary κ ν}
    (hkeys : d.keys = d'.keys) (hvalues : ∀ k ∈ d.keys, d.get? k = d'.get? k) : d = d' := by
  have hlength : d.entries.length = d'.entries.length := by
    simpa [Dictionary.keys] using congrArg List.length hkeys
  have hentries : d.entries = d'.entries := by
    refine List.ext_getElem hlength fun i h h' => ?_
    have hkey : d.entries[i].1 = d'.entries[i].1 := by
      have hhere := congrArg (·[i]?) hkeys
      simpa [Dictionary.keys, h, h'] using hhere
    have hfound : d.get? d.entries[i].1 = some d.entries[i].2 :=
      (d.mem_entries_iff _ _).mp (List.getElem_mem h)
    have hfound' : d'.get? d'.entries[i].1 = some d'.entries[i].2 :=
      (d'.mem_entries_iff _ _).mp (List.getElem_mem h')
    rw [hvalues _ (List.mem_map_of_mem (List.getElem_mem h)), hkey, hfound'] at hfound
    exact Prod.ext hkey (Option.some.inj hfound).symm
  obtain ⟨entries, _⟩ := d
  obtain ⟨entries', _⟩ := d'
  obtain rfl : entries = entries' := hentries
  rfl

/-- Two lines in order are told from the range between them. -/
theorem LineRange.between_inj {first last first' last' : Nat} (h : 1 ≤ first) (hle : first ≤ last)
    (h' : 1 ≤ first') (hle' : first' ≤ last') (heq : between first last = between first' last') :
    first = first' ∧ last = last' := by
  obtain ⟨hfirst, hlast⟩ := between_of_le h hle
  obtain ⟨hfirst', hlast'⟩ := between_of_le h' hle'
  rw [heq] at hfirst hlast
  exact ⟨hfirst.symm.trans hfirst', hlast.symm.trans hlast'⟩

variable {text : String}

/-- The mark in front of a text is its first character. -/
theorem toList_mark_append (text : String) :
    ("\ufeff" ++ text).toList = ['\ufeff'] ++ text.toList := by
  rw [String.toList_append]
  rfl

/-- The tokens of a text are the same behind a byte order mark, with the same offsets. -/
theorem Markup.Token.readAll_mark (hmark : text.toList.head? ≠ some '\ufeff') :
    readAll ("\ufeff" ++ text) = readAll text := by
  rw [readAll, readAll, toList_mark_append, dropByteOrderMark_eq_self hmark]
  rfl

/-- Behind a byte order mark the line of an offset is looked up three bytes earlier. -/
theorem LineTable.line_mark (text : String) (offset : Nat) :
    (ofText ("\ufeff" ++ text)).line offset = (ofText text).line (offset - 3) :=
  line_of_front (toList_mark_append text) (by decide) offset

/-- The events of a text behind a byte order mark differ in lines at most. -/
theorem Event.readAll_mark (hmark : text.toList.head? ≠ some '\ufeff') {events : List Event}
    (h : (Event.readAll text).toExcept = .ok events) :
    ∃ events', (Event.readAll ("\ufeff" ++ text)).toExcept = .ok events' ∧
      List.Forall₂ Event.Aligned events events' := by
  obtain ⟨hfault, s, hsteps, hframes, hroot⟩ := toExcept_ofTokens_eq_ok_iff.mp h
  obtain ⟨r, events', hsteps', hsame, hsames⟩ :=
    (State.Same.refl .initial).steps hsteps ("\ufeff" ++ text) rfl
  refine ⟨events', ?_, ?_⟩
  · rw [← Markup.Token.readAll_mark hmark] at hfault hsteps'
    exact toExcept_ofTokens_eq_ok_iff.mpr ⟨hfault, r, hsteps', hsame.frames_eq_nil_iff.mp hframes,
      hsame.seenRoot.symm.trans hroot⟩
  · exact (State.Aligned.refl .initial).run (State.run_of_steps hsteps).1
      (State.run_of_steps hsteps').1 hsames

/-- An index can be built exactly where the events can be read, and is that of the events. -/
theorem PositionIndex.build_eq_ok_iff {index : PositionIndex} : PositionIndex.build text = .ok index ↔
    ∃ events, (Event.readAll text).toExcept = .ok events ∧ ofEvents events = index := by
  unfold build
  cases (Event.readAll text).toExcept with
  | error fault => simp [Except.map]
  | ok events => simp [Except.map]

/-- The index lists the paths of the elements in the order in which they close. -/
theorem PositionIndex.keys_ofEvents {events : List Event}
    (h : (Event.readAll text).toExcept = .ok events) :
    (ofEvents events).entries.keys = (events.filterMap entry?).map Prod.fst := by
  obtain ⟨s, hrun, hframes, hroot, -⟩ := Event.run_of_readAll h
  rw [Dictionary.keys, ofEvents,
    Dictionary.entries_ofList (Document.nodup_closed_of_run hrun hframes hroot)]

/-- The elements of a document have the paths with which they open. -/
theorem Document.parse_of_events {events : List Event}
    (h : (Event.readAll text).toExcept = .ok events) : ∃ d, parse text = .ok d ∧
      d.root.all.map Element.path = (events.filterMap Event.opened?).map OpenedElement.path := by
  obtain ⟨s, hrun, hframes, hroot, -⟩ := Event.run_of_readAll h
  obtain ⟨d, hd, -⟩ := exists_of_run hrun hframes hroot
  exact ⟨d, parse_eq_ok_iff.mpr ⟨events, h, hd⟩, (paths_of_run hrun hframes hroot hd).2⟩

/-- The index finds an element on the lines of the offsets it reaches. -/
theorem Document.get?_of_stands {d : Document} {index : PositionIndex} {i : Nat} {x : Element}
    {name : List Char} {first last : Nat} (hparse : parse text = .ok d)
    (hbuild : PositionIndex.build text = .ok index) (hx : d.elements[i]? = some x)
    (hstands : Stands (Markup.Token.readAll text).items i name first last) :
    index.get? x.path = some ((LineTable.ofText text).between first last) := by
  obtain ⟨-, -, found, hfound, hperm⟩ := index_of_parse hparse
  obtain rfl : found = index := Except.ok.inj (hfound.symm.trans hbuild)
  rw [← (lines_of_stands hparse hx hstands).2]
  rw [elements_eq] at hx
  exact PositionIndex.get?_of_perm hperm (List.mem_of_getElem? hx)

/-- Where an element reaches from one offset to another, the second does not come before the
first, and there is an element of the document. -/
theorem Document.bounds_of_stands {d : Document} {i : Nat} {name : List Char} {first last : Nat}
    (hparse : parse text = .ok d)
    (hstands : Stands (Markup.Token.readAll text).items i name first last) :
    first ≤ last ∧ ∃ x, d.elements[i]? = some x := by
  obtain ⟨events, hevents, -⟩ := parse_eq_ok_iff.mp hparse
  obtain ⟨hfault, -⟩ := Event.toExcept_ofTokens_eq_ok_iff.mp hevents
  obtain ⟨pieces, hchain, -, hitems⟩ := Markup.Token.exists_pieces hfault
  have hlength := (index_of_parse hparse).2.1.length_eq
  have hlt := Markup.Token.lt_of_stands hstands
  rw [← startTags, hlength, ← elements_eq] at hlt
  rw [hitems] at hstands
  exact ⟨Markup.Token.le_of_stands hchain hstands, _, List.getElem?_eq_getElem hlt⟩

/-- The index of a text behind a byte order mark lists the paths of the text in the same order. -/
theorem PositionIndex.keys_of_mark {index : PositionIndex}
    (hmark : text.toList.head? ≠ some '\ufeff') (hbuild : build text = .ok index) :
    ∃ index', build ("\ufeff" ++ text) = .ok index' ∧
      index'.entries.keys = index.entries.keys := by
  obtain ⟨events, hevents, rfl⟩ := build_eq_ok_iff.mp hbuild
  obtain ⟨events', hevents', haligned⟩ := Event.readAll_mark hmark hevents
  refine ⟨.ofEvents events', build_eq_ok_iff.mpr ⟨events', hevents', rfl⟩, ?_⟩
  rw [keys_ofEvents hevents, keys_ofEvents hevents', Event.keys_of_aligned haligned]

/-- Behind a byte order mark an element is found on the lines that the offsets it reaches have three
bytes earlier in the text. -/
theorem Document.get?_of_mark {d : Document} {index' : PositionIndex} {i : Nat} {x : Element}
    {name : List Char} {first last : Nat} (hmark : text.toList.head? ≠ some '\ufeff')
    (hparse : parse text = .ok d) (hbuild' : PositionIndex.build ("\ufeff" ++ text) = .ok index')
    (hx : d.elements[i]? = some x)
    (hstands : Stands (Markup.Token.readAll text).items i name first last) :
    index'.get? x.path = some ((LineTable.ofText text).between (first - 3) (last - 3)) := by
  obtain ⟨events, hevents, -⟩ := parse_eq_ok_iff.mp hparse
  obtain ⟨events', hevents', haligned⟩ := Event.readAll_mark hmark hevents
  obtain ⟨d₀, hparse₀, hpaths⟩ := parse_of_events hevents
  obtain rfl : d₀ = d := Except.ok.inj (hparse₀.symm.trans hparse)
  obtain ⟨d', hparse', hpaths'⟩ := parse_of_events hevents'
  -- Behind the mark an element of the same path stands at the same offsets.
  have hsame : (d'.root.all.map Element.path)[i]? = some x.path := by
    rw [elements_eq] at hx
    rw [hpaths', ← Event.paths_of_aligned haligned, ← hpaths, List.getElem?_map, hx]
    rfl
  rw [List.getElem?_map, Option.map_eq_some_iff, ← elements_eq] at hsame
  obtain ⟨x', hx', hpath⟩ := hsame
  rw [← Markup.Token.readAll_mark hmark] at hstands
  rw [← hpath, get?_of_stands hparse' hbuild' hx' hstands, LineTable.between,
    LineTable.line_mark, LineTable.line_mark]
  rfl

/-- An index with the paths of a document is its index if it finds the elements where that does. -/
theorem PositionIndex.eq_of_keys {d : Document} {index index' : PositionIndex}
    (hparse : Document.parse text = .ok d) (hbuild : build text = .ok index)
    (hkeys : index'.entries.keys = index.entries.keys)
    (hfound : ∀ (i : Nat) (x : Element), d.elements[i]? = some x →
      index'.get? x.path = index.get? x.path) :
    index' = index := by
  obtain ⟨-, -, found, hbuilt, hperm⟩ := Document.index_of_parse hparse
  obtain rfl : found = index := Except.ok.inj (hbuilt.symm.trans hbuild)
  refine congrArg PositionIndex.mk (Dictionary.eq_of_keys hkeys fun path hpath => ?_)
  rw [hkeys, Dictionary.keys, (hperm.map Prod.fst).mem_iff, List.map_map, List.mem_map] at hpath
  obtain ⟨x, hx, rfl⟩ := hpath
  rw [← Document.elements_eq] at hx
  obtain ⟨i, hx⟩ := List.mem_iff_getElem?.mp hx
  exact hfound i x hx

/-- The index of a text and that of the text behind a byte order mark list the same paths in the
same order. An element that reaches from one offset to another is found, behind the mark, on the
lines that these offsets have three bytes earlier in the text. So the indices are one exactly if
these are the lines of the offsets. -/
theorem build_of_mark {index : PositionIndex} (hmark : text.toList.head? ≠ some '\ufeff')
    (hbuild : PositionIndex.build text = .ok index) :
    ∃ d index', Document.parse text = .ok d ∧
      PositionIndex.build ("\ufeff" ++ text) = .ok index' ∧
      index'.entries.keys = index.entries.keys ∧
      (∀ i x, d.elements[i]? = some x →
        (∃ name first last, Stands (Markup.Token.readAll text).items i name first last) ∧
        ∀ name first last, Stands (Markup.Token.readAll text).items i name first last →
          index.get? x.path = some ((LineTable.ofText text).between first last) ∧
          index'.get? x.path = some ((LineTable.ofText text).between (first - 3) (last - 3))) ∧
      (index' = index ↔
        ∀ i name first last, Stands (Markup.Token.readAll text).items i name first last →
          (LineTable.ofText text).line (first - 3) = (LineTable.ofText text).line first ∧
          (LineTable.ofText text).line (last - 3) = (LineTable.ofText text).line last) := by
  obtain ⟨index', hbuild', hkeys⟩ := PositionIndex.keys_of_mark hmark hbuild
  obtain ⟨events, hevents, -⟩ := PositionIndex.build_eq_ok_iff.mp hbuild
  obtain ⟨d, hparse, -⟩ := Document.parse_of_events hevents
  have hfound : ∀ i x name first last, d.elements[i]? = some x →
      Stands (Markup.Token.readAll text).items i name first last →
        index.get? x.path = some ((LineTable.ofText text).between first last) ∧
        index'.get? x.path = some ((LineTable.ofText text).between (first - 3) (last - 3)) :=
    fun _ _ _ _ _ hx hstands => ⟨Document.get?_of_stands hparse hbuild hx hstands,
      Document.get?_of_mark hmark hparse hbuild' hx hstands⟩
  refine ⟨d, index', hparse, hbuild', hkeys, ?_, ?_, ?_⟩
  · intro i x hx
    exact ⟨Document.exists_stands hparse hx, fun name first last => hfound i x name first last hx⟩
  · intro heq i name first last hstands
    obtain ⟨hle, x, hx⟩ := Document.bounds_of_stands hparse hstands
    obtain ⟨hhere, hthere⟩ := hfound i x name first last hx hstands
    rw [heq, hhere] at hthere
    exact LineRange.between_inj (LineTable.one_le_line_ofText _ _)
      (LineTable.line_mono _ (Nat.sub_le_sub_right hle 3)) (LineTable.one_le_line_ofText _ _)
      (LineTable.line_mono _ hle) (Option.some.inj hthere).symm
  · intro hlines
    refine PositionIndex.eq_of_keys hparse hbuild hkeys fun i x hx => ?_
    obtain ⟨name, first, last, hstands⟩ := Document.exists_stands hparse hx
    obtain ⟨hhere, hthere⟩ := hfound i x name first last hx hstands
    obtain ⟨hfirst, hlast⟩ := hlines i name first last hstands
    rw [LineTable.between, hfirst, hlast] at hthere
    exact hthere.trans hhere.symm

/-- The index of a list with one item on a line of its own. -/
def itemIndex : PositionIndex :=
  ⟨.ofList [(⟨[⟨"r", 1⟩, ⟨"i", 1⟩]⟩, .between 2 2), (⟨[⟨"r", 1⟩]⟩, .between 1 3)]⟩

/-- The item is indented, and its line is looked up among the bytes before it all the same. -/
theorem build_of_mark_item :
    "<r>\n  <i/>\n</r>".toList.head? ≠ some '\ufeff' ∧
    PositionIndex.build "<r>\n  <i/>\n</r>" = .ok itemIndex ∧
    ∃ d index', Document.parse "<r>\n  <i/>\n</r>" = .ok d ∧
      PositionIndex.build ("\ufeff" ++ "<r>\n  <i/>\n</r>") = .ok index' ∧
      index'.entries.keys = itemIndex.entries.keys ∧
      (∀ i x, d.elements[i]? = some x →
        (∃ name first last,
          Stands (Markup.Token.readAll "<r>\n  <i/>\n</r>").items i name first last) ∧
        ∀ name first last,
          Stands (Markup.Token.readAll "<r>\n  <i/>\n</r>").items i name first last →
          itemIndex.get? x.path =
            some ((LineTable.ofText "<r>\n  <i/>\n</r>").between first last) ∧
          index'.get? x.path =
            some ((LineTable.ofText "<r>\n  <i/>\n</r>").between (first - 3) (last - 3))) ∧
      (index' = itemIndex ↔ ∀ i name first last,
        Stands (Markup.Token.readAll "<r>\n  <i/>\n</r>").items i name first last →
          (LineTable.ofText "<r>\n  <i/>\n</r>").line (first - 3) =
            (LineTable.ofText "<r>\n  <i/>\n</r>").line first ∧
          (LineTable.ofText "<r>\n  <i/>\n</r>").line (last - 3) =
            (LineTable.ofText "<r>\n  <i/>\n</r>").line last) := by
  have hmark : "<r>\n  <i/>\n</r>".toList.head? ≠ some '\ufeff' := by decide
  have hbuild : PositionIndex.build "<r>\n  <i/>\n</r>" = .ok itemIndex := by decide
  exact ⟨hmark, hbuild, build_of_mark hmark hbuild⟩

/-- Behind a byte order mark an element at the start of the second line is found on the first. -/
theorem line_moved_by_mark : ¬ ∀ (text : String) (index : PositionIndex),
    text.toList.head? ≠ some '\ufeff' → PositionIndex.build text = .ok index →
      PositionIndex.build ("\ufeff" ++ text) = .ok index := by
  intro h
  have hmark : "\n<r/>".toList.head? ≠ some '\ufeff' := by decide
  have hbuild : PositionIndex.build "\n<r/>" =
      .ok ⟨.ofList [(⟨[⟨"r", 1⟩]⟩, .between 2 2)]⟩ := by decide
  have hmoved : PositionIndex.build ("\ufeff" ++ "\n<r/>") =
      .ok ⟨.ofList [(⟨[⟨"r", 1⟩]⟩, .between 1 1)]⟩ := by decide
  have hsame := hmoved.symm.trans (h _ _ hmark hbuild)
  revert hsame
  decide

end XmlCompare
