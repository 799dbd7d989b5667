import Mathlib.Data.List.TakeWhile
import XmlCompare.Proofs.Document.Growth

/-!
# The index of a text and its document

The index is made from the closing of elements, without building the document. It lists the
elements of the document all the same, each with its path and its lines, and no two elements share
a path; and where there is no document there is no index either, for the same reason.
-/

set_option autoImplicit false

namespace XmlCompare

open Markup (PlacedToken)

/-- A tag from which an element was read: it has the name of the element, and stands on its first
line. -/
def Element.ReadFrom (source : String) (t : PlacedToken) (e : Element) : Prop :=
  ∃ content, (t.token = .startTag content ∨ t.token = .emptyTag content) ∧
    e.name = String.ofList (Markup.Tag.name content) ∧
    e.lines.first = (LineTable.ofText source).line t.start

/-- The tags of a text that open elements, in the order of the text. -/
def startTags (source : String) : List PlacedToken :=
  (Markup.Token.readAll source).items.filter Event.State.isOpening

/-- Elements that are known by what opened were read from the tags that opened them. -/
theorem readFrom_of_opens {source : String} {tags : List PlacedToken}
    {opened : List OpenedElement} (hopens : List.Forall₂ (Event.State.Opens source) tags opened)
    {elements : List Element} (hframes : elements.map Element.frame =
      opened.map (fun e => (⟨e.name, e.path, e.line⟩ : Event.Frame))) :
    List.Forall₂ (Element.ReadFrom source) tags elements := by
  induction hopens generalizing elements with
  | nil =>
    obtain rfl := List.map_eq_nil_iff.mp hframes
    exact .nil
  | cons htag _ ih =>
    cases elements with
    | nil => cases hframes
    | cons e elements =>
      rw [List.map_cons, List.map_cons, List.cons.injEq] at hframes
      obtain ⟨hframe, hframes⟩ := hframes
      obtain ⟨content, htoken, hname, -, hline⟩ := htag
      have hename := congrArg Event.Frame.name hframe
      have heline := congrArg Event.Frame.line hframe
      exact .cons ⟨content, htoken, hename.trans hname, heline.trans hline⟩ (ih hframes)

/-- An index that lists some elements, among which no two share a path, finds each of them. -/
theorem PositionIndex.get?_of_perm {index : PositionIndex} {elements : List Element}
    (hperm : index.entries.entries.Perm (elements.map Element.entry)) {e : Element}
    (he : e ∈ elements) : index.get? e.path = some e.lines := by
  have hmem : e.entry ∈ index.entries.entries := hperm.mem_iff.mpr (List.mem_map_of_mem he)
  exact (index.entries.mem_entries_iff e.path e.lines).mp hmem

/-- What such an index finds is the path of one of the elements, on its lines. -/
theorem PositionIndex.exists_of_get? {index : PositionIndex} {elements : List Element}
    (hperm : index.entries.entries.Perm (elements.map Element.entry)) {path : Path}
    {lines : LineRange} (h : index.get? path = some lines) :
    ∃ e ∈ elements, e.path = path ∧ e.lines = lines := by
  have hmem := hperm.mem_iff.mp ((index.entries.mem_entries_iff path lines).mpr h)
  obtain ⟨e, he, hentry⟩ := List.mem_map.mp hmem
  obtain ⟨hpath, hlines⟩ := Prod.mk.inj hentry
  exact ⟨e, he, hpath, hlines⟩

/-- A text is the document that its events describe. -/
theorem Document.parse_eq_ok_iff {source : String} {d : Document} : Document.parse source = .ok d ↔
    ∃ events, (Event.readAll source).toExcept = .ok events ∧ ofEvents? events = some d := by
  unfold parse
  rw [bind_eq_ok_iff]
  refine exists_congr fun events => and_congr_right fun _ => ?_
  cases ofEvents? events with
  | none => simp [throw, throwThe, MonadExceptOf.throw]
  | some found => simp [pure, Except.pure]

/-- The events of a run that closes everything it opens close no two elements with one path. -/
theorem Document.nodup_closed_of_run {source : String} {events : List Event} {s : Event.State}
    (hrun : Event.State.Run source .initial events s) (hframes : s.frames = [])
    (hroot : s.seenRoot = true) :
    ((events.filterMap PositionIndex.entry?).map Prod.fst).Nodup := by
  obtain ⟨d, -, hplaced, -, hfinished⟩ := exists_of_run hrun hframes hroot
  have hpaths := Element.nodup_paths hplaced.inner
  have hperm := hfinished.map Prod.fst
  rw [List.map_map] at hperm
  exact hperm.nodup_iff.mp hpaths

/-- Where a text is a document, its index lists the elements of the document. -/
theorem Document.index_of_parse {source : String} {d : Document}
    (hparse : Document.parse source = .ok d) :
    d.Placed ∧ List.Forall₂ (Element.ReadFrom source) (startTags source) d.root.all ∧
      ∃ index, PositionIndex.build source = .ok index ∧
        index.entries.entries.Perm (d.root.all.map Element.entry) := by
  obtain ⟨events, hevents, hd⟩ := parse_eq_ok_iff.mp hparse
  obtain ⟨s, hrun, hframes, hroot, hopens⟩ := Event.run_of_readAll hevents
  obtain ⟨d', hd', hplaced, hbegun, hfinished⟩ := exists_of_run hrun hframes hroot
  obtain rfl : d' = d := Option.some.inj (hd'.symm.trans hd)
  refine ⟨hplaced, readFrom_of_opens hopens hbegun, .ofEvents events, ?_, ?_⟩
  · rw [PositionIndex.build, hevents]
    rfl
  · rw [PositionIndex.ofEvents, Dictionary.entries_ofList (nodup_closed_of_run hrun hframes hroot)]
    exact hfinished.symm

/-- A text that is no document has no index, and for the same reason. -/
theorem Document.build_of_parse_error {source : String} {error : ParseError}
    (hparse : Document.parse source = .error error) :
    PositionIndex.build source = .error error := by
  unfold Document.parse at hparse
  cases hevents : (Event.readAll source).toExcept with
  | error found =>
    obtain rfl : found = error := by simpa [hevents, bind, Except.bind] using hparse
    rw [PositionIndex.build, hevents]
    rfl
  | ok events =>
    -- Events without a fault close a root, so there always is a document.
    obtain ⟨s, hrun, hframes, hroot, -⟩ := Event.run_of_readAll hevents
    obtain ⟨d, hsome, -⟩ := exists_of_run hrun hframes hroot
    simp [hevents, hsome, bind, Except.bind, pure, Except.pure] at hparse

/-- Without a `<` there is no tag: all of a text is one piece of character data. -/
theorem startTags_eq_nil {source : String} (h : '<' ∉ source.toList) : startTags source = [] := by
  have hmarkless : '<' ∉ Markup.Token.dropByteOrderMark source.toList := by
    unfold Markup.Token.dropByteOrderMark
    split
    · simp
    · rename_i c cs hsource
      rw [hsource, List.mem_cons, not_or] at h
      split
      · exact h.2
      · exact fun hmem => (List.mem_cons.mp hmem).elim h.1 h.2
  unfold startTags Markup.Token.readAll
  cases hcs : Markup.Token.dropByteOrderMark source.toList with
  | nil =>
    rw [Markup.Token.readFrom_nil]
    rfl
  | cons first rest =>
    rw [hcs, List.mem_cons, not_or] at hmarkless
    have hrest : rest.dropWhile (· ≠ '<') = [] := by
      rw [List.dropWhile_eq_nil_iff]
      intro c hc
      simp only [ne_eq, decide_eq_true_eq]
      rintro rfl
      exact hmarkless.2 hc
    have hone : ∃ raw stop, Markup.Token.readOne 0 first rest = .ok (.text raw, ⟨stop, []⟩) := by
      rw [Markup.Token.readOne, if_neg (fun heq => hmarkless.1 heq.symm), hrest]
      exact ⟨_, _, rfl⟩
    obtain ⟨raw, stop, hone⟩ := hone
    rw [Markup.Token.readFrom_cons hone, Markup.Token.readFrom_nil]
    rfl

/-- A document is no blank text. -/
theorem Document.isBlankText_of_parse {source : String} {d : Document}
    (hparse : Document.parse source = .ok d) : Text.isBlankText source = false := by
  rw [← Bool.not_eq_true]
  intro hblank
  have hmarkless : '<' ∉ source.toList := by
    intro hmem
    have hc := List.all_eq_true.mp hblank '<' hmem
    revert hc
    decide
  obtain ⟨-, htags, -⟩ := index_of_parse hparse
  rw [startTags_eq_nil hmarkless] at htags
  have hself := Element.self_mem_all d.root
  rw [List.forall₂_nil_left_iff.mp htags] at hself
  cases hself

/-- For every text, the index and the document are found or missed together. Where they are found,
a walk through the document comes to every element inside the root, in the order of the start tags
of the text, and never twice to one path; and the index holds the path of every element with the
lines of the element, and nothing else. -/
theorem index_agrees_with_document (source : String) :
    match Document.parse source with
    | .error error => PositionIndex.build source = .error error
    | .ok d => ∃ index, PositionIndex.build source = .ok index ∧
      (∀ e, e ∈ d.elements ↔ Relation.ReflTransGen Element.IsParent d.root e) ∧
      List.Forall₂ (Element.ReadFrom source) (startTags source) d.elements ∧
      (d.elements.map Element.path).Nodup ∧
      index.entries.entries.Perm (d.elements.map Element.entry) ∧
      index.size = d.elements.length ∧
      ∀ e ∈ d.elements, index.get? e.path = some e.lines := by
  cases hparse : Document.parse source with
  | error error => exact Document.build_of_parse_error hparse
  | ok d =>
    obtain ⟨hplaced, htags, index, hbuild, hperm⟩ := Document.index_of_parse hparse
    simp only [Document.elements_eq]
    refine ⟨index, hbuild, ?_, htags, Element.nodup_paths hplaced.inner, hperm, ?_, ?_⟩
    · intro e
      exact Element.mem_all_iff_reaches
    · rw [PositionIndex.size, Dictionary.size, hperm.length_eq, List.length_map]
    · intro e he
      exact PositionIndex.get?_of_perm hperm he

end XmlCompare
