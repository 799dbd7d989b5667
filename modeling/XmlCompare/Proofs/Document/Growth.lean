import XmlCompare.Document.Index
import XmlCompare.Document.Tree
import XmlCompare.Proofs.Document.Numbering
import XmlCompare.Proofs.Document.Run

/-!
# A tree that grows along a run

The tree and the state of a run are kept apart: each has a stack of its own. `Sketch.Follows` says
what ties them together. The frames of the state are the headings of the open elements, the
sibling counts count the names of the children begun so far at every level, and everything that
has been placed in the tree is numbered. Every move keeps it.

Along the way a tree loses nothing: `begun` lists the elements in the order in which they opened,
`finished` those that have closed.
-/

set_option autoImplicit false

namespace XmlCompare

open Event (Frame State)

/-- What is known of an element as soon as it opens. -/
def Heading.frame (h : Heading) : Frame := ⟨h.name, h.path, h.lines.first⟩

namespace Element

/-- What is known of an element as soon as it opens. -/
def frame (e : Element) : Frame := e.heading.frame

/-- What an index says of an element. -/
def entry (e : Element) : Path × LineRange := (e.path, e.lines)

end Element

/-- An open element with the child elements it has so far. -/
structure Branch where
  heading : Heading
  children : List Element

/-- The elements of a growing tree, without texts and comments: the root if it is complete, and
the open elements, innermost first. -/
structure Sketch where
  root : Option Element
  branches : List Branch

/-- The open element that a node is. -/
def OpenNode.branch (o : OpenNode) : Branch := ⟨o.heading, o.children.filterMap Node.element?⟩

/-- The elements of a growing tree. -/
def Growth.sketch (g : Growth) : Sketch := ⟨g.root, g.stack.map OpenNode.branch⟩

namespace Sketch

/-- The elements begun so far, in the order in which they opened. -/
def begun (k : Sketch) : List Frame :=
  (k.root.toList.flatMap Element.all).map Element.frame ++
    k.branches.reverse.flatMap fun b => b.heading.frame ::
      (b.children.flatMap Element.all).map Element.frame

/-- The elements that are complete. -/
def finished (k : Sketch) : List Element :=
  k.root.toList.flatMap Element.all ++ k.branches.flatMap fun b => b.children.flatMap Element.all

/-- The path of the innermost of some open elements, or of the document. -/
def pathOf : List Branch → Path
  | [] => .document
  | b :: _ => b.heading.path

/-- The complete siblings of an element that opens inside the innermost of some open elements. -/
def siblingsOf : List Branch → List Element
  | [] => []
  | b :: _ => b.children

/-- Open elements have the paths that their names and the siblings before them give them, and so
do their children. -/
def Grown : List Branch → Prop
  | [] => True
  | b :: rest =>
    b.heading.path = (pathOf rest).child b.heading.name
      (Element.ordinalAfter (siblingsOf rest) b.heading.name) ∧
    Element.Numbered b.heading.path b.children ∧ Grown rest

/-- The names of the children begun so far, for every open element and for the document; `top`
are those of the document and `pending` that of the child which is open. -/
def names (top pending : List String) : List Branch → List (List String)
  | [] => [top ++ pending]
  | b :: rest => (b.children.map Element.name ++ pending) :: names top [b.heading.name] rest

/-- Counts of some names by local part. -/
def Counted (counts : NameCounts) (names : List String) : Prop :=
  ∀ localName, (counts.get? localName).getD 0 = names.countP (Name.localPart · = localName)

/-- A growing tree is in step with the state of a run. -/
structure Follows (k : Sketch) (s : State) : Prop where
  frames : s.frames = k.branches.map (·.heading.frame)
  seenRoot : s.seenRoot = (k.root.isSome || !k.branches.isEmpty)
  alone : k.branches ≠ [] → k.root = none
  counts : List.Forall₂ Counted (s.counts.inner :: s.counts.outer)
    (names (k.root.toList.map Element.name) [] k.branches)
  grown : Grown k.branches
  root : ∀ r, k.root = some r → r.path = Path.document.child r.name 1
  placed : ∀ x ∈ k.finished, Element.Numbered x.path x.childElements

/-- What some events add to the elements begun and finished. -/
structure Gains (k k' : Sketch) (events : List Event) : Prop where
  begun : k'.begun = k.begun ++
    (events.filterMap Event.opened?).map fun e => ⟨e.name, e.path, e.line⟩
  finished : (k'.finished.map Element.entry).Perm
    (k.finished.map Element.entry ++ events.filterMap PositionIndex.entry?)

/-- In the beginning the tree and the reading are in the same place. -/
theorem follows_initial : Follows ⟨none, []⟩ .initial where
  frames := rfl
  seenRoot := rfl
  alone := fun h => absurd rfl h
  counts := .cons (fun _ => rfl) .nil
  grown := trivial
  root := by rintro r ⟨⟩
  placed := by
    intro x hx
    cases hx

/-- Without events nothing is gained. -/
theorem gains_nil (k : Sketch) : Gains k k [] := by
  constructor <;> simp

/-- An event that opens no element and indexes none gains nothing. -/
theorem gains_silent (k : Sketch) {e : Event} (hopened : e.opened? = none)
    (hentry : PositionIndex.entry? e = none) : Gains k k [e] := by
  constructor
  · simp [hopened]
  · simp [hentry]

/-- What two runs of events gain adds up. -/
theorem Gains.trans {k k' k'' : Sketch} {before after : List Event} (h : Gains k k' before)
    (h' : Gains k' k'' after) : Gains k k'' (before ++ after) where
  begun := by
    rw [h'.begun, h.begun, List.filterMap_append, List.map_append, List.append_assoc]
  finished := by
    have hfirst := h.finished.append_right (after.filterMap PositionIndex.entry?)
    rw [List.append_assoc, ← List.filterMap_append] at hfirst
    exact h'.finished.trans hfirst

/-- The path of a reading is that of the innermost branch it follows. -/
theorem Follows.path {k : Sketch} {s : State} (h : Follows k s) : s.path = pathOf k.branches := by
  unfold State.path
  rw [h.frames]
  cases k.branches <;> rfl

/-- A name that is counted once more. -/
theorem Counted.insert {counts : NameCounts} {names : List String} (h : Counted counts names)
    (name : String) :
    Counted (counts.insert (Name.localPart name) ((counts.get? (Name.localPart name)).getD 0 + 1))
      (names ++ [name]) := by
  intro localName
  rw [Dictionary.get?_insert, List.countP_append]
  by_cases hname : Name.localPart name = localName
  · subst hname
    simp [h (Name.localPart name)]
  · simp [hname, h localName]

/-- The next child of a name is counted by the names of its siblings. -/
theorem countP_names (siblings : List Element) (name : String) :
    (siblings.map Element.name).countP (Name.localPart · = Name.localPart name) + 1 =
      Element.ordinalAfter siblings name := by
  rw [Element.ordinalAfter, List.countP_map]
  rfl

/-- The counts give a child that opens the ordinal that is due to it. -/
theorem Follows.next_eq {k : Sketch} {s : State} (h : Follows k s)
    (hfirst : s.frames = [] → s.seenRoot = false) (name : String) :
    s.counts.next (Name.localPart name) =
      Element.ordinalAfter (siblingsOf k.branches) name := by
  have hcounts := h.counts
  unfold SiblingCounts.next
  cases hb : k.branches with
  | nil =>
    rw [hb] at hcounts
    obtain ⟨hinner, -⟩ := List.forall₂_cons.mp hcounts
    have hroot : k.root = none := by
      have hseen := hfirst (by rw [h.frames, hb]; rfl)
      rw [h.seenRoot, hb] at hseen
      simpa using hseen
    rw [hinner (Name.localPart name), hroot]
    rfl
  | cons b rest =>
    rw [hb] at hcounts
    obtain ⟨hinner, -⟩ := List.forall₂_cons.mp hcounts
    rw [hinner (Name.localPart name), List.append_nil]
    exact countP_names b.children name

/-- The counts when a child has been entered: it is counted among its siblings, and pending. -/
theorem counted_enter {counts : SiblingCounts} {top : List String} {branches : List Branch}
    (h : List.Forall₂ Counted (counts.inner :: counts.outer) (names top [] branches))
    (name : String) :
    List.Forall₂ Counted
      ((counts.enter (Name.localPart name)).inner :: (counts.enter (Name.localPart name)).outer)
      ([] :: names top [name] branches) := by
  refine .cons (fun _ => rfl) ?_
  cases branches with
  | nil =>
    obtain ⟨hinner, houter⟩ := List.forall₂_cons.mp h
    rw [List.append_nil] at hinner
    exact .cons (hinner.insert name) houter
  | cons b rest =>
    obtain ⟨hinner, houter⟩ := List.forall₂_cons.mp h
    rw [List.append_nil] at hinner
    exact .cons (hinner.insert name) houter

/-- The move that opens an element. -/
theorem Follows.opened {k : Sketch} {s s' : State} {lines : LineTable} {start : Nat}
    {content : List Char} {e : OpenedElement} (h : Follows k s)
    (henter : s.enter lines start content = .ok (s', e)) {heading : Heading}
    (hframe : heading.frame = ⟨e.name, e.path, e.line⟩) :
    Follows ⟨k.root, ⟨heading, []⟩ :: k.branches⟩ s' ∧
      Gains k ⟨k.root, ⟨heading, []⟩ :: k.branches⟩ [.opened e] := by
  obtain ⟨hfirst, -, -, hpath, -, rfl⟩ := State.enter_eq_ok_iff.mp henter
  obtain ⟨hname, hpath', -⟩ : heading.name = e.name ∧ heading.path = e.path ∧
      heading.lines.first = e.line := by simpa [Heading.frame] using hframe
  have hroot : k.root = none := by
    cases hb : k.branches with
    | nil =>
      have hseen := hfirst (by rw [h.frames, hb]; rfl)
      rw [h.seenRoot, hb] at hseen
      simpa using hseen
    | cons b rest => exact h.alone (by simp [hb])
  constructor
  · constructor
    · show _ = heading.frame :: _
      rw [hframe, h.frames]
    · simp
    · exact fun _ => hroot
    · have hcounts := counted_enter h.counts e.name
      rw [← hname] at hcounts ⊢
      exact hcounts
    · refine ⟨?_, Element.numbered_nil _, h.grown⟩
      rw [hpath', hpath, h.path, h.next_eq hfirst, hname]
    · exact h.root
    · intro x hx
      exact h.placed x (by simpa [Sketch.finished] using hx)
  · constructor
    · simp [Sketch.begun, Event.opened?, hframe]
    · simp [Sketch.finished, List.filterMap_cons, PositionIndex.entry?]

/-- Listing an element last instead of first. -/
theorem entries_perm (x : Element) :
    (x.all.map Element.entry).Perm
      ((x.childElements.flatMap Element.all).map Element.entry ++ [x.entry]) := by
  rw [Element.all_eq, List.map_cons]
  exact (List.perm_append_singleton _ _).symm

/-- A growing tree whose innermost open element has become complete. -/
def close (root : Option Element) (x : Element) : List Branch → Sketch
  | [] => ⟨some x, []⟩
  | b :: rest => ⟨root, ⟨b.heading, b.children ++ [x]⟩ :: rest⟩

/-- The move that closes an element, which has become `x`. -/
theorem Follows.closed {k : Sketch} {s s' : State} {lines : LineTable} {stop : Nat}
    {e : ClosedElement} (h : Follows k s) (hleave : s.leave lines stop = .ok (s', e))
    {b : Branch} {rest : List Branch} (hb : k.branches = b :: rest) {x : Element}
    (hx : x.heading = { b.heading with lines := e.lines })
    (hchildren : x.childElements = b.children) :
    Follows (close k.root x rest) s' ∧ Gains k (close k.root x rest) [.closed e] := by
  obtain ⟨root, branches⟩ := k
  obtain rfl : branches = b :: rest := hb
  obtain rfl : root = none := h.alone (by simp)
  obtain ⟨frame, frames, hframes, hpath, hlines, rfl⟩ := State.leave_eq_ok_iff.mp hleave
  have hall := h.frames
  rw [hframes, List.map_cons, List.cons.injEq] at hall
  obtain ⟨rfl, rfl⟩ := hall
  obtain ⟨hgrown, hnumbered, hrest⟩ := h.grown
  have hname : x.name = b.heading.name := by rw [Element.name, hx]
  have hxpath : x.path = b.heading.path := by rw [Element.path, hx]
  have hxframe : x.frame = b.heading.frame := by
    have hone : 1 ≤ b.heading.lines.first := b.heading.lines.one_le_first
    have hfirst : e.lines.first = b.heading.lines.first := by
      rw [hlines]
      simp only [LineRange.between, Heading.frame]
      omega
    rw [Element.frame, hx, Heading.frame, Heading.frame, hfirst]
  have hentry : x.entry = (e.path, e.lines) := by
    rw [Element.entry, hxpath, Element.lines, hx, hpath]
    rfl
  have hplaced : ∀ y ∈ x.all, Element.Numbered y.path y.childElements := by
    intro y hy
    rw [Element.all_eq, hchildren] at hy
    rcases List.mem_cons.mp hy with rfl | hy
    · rw [hxpath, hchildren]
      exact hnumbered
    · exact h.placed y (by simp [Sketch.finished, hy])
  -- The counts of the element that closes go, and its siblings' come back.
  obtain ⟨-, houter⟩ := List.forall₂_cons.mp h.counts
  cases rest with
  | nil =>
    obtain ⟨counts, others, hcounts, hothers, houts⟩ := List.forall₂_cons_right_iff.mp houter
    refine ⟨⟨rfl, ?_, fun hne => absurd rfl hne, ?_, trivial, ?_, ?_⟩, ⟨?_, ?_⟩⟩
    · show s.seenRoot = true
      rw [h.seenRoot]
      rfl
    · simp only [SiblingCounts.leave, houts]
      simpa [close, names, hname] using List.Forall₂.cons hcounts hothers
    · rintro r ⟨⟩
      rw [hxpath, hgrown, hname]
      rfl
    · intro y hy
      exact hplaced y (by simpa [Sketch.finished, close] using hy)
    · simp [Sketch.begun, close, Event.opened?, Element.all_eq x, hchildren, hxframe]
    · have hperm := entries_perm x
      rw [hchildren, hentry] at hperm
      simpa [Sketch.finished, close, PositionIndex.entry?] using hperm
  | cons p rest =>
    refine ⟨⟨rfl, ?_, fun _ => rfl, ?_, ?_, ?_, ?_⟩, ⟨?_, ?_⟩⟩
    · show s.seenRoot = true
      rw [h.seenRoot]
      rfl
    · obtain ⟨counts, others, hcounts, hothers, houts⟩ := List.forall₂_cons_right_iff.mp houter
      simp only [SiblingCounts.leave, houts]
      simpa [close, names, hname] using List.Forall₂.cons hcounts hothers
    · obtain ⟨hp, hpnumbered, hprest⟩ := hrest
      refine ⟨hp, Element.numbered_append_singleton hpnumbered ?_, hprest⟩
      rw [hxpath, hgrown, hname]
      rfl
    · rintro r ⟨⟩
    · intro y hy
      rcases (by simpa [Sketch.finished, close] using hy :
        (∃ c ∈ p.children, y ∈ c.all) ∨ y ∈ x.all ∨ ∃ q ∈ rest, ∃ c ∈ q.children, y ∈ c.all)
        with hy | hy | hy
      · exact h.placed y (by simp [Sketch.finished, hy])
      · exact hplaced y hy
      · exact h.placed y (by simp [Sketch.finished, hy])
    · simp [Sketch.begun, close, Event.opened?, Element.all_eq x, hchildren, hxframe]
    · have hperm := entries_perm x
      rw [hchildren, hentry] at hperm
      rw [List.perm_iff_count]
      intro entry
      have hcount := hperm.count_eq entry
      simp only [Sketch.finished, close, PositionIndex.entry?, List.flatMap_cons,
        List.flatMap_append, List.map_append, List.count_append, List.flatMap_nil, List.append_nil,
        Option.toList_none, List.map_nil, List.count_nil, List.filterMap_cons,
        List.filterMap_nil] at hcount ⊢
      omega

end Sketch

namespace Node

/-- Text that comes in adds no element. -/
theorem elements_appendText (content : String) (nodes : List Node) :
    (appendText content nodes).filterMap element? = nodes.filterMap element? := by
  fun_induction appendText content nodes with
  | case1 => rfl
  | case2 last => rfl
  | case3 node rest _ ih => rw [List.filterMap_cons, List.filterMap_cons, ih]

/-- Dropping blank text drops no element. -/
theorem elements_filter_isBlankText (nodes : List Node) :
    (nodes.filter (!·.isBlankText)).filterMap element? = nodes.filterMap element? := by
  rw [List.filterMap_filter]
  congr 1
  funext node
  cases node <;> simp [isBlankText, element?]

end Node

namespace OpenNode

/-- Text is no part of a branch. -/
theorem branch_pushText (o : OpenNode) (content : String) :
    (o.pushText content).branch = o.branch := by
  rw [branch, branch, pushText, Node.elements_appendText]

/-- A comment is no part of a branch. -/
theorem branch_push_comment (o : OpenNode) (content : String) :
    (o.push (.comment content)).branch = o.branch := by
  simp [branch, push, List.filterMap_cons, Node.element?]

/-- A branch gains the elements that are put into it. -/
theorem branch_push_element (o : OpenNode) (x : Element) :
    (o.push (.element x)).branch = ⟨o.branch.heading, o.branch.children ++ [x]⟩ := by
  simp [branch, push, Node.element?]

/-- A closed element has the children of its branch. -/
theorem childElements_close (o : OpenNode) (lines : LineRange) :
    (o.close lines).childElements = o.branch.children :=
  Node.elements_filter_isBlankText o.children

end OpenNode

namespace Growth

/-- Text is no part of a sketch. -/
theorem sketch_addText (g : Growth) (content : String) : (g.addText content).sketch = g.sketch := by
  unfold addText
  split
  · rfl
  · rename_i o rest hstack
    simp only [sketch, hstack, List.map_cons, OpenNode.branch_pushText]

/-- A comment is no part of a sketch. -/
theorem sketch_addComment (g : Growth) (content : String) :
    (g.addComment content).sketch = g.sketch := by
  unfold addComment
  split
  · rename_i o rest hstack
    simp only [sketch, hstack, List.map_cons, OpenNode.branch_push_comment]
  · split <;> rfl

/-- To close an element is to close the innermost branch of the sketch. -/
theorem sketch_closeElement {g : Growth} {o : OpenNode} {rest : List OpenNode}
    (hstack : g.stack = o :: rest) (lines : LineRange) :
    (g.closeElement lines).sketch =
      Sketch.close g.sketch.root (o.close lines) (rest.map OpenNode.branch) := by
  unfold closeElement
  rw [hstack]
  cases rest with
  | nil => rfl
  | cons parent rest =>
    simp only [sketch, Sketch.close, List.map_cons, OpenNode.branch_push_element]

/-- An element that opens is known by the name, the path and the line of its event. -/
theorem frame_ofOpened (scopes : Scopes) {e : OpenedElement} (hline : 1 ≤ e.line) :
    (Heading.ofOpened scopes e).frame = ⟨e.name, e.path, e.line⟩ := by
  have hfirst : (LineRange.single e.line).first = e.line :=
    (LineRange.between_of_le hline (Nat.le_refl _)).1
  simp only [Heading.frame, Heading.ofOpened, hfirst]

/-- One event keeps the tree in step with the state. -/
theorem follows_step {source : String} {g : Growth} {s s' : State} {e : Event}
    (h : g.sketch.Follows s) (hmove : State.Moves source s e s') :
    (g.step e).sketch.Follows s' ∧ Sketch.Gains g.sketch (g.step e).sketch [e] := by
  cases hmove with
  | opened henter =>
    rename_i start content e
    obtain ⟨-, -, -, -, hline, -⟩ := State.enter_eq_ok_iff.mp henter
    have hone : 1 ≤ e.line := by
      rw [hline]
      exact LineTable.one_le_line_ofText source start
    exact h.opened henter (frame_ofOpened g.scopes hone)
  | closed hleave =>
    rename_i stop e
    obtain ⟨frame, frames, hframes, -⟩ := State.leave_eq_ok_iff.mp hleave
    have hbranches := h.frames
    rw [hframes] at hbranches
    cases hstack : g.stack with
    | nil =>
      rw [sketch, hstack] at hbranches
      cases hbranches
    | cons o rest =>
      have hclose := sketch_closeElement hstack e.lines
      have hsketch : g.sketch.branches = o.branch :: rest.map OpenNode.branch := by
        rw [sketch, hstack]
        rfl
      rw [show g.step (.closed e) = g.closeElement e.lines from rfl, hclose]
      exact h.closed hleave hsketch rfl (OpenNode.childElements_close o e.lines)
  | text hopen =>
    rename_i content
    rw [show g.step (.text content) = g.addText content from rfl, sketch_addText]
    exact ⟨h, Sketch.gains_silent _ rfl rfl⟩
  | comment =>
    rename_i content
    rw [show g.step (.comment content) = g.addComment content from rfl, sketch_addComment]
    exact ⟨h, Sketch.gains_silent _ rfl rfl⟩

/-- A run keeps the tree in step with the state. -/
theorem follows_run {source : String} {g : Growth} {s s' : State} {events : List Event}
    (h : g.sketch.Follows s) (hrun : State.Run source s events s') :
    (events.foldl step g).sketch.Follows s' ∧
      Sketch.Gains g.sketch (events.foldl step g).sketch events := by
  induction hrun generalizing g with
  | done => exact ⟨h, Sketch.gains_nil _⟩
  | move hmove _ ih =>
    obtain ⟨hstep, hgain⟩ := follows_step h hmove
    obtain ⟨hrest, hgains⟩ := ih hstep
    exact ⟨hrest, hgain.trans hgains⟩

end Growth

namespace Document

/-- The events of a run that closes everything it opens describe a document: its elements are those
that opened, in this order, and they are numbered; each has the path and the lines it closed
with. -/
theorem exists_of_run {source : String} {events : List Event} {s : State}
    (hrun : State.Run source .initial events s) (hframes : s.frames = [])
    (hroot : s.seenRoot = true) :
    ∃ d, ofEvents? events = some d ∧ d.Placed ∧
      d.root.all.map Element.frame =
        (events.filterMap Event.opened?).map (fun e => ⟨e.name, e.path, e.line⟩) ∧
      (d.root.all.map Element.entry).Perm (events.filterMap PositionIndex.entry?) := by
  obtain ⟨hfollows, hgains⟩ :=
    Growth.follows_run (g := Growth.initial) Sketch.follows_initial hrun
  have hbranches : (events.foldl Growth.step .initial).sketch.branches = [] := by
    have hmap := hfollows.frames
    rw [hframes] at hmap
    exact List.map_eq_nil_iff.mp hmap.symm
  have hsome : (events.foldl Growth.step .initial).sketch.root.isSome = true := by
    have hseen := hfollows.seenRoot
    rw [hroot, hbranches] at hseen
    simpa using hseen.symm
  obtain ⟨r, hr⟩ := Option.isSome_iff_exists.mp hsome
  have hr' : (events.foldl Growth.step .initial).root = some r := hr
  refine ⟨⟨_, r, _⟩, by rw [ofEvents?, hr']; rfl, ⟨hfollows.root r hr, ?_⟩, ?_, ?_⟩
  · intro x hx
    refine hfollows.placed x ?_
    rw [Sketch.finished, hr, hbranches]
    simpa using hx
  · have hbegun := hgains.begun
    rw [Sketch.begun, hr, hbranches] at hbegun
    simpa [Sketch.begun, Growth.sketch, Growth.initial] using hbegun
  · have hfinished := hgains.finished
    rw [Sketch.finished, hr, hbranches] at hfinished
    simpa [Sketch.finished, Growth.sketch, Growth.initial] using hfinished

end Document

end XmlCompare
