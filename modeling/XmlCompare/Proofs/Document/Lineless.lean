import XmlCompare.Proofs.Compare.InStep
import XmlCompare.Proofs.Document.Addressing
import XmlCompare.Proofs.Document.Comments

/-!
# Documents apart from lines

A tree with all its lines set to one line is what the tree is apart from lines. It grows from the
events in the same way, so events that differ in lines at most make documents that differ in lines
at most; and no comparison looks at lines, so trees that differ in nothing else agree.
-/

set_option autoImplicit false

namespace XmlCompare

/-! ## Forgetting lines -/

/-- The heading as if its element stood on the first line. -/
def Heading.withoutLines (h : Heading) : Heading := { h with lines := .single 1 }

mutual

/-- The element as if it and everything in it stood on the first line. -/
def Element.withoutLines : Element → Element
  | .mk heading children => .mk heading.withoutLines (Element.withoutLinesOfNodes children)
termination_by structural e => e

/-- The nodes as if everything in them stood on the first line. -/
def Element.withoutLinesOfNodes : List Node → List Node
  | [] => []
  | .element e :: rest => .element e.withoutLines :: Element.withoutLinesOfNodes rest
  | .text content :: rest => .text content :: Element.withoutLinesOfNodes rest
  | .comment content :: rest => .comment content :: Element.withoutLinesOfNodes rest
termination_by structural nodes => nodes

end

/-- The node as if everything in it stood on the first line. -/
def Node.withoutLines : Node → Node
  | .element e => .element e.withoutLines
  | .text content => .text content
  | .comment content => .comment content

/-- The document as if it were written on one line. -/
def Document.withoutLines (d : Document) : Document := { d with root := d.root.withoutLines }

/-- The open element as if everything in it stood on the first line. -/
def OpenNode.withoutLines (o : OpenNode) : OpenNode :=
  ⟨o.heading.withoutLines, o.children.map Node.withoutLines⟩

/-- The growing tree as if everything in it stood on the first line. -/
def Growth.withoutLines (g : Growth) : Growth :=
  { g with stack := g.stack.map OpenNode.withoutLines, root := g.root.map Element.withoutLines }

/-- The event as if it happened on the first line. -/
def Event.withoutLines : Event → Event
  | .opened e => .opened { e with line := 1 }
  | .closed e => .closed { e with lines := .single 1 }
  | .text content => .text content
  | .comment content => .comment content

namespace Element

/-- Nodes forget their lines one by one. -/
theorem withoutLinesOfNodes_eq (nodes : List Node) :
    withoutLinesOfNodes nodes = nodes.map Node.withoutLines := by
  induction nodes with
  | nil => rfl
  | cons node rest ih =>
    cases node with
    | element e => exact congrArg (Node.element e.withoutLines :: ·) ih
    | text content => exact congrArg (Node.text content :: ·) ih
    | comment content => exact congrArg (Node.comment content :: ·) ih

/-- An element forgets its lines in its heading and its children. -/
theorem withoutLines_mk (heading : Heading) (children : List Node) :
    (mk heading children).withoutLines =
      .mk heading.withoutLines (children.map Node.withoutLines) := by
  rw [withoutLines, withoutLinesOfNodes_eq]

/-- The children of an element forget their lines with it. -/
theorem childElements_withoutLines (e : Element) :
    e.withoutLines.childElements = e.childElements.map withoutLines := by
  obtain ⟨heading, children⟩ := e
  rw [withoutLines_mk]
  show (children.map Node.withoutLines).filterMap Node.element? =
    (children.filterMap Node.element?).map withoutLines
  rw [List.filterMap_map, List.map_filterMap]
  refine List.filterMap_congr fun node _ => ?_
  cases node <;> rfl

/-- Lines have no part in how elements are alike. -/
theorem alike_withoutLines (e : Element) : e.withoutLines.Alike e := by
  obtain ⟨heading, children⟩ := e
  rw [withoutLines_mk]
  refine ⟨rfl, fun name => rfl, ?_⟩
  have htexts : (children.map Node.withoutLines).filterMap Node.text? =
      children.filterMap Node.text? := by
    rw [List.filterMap_map]
    refine List.filterMap_congr fun node _ => ?_
    cases node <;> rfl
  exact congrArg (fun texts => Text.normalized (String.join texts)) htexts

/-- An element agrees with itself without lines. -/
theorem agree_withoutLines (e : Element) : e.withoutLines.Agree e := by
  induction e using descent with
  | step e ih =>
    refine .intro (alike_withoutLines e) ?_
    rw [childElements_withoutLines, List.forall₂_map_left_iff, List.forall₂_same]
    exact ih

/-- Elements that differ in lines at most agree. -/
theorem agree_of_withoutLines {a b : Element} (h : a.withoutLines = b.withoutLines) : a.Agree b :=
  (agree_withoutLines a).euclidean (h ▸ agree_withoutLines b)

end Element

/-! ## Growing without lines -/

namespace Node

/-- Whether a node is blank text does not depend on lines. -/
theorem isBlankText_withoutLines (node : Node) :
    node.withoutLines.isBlankText = node.isBlankText := by
  cases node <;> rfl

/-- Text may be added before or after lines are forgotten. -/
theorem map_withoutLines_appendText (content : String) (nodes : List Node) :
    (appendText content nodes).map withoutLines =
      appendText content (nodes.map withoutLines) := by
  induction nodes with
  | nil => rfl
  | cons node rest ih =>
    by_cases hnil : rest = []
    · subst hnil
      cases node <;> rfl
    · rw [appendText_cons _ _ hnil, List.map_cons, ih, List.map_cons,
        appendText_cons _ _ (by simpa using hnil)]

end Node

/-- A child may be added before or after lines are forgotten. -/
theorem OpenNode.withoutLines_push (o : OpenNode) (child : Node) :
    (o.push child).withoutLines = o.withoutLines.push child.withoutLines := by
  simp [OpenNode.withoutLines, OpenNode.push]

/-- An element may be closed before or after lines are forgotten. -/
theorem OpenNode.withoutLines_close (o : OpenNode) (lines : LineRange) :
    (o.close lines).withoutLines = o.withoutLines.close (.single 1) := by
  have hkept : (o.children.filter (!·.isBlankText)).map Node.withoutLines =
      (o.children.map Node.withoutLines).filter (!·.isBlankText) := by
    rw [List.filter_map]
    congr 1
    refine List.filter_congr fun node _ => ?_
    simp only [Function.comp_apply, Node.isBlankText_withoutLines]
  rw [OpenNode.close, Element.withoutLines_mk, hkept]
  rfl

namespace Growth

/-- A tree without lines grows from events without lines. -/
theorem withoutLines_step (g : Growth) (e : Event) :
    (g.step e).withoutLines = g.withoutLines.step e.withoutLines := by
  obtain ⟨scopes, stack, root, prolog, epilog⟩ := g
  cases e with
  | opened e => rfl
  | text content =>
    cases stack with
    | nil => rfl
    | cons o stack =>
      have hpush : (o.pushText content).withoutLines = o.withoutLines.pushText content :=
        congrArg (OpenNode.mk o.heading.withoutLines)
          (Node.map_withoutLines_appendText content o.children)
      exact congrArg (fun o => Growth.mk scopes (o :: stack.map OpenNode.withoutLines) _ _ _) hpush
  | comment content =>
    cases stack with
    | nil => cases root <;> rfl
    | cons o stack =>
      have hpush := o.withoutLines_push (.comment content)
      exact congrArg (fun o => Growth.mk scopes (o :: stack.map OpenNode.withoutLines) _ _ _) hpush
  | closed e =>
    cases stack with
    | nil => rfl
    | cons o stack =>
      have hclose := o.withoutLines_close e.lines
      cases stack with
      | nil => exact congrArg (fun x => Growth.mk scopes.leave [] (some x) _ _) hclose
      | cons parent stack =>
        have hpush := parent.withoutLines_push (.element (o.close e.lines))
        rw [Node.withoutLines, hclose] at hpush
        exact congrArg
          (fun o => Growth.mk scopes.leave (o :: stack.map OpenNode.withoutLines) _ _ _) hpush

/-- A tree may grow before or after lines are forgotten. -/
theorem withoutLines_foldl (g : Growth) (events : List Event) :
    (events.foldl step g).withoutLines =
      (events.map Event.withoutLines).foldl step g.withoutLines := by
  induction events generalizing g with
  | nil => rfl
  | cons e events ih => rw [List.foldl_cons, ih, withoutLines_step]; rfl

end Growth

/-- Events that differ in lines at most are the same without them. -/
theorem Event.Aligned.withoutLines {e e' : Event} (h : e.Aligned e') :
    e.withoutLines = e'.withoutLines := by
  cases h with
  | opened hname hattributes hpath => simp [Event.withoutLines, hname, hattributes, hpath]
  | closed hpath => simp [Event.withoutLines, hpath]
  | text => rfl
  | comment => rfl

namespace Document

/-- Events without lines describe the document without lines. -/
theorem ofEvents?_withoutLines (events : List Event) :
    ofEvents? (events.map Event.withoutLines) = (ofEvents? events).map withoutLines := by
  have hfold : (events.map Event.withoutLines).foldl Growth.step .initial =
      (events.foldl Growth.step .initial).withoutLines :=
    (Growth.withoutLines_foldl .initial events).symm
  rw [ofEvents?, ofEvents?, hfold]
  generalize events.foldl Growth.step .initial = g
  obtain ⟨scopes, stack, root, prolog, epilog⟩ := g
  cases root <;> rfl

/-- Events that differ in lines at most make documents that differ in lines at most. -/
theorem exists_of_aligned {events events' : List Event} {d : Document}
    (h : List.Forall₂ Event.Aligned events events') (hd : ofEvents? events = some d) :
    ∃ d', ofEvents? events' = some d' ∧ d'.withoutLines = d.withoutLines := by
  have hsame : events.map Event.withoutLines = events'.map Event.withoutLines := by
    rw [← List.forall₂_eq_eq_eq, List.forall₂_map_left_iff, List.forall₂_map_right_iff]
    exact h.imp fun _ _ => Event.Aligned.withoutLines
  have hmap := ofEvents?_withoutLines events'
  rw [← hsame, ofEvents?_withoutLines, hd] at hmap
  obtain ⟨d', hd', heq⟩ := Option.map_eq_some_iff.mp hmap.symm
  exact ⟨d', hd', heq⟩

end Document

end XmlCompare
