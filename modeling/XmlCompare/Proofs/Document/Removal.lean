import XmlCompare.Proofs.Compare.Likeness
import XmlCompare.Proofs.Document.Numbering

/-!
# Trees with an element removed

Removing what stands at a path keeps everything about the other elements but their children, and
leaves alone the trees in which nothing has the path. In a numbered tree that is all but the tree
of the removed element and those of the elements around it.
-/

set_option autoImplicit false

namespace XmlCompare.Element

mutual

/-- The tree without what stands at a path inside it. -/
def without (p : Path) : Element → Element
  | mk heading children => mk heading (withoutNodes p children)
termination_by structural e => e

/-- Some nodes without what stands at a path. -/
def withoutNodes (p : Path) : List Node → List Node
  | [] => []
  | .element e :: rest =>
    if e.path = p then withoutNodes p rest else .element (e.without p) :: withoutNodes p rest
  | .text content :: rest => .text content :: withoutNodes p rest
  | .comment content :: rest => .comment content :: withoutNodes p rest
termination_by structural nodes => nodes

end

variable {p : Path} {e a b : Element}

/-- An element keeps its heading when something inside it goes. -/
theorem heading_without (p : Path) (e : Element) : (e.without p).heading = e.heading := by
  cases e
  rfl

/-- Of the elements among some nodes those at the path go, and the others lose what is at the path
inside them. -/
theorem elements_withoutNodes (p : Path) (nodes : List Node) :
    (withoutNodes p nodes).filterMap Node.element? =
      ((nodes.filterMap Node.element?).filter (·.path ≠ p)).map (without p) := by
  induction nodes with
  | nil => rfl
  | cons node rest ih =>
    cases node with
    | text content => exact ih
    | comment content => exact ih
    | element c =>
      by_cases hpath : c.path = p
      · simp [withoutNodes, Node.element?, hpath, ih]
      · simp [withoutNodes, Node.element?, hpath, ih]

/-- The texts among some nodes stay. -/
theorem texts_withoutNodes (p : Path) (nodes : List Node) :
    (withoutNodes p nodes).filterMap Node.text? = nodes.filterMap Node.text? := by
  induction nodes with
  | nil => rfl
  | cons node rest ih =>
    cases node with
    | text content => exact congrArg (content :: ·) ih
    | comment content => exact ih
    | element c =>
      rw [withoutNodes, List.filterMap_cons_none (show (Node.element c).text? = none from rfl)]
      by_cases hpath : c.path = p
      · rw [if_pos hpath, ih]
      · rw [if_neg hpath, List.filterMap_cons_none rfl, ih]

/-- Of the children those at the path go, and the others lose what is at the path inside them. -/
theorem childElements_without (p : Path) (e : Element) : (e.without p).childElements =
    (e.childElements.filter (·.path ≠ p)).map (without p) := by
  cases e with
  | mk heading children => exact elements_withoutNodes p children

/-- An element keeps its text when something inside it goes. -/
theorem textContent_without (p : Path) (e : Element) :
    (e.without p).textContent = e.textContent := by
  cases e with
  | mk heading children =>
    show Text.normalized (String.join ((withoutNodes p children).filterMap Node.text?)) = _
    rw [texts_withoutNodes]
    rfl

/-- Removing what is inside an element changes nothing about the element itself. -/
theorem alike_of_without (h : (a.without p).Alike b) : a.Alike b where
  expanded := by
    have hexpanded := h.expanded
    rw [expanded, heading_without] at hexpanded
    exact hexpanded
  attributes := by
    have hattributes := h.attributes
    rw [SameAttributes, attributes, heading_without] at hattributes
    exact hattributes
  text := by rw [← textContent_without p a, h.text]

/-- Nodes stay as they are if nothing at the path is among them or inside them. -/
theorem withoutNodes_eq_self {nodes : List Node}
    (h : ∀ c ∈ nodes.filterMap Node.element?, c.path ≠ p ∧ c.without p = c) :
    withoutNodes p nodes = nodes := by
  induction nodes with
  | nil => rfl
  | cons node rest ih =>
    cases node with
    | text content => exact congrArg (Node.text content :: ·) (ih h)
    | comment content => exact congrArg (Node.comment content :: ·) (ih h)
    | element c =>
      obtain ⟨hpath, hself⟩ := h c List.mem_cons_self
      rw [withoutNodes, if_neg hpath, hself, ih fun x hx => h x (List.mem_cons_of_mem _ hx)]

/-- A tree in which no element has the path stays as it is. -/
theorem without_eq_self (h : p ∉ e.all.map path) : e.without p = e := by
  induction e using descent with
  | step e ih =>
    have hchildren : ∀ c ∈ e.childElements, c.path ≠ p ∧ c.without p = c := by
      intro c hc
      have hsub : ∀ x ∈ c.all, x ∈ e.all := fun x hx => mem_all_trans (child_mem_all hc) hx
      constructor
      · rintro rfl
        exact h (List.mem_map_of_mem (child_mem_all hc))
      · apply ih c hc
        intro hmem
        obtain ⟨x, hx, hpath⟩ := List.mem_map.mp hmem
        exact h (List.mem_map.mpr ⟨x, hsub x hx, hpath⟩)
    cases e with
    | mk heading children =>
      have hnodes : withoutNodes p children = children := withoutNodes_eq_self hchildren
      rw [without, hnodes]

/-! ## Removing below one child -/

variable {before after : List Element}

/-- What stands inside a child stands in none of its siblings. -/
theorem siblings_without (h : e.Placed) {c x : Element}
    (hsplit : e.childElements = before ++ c :: after) (hx : x ∈ c.all) {s : Element}
    (hs : s ∈ before ++ after) : s.path ≠ x.path ∧ s.without x.path = s := by
  have hnot := not_mem_sibling h hsplit hx hs
  constructor
  · intro hpath
    exact hnot (List.mem_map.mpr ⟨s, self_mem_all s, hpath⟩)
  · exact without_eq_self hnot

/-- If one of the children of a placed element goes, the others stay as they are. -/
theorem childElements_without_child (h : e.Placed)
    (hsplit : e.childElements = before ++ a :: after) :
    (e.without a.path).childElements = before ++ after := by
  have hsiblings := fun s hs =>
    siblings_without (s := s) h hsplit (self_mem_all a) hs
  have hkept : (before ++ after).filter (·.path ≠ a.path) = before ++ after := by
    rw [List.filter_eq_self]
    intro s hs
    exact decide_eq_true (hsiblings s hs).1
  have hfilter : (before ++ a :: after).filter (·.path ≠ a.path) = before ++ after := by
    rw [List.filter_append, List.filter_cons_of_neg (by simp), ← List.filter_append, hkept]
  rw [childElements_without, hsplit, hfilter, List.map_congr_left fun s hs => (hsiblings s hs).2,
    List.map_id']

end XmlCompare.Element
