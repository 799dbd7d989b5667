import XmlCompare.Proofs.Compare.InStep
import XmlCompare.Proofs.Document.Merging
import XmlCompare.Proofs.Text.Words

/-!
# Nodes but for blanks

Blanks around a text make no difference to how it is printed, and blank text is no child. What is
left of nodes without either is their outline. `Gains` says what has to be kept up while nodes are
read, so that their outline follows, and so that texts do not run together.
-/

set_option autoImplicit false

namespace XmlCompare

open Text (isBlank trimmed words)

namespace Node

/-- What a node is, but for the blanks around a text and for the inside of an element. -/
inductive Outline
  | element
  | text (content : String)
  | comment (content : String)
  deriving DecidableEq

/-- A node without the inside of an element and the blanks around a text. -/
def outline : Node → Outline
  | element _ => .element
  | text content => .text (trimmed content)
  | comment content => .comment content

end Node

namespace Element

/-- The texts directly inside the element. -/
def texts (e : Element) : List String := e.children.filterMap Node.text?

/-- The texts directly inside the element have the same words when they are put together as they
have one by one. -/
def Spaced (e : Element) : Prop :=
  words (String.join e.texts).toList = e.texts.flatMap fun t => words t.toList

instance (e : Element) : Decidable e.Spaced := inferInstanceAs (Decidable (_ = _))

/-- Elements that differ at most in where they stand, in the blanks around their texts and in what
is inside their child elements. -/
structure EqualTrimmed (a b : Element) : Prop where
  name : a.name = b.name
  expanded : a.expanded = b.expanded
  declarations : a.heading.declarations = b.heading.declarations
  attributes : a.attributes = b.attributes
  outline : a.children.map Node.outline = b.children.map Node.outline

/-- What becomes of an element when it is printed and read again. -/
def Reprinted (a b : Element) : Prop := a.EqualTrimmed b ∧ b.Spaced

end Element

namespace Node

/-- The outline of the nodes that are no blank text. -/
def outlines (nodes : List Node) : List Outline := (nodes.filter (!·.isBlankText)).map outline

/-- The last node is a text that is not blank: a text that follows would be part of it. -/
def EndsInText (nodes : List Node) : Prop :=
  ∃ content, nodes.getLast? = some (.text content) ∧ Text.isBlankText content = false

/-- Every text ends with a blank. -/
def BlankEnds (nodes : List Node) : Prop :=
  ∀ content, text content ∈ nodes → ∀ c ∈ content.toList.getLast?, isBlank c = true

variable {nodes nodes' nodes'' added added' : List Node} {content : String}

/-- The outlines of two runs of nodes follow each other. -/
theorem outlines_append (nodes added : List Node) :
    outlines (nodes ++ added) = outlines nodes ++ outlines added := by
  rw [outlines, List.filter_append, List.map_append]
  rfl

/-- Where no text is blank, no node is left out of the outline. -/
theorem outlines_of_not_blank (h : ∀ node ∈ nodes, node.isBlankText = false) :
    outlines nodes = nodes.map outline := by
  have hall : nodes.filter (!·.isBlankText) = nodes :=
    List.filter_eq_self.mpr fun node hnode => by rw [h node hnode]; rfl
  rw [outlines, hall]

/-- Blank text is left out of the outline. -/
theorem outlines_blank (h : Text.isBlankText content = true) : outlines [text content] = [] := by
  simp [outlines, isBlankText, h]

/-- Text that is not blank stands in the outline without the blanks around it. -/
theorem outlines_text (h : Text.isBlankText content = false) :
    outlines [text content] = [.text (trimmed content)] := by
  simp [outlines, isBlankText, outline, h]

/-- Blanks that follow leave the outline as it is. -/
theorem outlines_appendText_blank (h : Text.isBlankText content = true) (nodes : List Node) :
    outlines (appendText content nodes) = outlines nodes := by
  rcases appendText_cases content nodes with ⟨-, heq⟩ | ⟨init, last, rfl, heq⟩
  · rw [heq, outlines_append, outlines_blank h, List.append_nil]
  · rw [heq, outlines_append, outlines_append]
    cases hlast : Text.isBlankText last with
    | true => rw [outlines_blank hlast, outlines_blank (by rw [Text.isBlankText_append, hlast, h]; rfl)]
    | false =>
      rw [outlines_text hlast, outlines_text (by rw [Text.isBlankText_append, hlast]; rfl),
        Text.trimmed_append_blank h]

/-- A text that follows is a node of its own in the outline, if no other text comes before it. -/
theorem outlines_appendText (h : ¬ EndsInText nodes) (hcontent : Text.isBlankText content = false) :
    outlines (appendText content nodes) = outlines nodes ++ [.text (trimmed content)] := by
  rcases appendText_cases content nodes with ⟨-, heq⟩ | ⟨init, last, rfl, heq⟩
  · rw [heq, outlines_append, outlines_text hcontent]
  · have hlast : Text.isBlankText last = true := by
      rw [← Bool.not_eq_false]
      exact fun hlast => h ⟨last, List.getLast?_concat, hlast⟩
    rw [heq, outlines_append, outlines_append, outlines_blank hlast, List.append_nil,
      outlines_text (by rw [Text.isBlankText_append, hcontent, Bool.and_false]),
      Text.trimmed_blank_append hlast]

/-- Blanks that follow do not make the last node a text. -/
theorem endsInText_of_appendText_blank (h : Text.isBlankText content = true)
    (hends : EndsInText (appendText content nodes)) : EndsInText nodes := by
  obtain ⟨last', hlast', hnot⟩ := hends
  rcases appendText_cases content nodes with ⟨-, heq⟩ | ⟨init, last, rfl, heq⟩
  · rw [heq, List.getLast?_concat] at hlast'
    obtain rfl := Node.text.inj (Option.some.inj hlast')
    rw [h] at hnot
    cases hnot
  · rw [heq, List.getLast?_concat] at hlast'
    obtain rfl := Node.text.inj (Option.some.inj hlast')
    rw [Text.isBlankText_append, h, Bool.and_true] at hnot
    exact ⟨last, List.getLast?_concat, hnot⟩

/-- Texts end with blanks as before when text that does so is added. -/
theorem BlankEnds.appendText (h : BlankEnds nodes)
    (hcontent : ∀ c ∈ content.toList.getLast?, isBlank c = true) :
    BlankEnds (appendText content nodes) := by
  intro content' hmem
  rcases appendText_cases content nodes with ⟨-, heq⟩ | ⟨init, last, rfl, heq⟩
  · rw [heq] at hmem
    rcases List.mem_append.mp hmem with hmem | hmem
    · exact h content' hmem
    · obtain rfl := Node.text.inj (List.mem_singleton.mp hmem)
      exact hcontent
  · rw [heq] at hmem
    rcases List.mem_append.mp hmem with hmem | hmem
    · exact h content' (List.mem_append_left _ hmem)
    · obtain rfl := Node.text.inj (List.mem_singleton.mp hmem)
      intro c hc
      rw [String.toList_append, List.getLast?_append, Option.mem_def, Option.or_eq_some_iff] at hc
      rcases hc with hc | ⟨-, hc⟩
      · exact hcontent c hc
      · exact h last (by simp) c hc

/-! ## Nodes that are read -/

/-- Nodes to which others have been added, but for blanks. -/
structure Gains (added nodes nodes' : List Node) : Prop where
  outlines : outlines nodes' = outlines nodes ++ outlines added
  elements : ∃ xs, nodes'.filterMap element? = nodes.filterMap element? ++ xs ∧
    List.Forall₂ (Element.InStep Element.Reprinted) (added.filterMap element?) xs
  ends : EndsInText nodes' → EndsInText (nodes ++ added)
  blankEnds : BlankEnds nodes → BlankEnds nodes'

/-- Nodes to which nothing is added have gained nothing. -/
theorem Gains.refl (nodes : List Node) : Gains [] nodes nodes where
  outlines := (List.append_nil _).symm
  elements := ⟨[], (List.append_nil _).symm, .nil⟩
  ends := fun h => by rwa [List.append_nil]
  blankEnds := id

/-- What nodes gain in two steps adds up. -/
theorem Gains.trans (h : Gains added nodes nodes') (h' : Gains added' nodes' nodes'') :
    Gains (added ++ added') nodes nodes'' where
  outlines := by
    rw [h'.outlines, h.outlines, outlines_append, List.append_assoc]
  elements := by
    obtain ⟨xs, hxs, hrelated⟩ := h.elements
    obtain ⟨xs', hxs', hrelated'⟩ := h'.elements
    refine ⟨xs ++ xs', ?_, ?_⟩
    · rw [hxs', hxs, List.append_assoc]
    · rw [List.filterMap_append]
      exact List.rel_append hrelated hrelated'
  ends := by
    intro hends
    obtain ⟨content, hlast, hnot⟩ := h'.ends hends
    rw [List.getLast?_append] at hlast
    cases hadded : added'.getLast? with
    | none =>
      obtain rfl := List.getLast?_eq_none_iff.mp hadded
      rw [List.append_nil]
      exact h.ends ⟨content, hlast, hnot⟩
    | some node =>
      rw [hadded] at hlast
      exact ⟨content, by rw [← List.append_assoc, List.getLast?_append, hadded]; exact hlast, hnot⟩
  blankEnds := fun hends => h'.blankEnds (h.blankEnds hends)

/-- Blank text adds nothing. -/
theorem gains_blank (h : Text.isBlankText content = true) (nodes : List Node) :
    Gains [] nodes (appendText content nodes) where
  outlines := by
    rw [outlines_appendText_blank h]
    exact (List.append_nil _).symm
  elements := ⟨[], by rw [elements_appendText, List.append_nil], .nil⟩
  ends := fun hends => by
    rw [List.append_nil]
    exact endsInText_of_appendText_blank h hends
  blankEnds := fun hends => hends.appendText fun c hc =>
    List.all_eq_true.mp h c (List.mem_of_getLast? hc)

/-- A text that ends with a blank is added where no other text comes before it. -/
theorem gains_text {found : String} (h : ¬ EndsInText nodes) (hcontent : Text.isBlankText content = false)
    (htrimmed : trimmed found = trimmed content)
    (hends : ∀ c ∈ found.toList.getLast?, isBlank c = true) :
    Gains [.text content] nodes (appendText found nodes) where
  outlines := by
    have hfound := (Text.isBlankText_of_trimmed htrimmed).trans hcontent
    rw [outlines_appendText h hfound, outlines_text hcontent, htrimmed]
  elements := ⟨[], by rw [elements_appendText, List.append_nil], .nil⟩
  ends := fun _ => ⟨content, List.getLast?_concat, hcontent⟩
  blankEnds := fun hnodes => hnodes.appendText hends

/-- A comment adds itself. -/
theorem gains_comment (nodes : List Node) (content : String) :
    Gains [.comment content] nodes (nodes ++ [.comment content]) where
  outlines := outlines_append _ _
  elements := ⟨[], by simp [List.filterMap_cons, element?], .nil⟩
  ends := id
  blankEnds := fun h content' hmem => h content' (by simpa using hmem)

/-- An element that is a reprint of another one adds that one. -/
theorem gains_element {e x : Element} (h : e.InStep Element.Reprinted x) (nodes : List Node) :
    Gains [.element e] nodes (nodes ++ [.element x]) where
  outlines := outlines_append _ _
  elements := ⟨[x], by rw [List.filterMap_append]; rfl, .cons h .nil⟩
  ends := by
    rintro ⟨content, hlast, -⟩
    rw [List.getLast?_concat] at hlast
    cases hlast
  blankEnds := fun hends content' hmem => hends content' (by simpa using hmem)

end Node

end XmlCompare
