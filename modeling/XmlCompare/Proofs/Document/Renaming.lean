import XmlCompare.Proofs.Compare.InStep
import XmlCompare.Proofs.Document.Lockstep
import XmlCompare.Proofs.Name.Renaming

/-!
# Documents with renamed abbreviations

Two trees grow side by side from events that are the same but for a renaming of abbreviations. Their
scopes bind the new abbreviations to what they bound the old ones to, so the names of what opens
expand to the same, and everything that has been read stays in step. Attributes that expand to one
name are one attribute on either side, for expanding does not depend on the abbreviation.
-/

set_option autoImplicit false

namespace XmlCompare

open Name (Renaming)

variable {r : Renaming}

/-! ## What is renamed -/

/-- The attribute with its name renamed. -/
def Attribute.rename (r : Renaming) (a : Attribute) : Attribute :=
  { a with name := r.attributeName a.name }

/-- Events that are the same but for renamed abbreviations. Lines may be others, and paths are not
asked for: they follow from the names. -/
inductive Event.Renamed (r : Renaming) : Event → Event → Prop
  | opened {e e' : OpenedElement} : e'.name = r.name e.name →
    e'.attributes = e.attributes.map (Prod.map r.attributeName id) →
    Event.Renamed r (.opened e) (.opened e')
  | closed {e e' : ClosedElement} : Event.Renamed r (.closed e) (.closed e')
  | text {content : String} : Event.Renamed r (.text content) (.text content)
  | comment {content : String} : Event.Renamed r (.comment content) (.comment content)

/-- Headings with renamed names: the names and the attributes expand to the same. -/
structure Heading.Renamed (r : Renaming) (h h' : Heading) : Prop where
  name : h'.name = r.name h.name
  expanded : h'.expanded = h.expanded
  attributes : h'.attributes.entries = h.attributes.entries.map (Prod.map id (Attribute.rename r))

/-- Elements with renamed names and the same text. -/
structure Element.Renamed (r : Renaming) (a b : Element) : Prop where
  heading : a.heading.Renamed r b.heading
  text : b.textContent = a.textContent

/-- Nodes that are the same but for renamed abbreviations. -/
inductive Node.Renamed (r : Renaming) : Node → Node → Prop
  | element {a b : Element} : a.InStep (Element.Renamed r) b →
    Node.Renamed r (.element a) (.element b)
  | text {content : String} : Node.Renamed r (.text content) (.text content)
  | comment {content : String} : Node.Renamed r (.comment content) (.comment content)

/-- Open elements that are the same but for renamed abbreviations. -/
structure OpenNode.Renamed (r : Renaming) (o o' : OpenNode) : Prop where
  heading : o.heading.Renamed r o'.heading
  children : List.Forall₂ (Node.Renamed r) o.children o'.children

/-- Growing trees that are the same but for renamed abbreviations. -/
def Growth.Renamed (r : Renaming) : Growth → Growth → Prop :=
  Growth.Lockstep (Scopes.Renamed r) (OpenNode.Renamed r) (Element.InStep (Element.Renamed r))

/-! ## What opens -/

namespace Heading

/-- Renamed attributes declare the same under renamed abbreviations. -/
theorem declarationsOf_renamed (attributes : List (String × String)) :
    Declarations.Renamed r (declarationsOf attributes)
      (declarationsOf (attributes.map (Prod.map r.attributeName id))) := by
  have hdeclared : (attributes.map (Prod.map r.attributeName id)).filterMap (fun a =>
      (Name.declares? a.1).map fun abbreviation => (abbreviation, a.2)) =
        (attributes.filterMap fun a => (Name.declares? a.1).map
          fun abbreviation => (abbreviation, a.2)).map (Prod.map r id) := by
    rw [List.filterMap_map, List.map_filterMap]
    refine List.filterMap_congr ?_
    rintro ⟨name, value⟩ -
    simp only [Function.comp_apply, Prod.map_apply, r.declares?_attributeName, Option.map_map]
    rfl
  rw [Declarations.Renamed, declarationsOf_eq, declarationsOf_eq, hdeclared]
  exact Dictionary.entries_ofList_map r.injective _

/-- In renamed scopes, renamed attributes expand to the same names. -/
theorem attributesOf_renamed {s s' : Scopes} (h : s.Renamed r s')
    (attributes : List (String × String)) :
    (attributesOf s' (attributes.map (Prod.map r.attributeName id))).entries =
      (attributesOf s attributes).entries.map (Prod.map id (Attribute.rename r)) := by
  have hkept : ((attributes.map (Prod.map r.attributeName id)).filter fun a =>
      (Name.declares? a.1).isNone) = (attributes.filter fun a =>
        (Name.declares? a.1).isNone).map (Prod.map r.attributeName id) := by
    rw [List.filter_map]
    congr 1
    refine List.filter_congr ?_
    rintro ⟨name, value⟩ -
    simp only [Function.comp_apply, Prod.map_apply, r.declares?_attributeName, Option.isNone_map]
  rw [attributesOf_eq, attributesOf_eq, hkept, ← Dictionary.entries_ofList_map Function.injective_id,
    List.map_map, List.map_map]
  refine congrArg (fun l => (Dictionary.ofList l).entries) (List.map_congr_left ?_)
  rintro ⟨name, value⟩ hmem
  have hnone : Name.declares? name = none :=
    Option.isNone_iff_eq_none.mp (List.mem_filter.mp hmem).2
  have hexpanded : s'.attributeName (r.attributeName name) = s.attributeName name := by
    rw [r.attributeName_of_declares?_eq_none hnone, h.attributeName]
  simp only [Function.comp_apply, Prod.map_apply, Attribute.rename, hexpanded, id_eq]

/-- A renamed element has a renamed heading, and its scope is renamed. -/
theorem renamed_ofOpened {s s' : Scopes} (h : s.Renamed r s') {e e' : OpenedElement}
    (hname : e'.name = r.name e.name)
    (hattributes : e'.attributes = e.attributes.map (Prod.map r.attributeName id)) :
    (ofOpened s e).Renamed r (ofOpened s' e') ∧
      (s.enter (ofOpened s e).declarations.entries).Renamed r
        (s'.enter (ofOpened s' e').declarations.entries) := by
  have hinner : (s.enter (declarationsOf e.attributes).entries).Renamed r
      (s'.enter (declarationsOf e'.attributes).entries) := by
    rw [hattributes]
    exact h.enter (declarationsOf_renamed e.attributes)
  refine ⟨⟨hname, ?_, ?_⟩, hinner⟩
  · show Scopes.elementName _ e'.name = _
    rw [hname]
    exact hinner.elementName e.name
  · show (attributesOf _ e'.attributes).entries = _
    rw [hattributes] at hinner ⊢
    exact attributesOf_renamed hinner e.attributes

end Heading

/-! ## What is inside -/

namespace Node

/-- Renamed nodes stay so when text is added to both. -/
theorem renamed_appendText {nodes nodes' : List Node}
    (h : List.Forall₂ (Node.Renamed r) nodes nodes') (content : String) :
    List.Forall₂ (Node.Renamed r) (appendText content nodes) (appendText content nodes') := by
  induction h with
  | nil => exact .cons .text .nil
  | cons hnode hrest ih =>
    cases hrest with
    | nil =>
      cases hnode with
      | element hinner => exact .cons (.element hinner) (.cons .text .nil)
      | text => exact .cons .text .nil
      | comment => exact .cons .comment (.cons .text .nil)
    | cons hnext hrest =>
      cases hnode with
      | element hinner => exact .cons (.element hinner) ih
      | text => exact .cons .text ih
      | comment => exact .cons .comment ih

end Node

namespace OpenNode

variable {o o' : OpenNode}

/-- Renamed open elements stay so when text is added to both. -/
theorem Renamed.pushText (h : o.Renamed r o') (content : String) :
    (o.pushText content).Renamed r (o'.pushText content) :=
  ⟨h.heading, Node.renamed_appendText h.children content⟩

/-- Renamed open elements stay so when renamed children are added. -/
theorem Renamed.push (h : o.Renamed r o') {child child' : Node} (hchild : child.Renamed r child') :
    (o.push child).Renamed r (o'.push child') :=
  ⟨h.heading, List.rel_append h.children (.cons hchild .nil)⟩

/-- The elements are in step when they close. -/
theorem Renamed.close (h : o.Renamed r o') (lines lines' : LineRange) :
    (o.close lines).InStep (Element.Renamed r) (o'.close lines') := by
  have hkept : List.Forall₂ (Node.Renamed r) (o.children.filter (!·.isBlankText))
      (o'.children.filter (!·.isBlankText)) := by
    refine List.rel_filter ?_ h.children
    intro node node' hnode
    cases hnode <;> exact Iff.rfl
  have htexts : (o.children.filter (!·.isBlankText)).filterMap Node.text? =
      (o'.children.filter (!·.isBlankText)).filterMap Node.text? := by
    rw [← List.forall₂_eq_eq_eq]
    refine List.rel_filterMap ?_ hkept
    intro node node' hnode
    cases hnode with
    | element => exact .none
    | text => exact .some rfl
    | comment => exact .none
  refine .intro ⟨⟨h.heading.name, h.heading.expanded, h.heading.attributes⟩, ?_⟩
    (List.rel_filterMap ?_ hkept)
  · exact congrArg (fun texts => Text.normalized (String.join texts)) htexts.symm
  · intro node node' hnode
    cases hnode with
    | element hinner => exact .some hinner
    | text => exact .none
    | comment => exact .none

end OpenNode

/-! ## Growing side by side -/

namespace Growth

variable {g g' : Growth}

/-- In the beginning there is nothing to rename. -/
theorem renamed_initial : initial.Renamed r initial := ⟨Scopes.renamed_document, .nil, .none⟩

/-- One event and its renamed form keep the trees the same but for the renaming. -/
theorem Renamed.step (h : g.Renamed r g') {e e' : Event} (he : e.Renamed r e') :
    (g.step e).Renamed r (g'.step e') := by
  cases he with
  | opened hname hattributes =>
    obtain ⟨hheading, hscopes⟩ := Heading.renamed_ofOpened h.scopes hname hattributes
    exact ⟨hscopes, .cons ⟨hheading, .nil⟩ h.stack, h.root⟩
  | closed =>
    exact h.closeElement (fun _ _ hs => hs.leave) (fun _ _ ho => ho.close _ _)
      (fun _ _ _ _ ho hparent => hparent.push (.element (ho.close _ _)))
  | text => exact h.addText fun _ _ ho => ho.pushText _
  | comment => exact h.addComment fun _ _ ho => ho.push .comment

/-- Renamed trees stay so over renamed events. -/
theorem Renamed.steps (h : g.Renamed r g') {events events' : List Event}
    (hevents : List.Forall₂ (Event.Renamed r) events events') :
    (events.foldl Growth.step g).Renamed r (events'.foldl Growth.step g') := by
  induction hevents generalizing g g' with
  | nil => exact h
  | cons he _ ih => exact ih (h.step he)

end Growth

end XmlCompare
