import XmlCompare.Proofs.Document.Heading
import XmlCompare.Proofs.Document.Outline
import XmlCompare.Proofs.Document.Part

/-!
# Documents that are printed and read again

A document that was read from a text is printed as a text that is read as the same document but for
lines and for the blanks around texts, if its names are plain. Every node is printed on lines of its
own; what stands in front of it and behind it goes to the texts around it, or to blank text, which
is dropped. So a text that stood alone stands between blanks, and texts do not run together.
-/

set_option autoImplicit false

namespace XmlCompare

open Element (Reprinted EqualTrimmed InStep)
open Markup.Token.Piece (IsBody)
open Node (Gains EndsInText BlankEnds Tidy outlines)
open Text (isMarkupBlank trim trimmed)

/-! ## Inside an element -/

/-- Part of a text that, inside an element whose scopes are `scopes`, adds some nodes to those of
the element. -/
def Fills (scopes : Scopes) (added : List Node) (part : List Char) : Prop :=
  Reads
    (fun g => g.scopes = scopes ∧ ∃ o rest, g.stack = o :: rest ∧
      (EndsInText o.children → ∀ node ∈ added.head?, node.text? = none))
    part
    (fun g g' => ∃ o rest nodes, g.stack = o :: rest ∧ Gains added o.children nodes ∧
      g' = { g with stack := ⟨o.heading, nodes⟩ :: rest })

/-- Puts an element into the innermost open element, or at the top. -/
def Growth.put (g : Growth) (x : Element) : Growth :=
  match g.stack with
  | [] => { g with root := some x }
  | o :: rest => { g with stack := o.push (.element x) :: rest }

/-- Part of a text that, where `scopes` are in force, is read as an element. -/
def Forms (scopes : Scopes) (e : Element) (part : List Char) : Prop :=
  Reads (fun g => g.scopes = scopes ∧ (g.stack = [] → g.root = none)) part
    (fun g g' => ∃ x, e.InStep Reprinted x ∧ g' = g.put x)

namespace Fills

variable {scopes : Scopes} {added added' : List Node} {part part' : List Char}

/-- Parts that stand one behind the other add their nodes one behind the other, if no two texts
meet. -/
theorem append (h : Fills scopes added part) (h' : Fills scopes added' part')
    (hapart : ∀ a ∈ added.getLast?, ∀ b ∈ added'.head?, a.text? = none ∨ b.text? = none) :
    Fills scopes (added ++ added') (part ++ part') := by
  have hfirst : Reads (fun g => g.scopes = scopes ∧ ∃ o rest, g.stack = o :: rest ∧
      (EndsInText o.children → ∀ node ∈ (added ++ added').head?, node.text? = none)) part
      (fun g g' => ∃ o rest nodes, g.stack = o :: rest ∧ Gains added o.children nodes ∧
        g' = { g with stack := ⟨o.heading, nodes⟩ :: rest }) := by
    refine h.imp ?_ fun _ _ _ hg => hg
    rintro g ⟨hscopes, o, rest, hstack, hfits⟩
    refine ⟨hscopes, o, rest, hstack, fun hends node hnode => hfits hends node ?_⟩
    rw [List.head?_append, Option.mem_def.mp hnode]
    rfl
  refine (hfirst.append h' ?_).imp (fun _ hg => hg) ?_
  · rintro g g' ⟨hscopes, o, rest, hstack, hfits⟩ ⟨o', rest', nodes, hstack', hgains, rfl⟩
    obtain ⟨rfl, rfl⟩ := List.cons.inj (hstack.symm.trans hstack')
    refine ⟨hscopes, _, _, rfl, fun hends node hnode => ?_⟩
    obtain ⟨content, hlast, hnot⟩ := hgains.ends hends
    rw [List.getLast?_append] at hlast
    cases hadded : added.getLast? with
    | none =>
      -- Nothing has been added, so it is the last node from before that is a text.
      rw [hadded] at hlast
      obtain rfl := List.getLast?_eq_none_iff.mp hadded
      exact hfits ⟨content, hlast, hnot⟩ node hnode
    | some last =>
      rw [hadded] at hlast
      obtain rfl := Option.some.inj hlast
      exact (hapart _ hadded node hnode).resolve_left (by simp [Node.text?])
  · rintro g g'' - ⟨g', ⟨o, rest, nodes, hstack, hgains, rfl⟩, o', rest', nodes', hstack',
      hgains', rfl⟩
    obtain ⟨rfl, rfl⟩ := List.cons.inj hstack'
    exact ⟨o, rest, nodes', hstack, hgains.trans hgains', rfl⟩

/-- Character data that is added to the nodes as some text. -/
theorem of_text {raw : List Char} (content : List Char) (hne : raw ≠ []) (hno : '<' ∉ raw)
    (hraw : Text.Resolves raw content)
    (hgains : ∀ nodes, (EndsInText nodes → ∀ node ∈ added.head?, node.text? = none) →
      Gains added nodes (Node.appendText (String.ofList content) nodes)) :
    Fills scopes added raw := by
  refine (Reads.text hne hno hraw).imp ?_ ?_
  · rintro g ⟨-, o, rest, hstack, -⟩
    rw [hstack]
    exact List.cons_ne_nil _ _
  · rintro g g' ⟨-, o, rest, hstack, hfits⟩ rfl
    refine ⟨o, rest, _, hstack, hgains _ hfits, ?_⟩
    unfold Growth.addText
    rw [hstack]
    rfl

/-- Blanks add no node. -/
theorem blank {blanks : List Char} (h : ∀ c ∈ blanks, isMarkupBlank c = true) :
    Fills scopes [] blanks := by
  by_cases hnil : blanks = []
  · rw [hnil]
    refine Reads.nil.imp (fun _ _ => trivial) ?_
    rintro g g' ⟨-, o, rest, hstack, -⟩ rfl
    refine ⟨o, rest, o.children, hstack, .refl _, ?_⟩
    rw [← hstack]
  · have hnot : ∀ {d : Char}, isMarkupBlank d = false → d ∉ blanks :=
      Text.not_mem_of_isMarkupBlank h
    refine of_text blanks hnil (hnot rfl) (Text.resolves_self (hnot rfl)) fun nodes _ => ?_
    refine Node.gains_blank ?_ nodes
    rw [Text.isBlankText, String.toList_ofList]
    exact List.all_eq_true.mpr fun c hc => Text.isBlank_of_isMarkupBlank (h c hc)

/-- A text that is not blank adds itself, if blanks stand around it. -/
theorem text {content : String} (hcontent : Text.isBlankText content = false)
    {front back : List Char} (hfront : ∀ c ∈ front, isMarkupBlank c = true)
    (hback : Text.IsMarkupGap back) : Fills scopes [.text content]
      (front ++ (Text.escapeText (trimmed content)).toList ++ back) := by
  have hfront' : ∀ c ∈ front, Text.isBlank c = true := fun c hc =>
    Text.isBlank_of_isMarkupBlank (hfront c hc)
  have hback' := hback.isGap
  have hnot : ∀ {d : Char}, isMarkupBlank d = false → d ∉ front :=
    Text.not_mem_of_isMarkupBlank hfront
  rw [Text.toList_escapeText, Text.toList_trimmed]
  refine of_text (front ++ trim content.toList ++ back) ?_ ?_ ?_ fun nodes hfits => ?_
  · exact List.append_ne_nil_of_right_ne_nil _ hback.1
  · intro hmem
    rcases List.mem_append.mp hmem with hmem | hmem
    · rcases List.mem_append.mp hmem with hmem | hmem
      · exact hnot rfl hmem
      · exact Text.not_mem_flatMap_escapeTextChar _ hmem
    · exact hback.not_mem rfl hmem
  · exact ((Text.resolves_self (hnot rfl)).append (Text.resolves_flatMap Text.resolves_escapeTextChar
      _)).append (Text.resolves_self (hback.not_mem rfl))
  · have htrim : trim (front ++ trim content.toList ++ back) = trim content.toList := by
      rw [Text.trim_blank_append hfront' hback'.2, Text.trim_trim]
    refine Node.gains_text (fun hends => by cases hfits hends _ rfl) hcontent ?_ fun c hc => ?_
    · rw [trimmed, trimmed, String.toList_ofList, htrim]
    · rw [String.toList_ofList, List.getLast?_append, Option.mem_def, Option.or_eq_some_iff] at hc
      rcases hc with hc | ⟨hnone, -⟩
      · exact hback'.2 c (List.mem_of_getLast? hc)
      · exact absurd (List.getLast?_eq_none_iff.mp hnone) hback.1

/-- A printed comment adds that comment. -/
theorem comment {content : String} (h : IsBody content.toList) :
    Fills scopes [.comment content] ("<!--" ++ content ++ "-->").toList := by
  rw [String.toList_append, String.toList_append]
  refine (Reads.comment h).imp (fun _ _ => trivial) ?_
  rintro g g' ⟨-, o, rest, hstack, -⟩ rfl
  refine ⟨o, rest, _, hstack, Node.gains_comment _ content, ?_⟩
  unfold Growth.addComment
  rw [hstack, String.ofList_toList]
  rfl

/-- What is read as an element adds that element. -/
theorem element {e : Element} (h : Forms scopes e part) : Fills scopes [.element e] part := by
  refine Reads.imp h ?_ ?_
  · rintro g ⟨hscopes, o, rest, hstack, -⟩
    exact ⟨hscopes, fun hnil => by rw [hstack] at hnil; cases hnil⟩
  · rintro g g' ⟨-, o, rest, hstack, -⟩ ⟨x, hx, rfl⟩
    refine ⟨o, rest, _, hstack, Node.gains_element hx _, ?_⟩
    unfold Growth.put
    rw [hstack]
    rfl

/-- A node that is printed between blanks. -/
theorem line {node : Node} {front back : List Char} (h : Fills scopes [node] part)
    (hfront : ∀ c ∈ front, isMarkupBlank c = true) (hback : ∀ c ∈ back, isMarkupBlank c = true) :
    Fills scopes [node] (front ++ part ++ back) := by
  have hnone : ∀ a ∈ ([] : List Node).getLast?, ∀ b ∈ [node].head?, a.text? = none ∨ b.text? = none := by
    simp
  exact ((blank hfront).append h hnone).append (blank hback) (by simp)

end Fills

/-! ## Elements -/

/-- The element that is closed is put where it was opened. -/
theorem Growth.closeElement_openElement (g : Growth) (e : OpenedElement) (nodes : List Node)
    (lines : LineRange) : ({ g.openElement e with
      stack := ⟨Heading.ofOpened g.scopes e, nodes⟩ :: g.stack } : Growth).closeElement lines =
        g.put (OpenNode.close ⟨Heading.ofOpened g.scopes e, nodes⟩ lines) := by
  obtain ⟨scopes, stack, root, prolog, epilog⟩ := g
  cases stack <;> rfl

namespace Node

/-- What becomes of the nodes inside an element when they are printed and read again. -/
structure Reread (children nodes : List Node) : Prop where
  outlines : outlines nodes = outlines children
  elements : List.Forall₂ (InStep Reprinted) (children.filterMap element?)
    (nodes.filterMap element?)
  spaced : ∀ {heading : Heading} {lines : LineRange},
    (OpenNode.close ⟨heading, nodes⟩ lines).Spaced

/-- An empty list of nodes becomes an empty one. -/
theorem reread_nil : Reread [] [] where
  outlines := rfl
  elements := .nil
  spaced := rfl

/-- What an empty element gains is what becomes of those nodes. -/
theorem Gains.reread {children nodes : List Node} (h : Gains children [] nodes) :
    Reread children nodes where
  outlines := h.outlines
  elements := by
    obtain ⟨xs, hxs, hrelated⟩ := h.elements
    rw [hxs]
    exact hrelated
  spaced := by
    intro heading lines
    have hends : BlankEnds nodes := h.blankEnds (by intro content hmem; cases hmem)
    refine Text.words_join fun t ht => ?_
    obtain ⟨node, hnode, htext⟩ := List.mem_filterMap.mp ht
    cases node with
    | text content =>
      obtain rfl := Option.some.inj htext
      exact hends content (List.mem_filter.mp hnode).1
    | element x => cases htext
    | comment content => cases htext

/-- A text that is not blank becomes one with the same characters between its blanks. -/
theorem reread_text {content found : String} (hcontent : Text.isBlankText content = false)
    (h : trimmed found = trimmed content) : Reread [.text content] [.text found] where
  outlines := by
    have hfound := (Text.isBlankText_of_trimmed h).trans hcontent
    rw [outlines_text hcontent, outlines_text hfound, h]
  elements := .nil
  spaced := by
    intro heading lines
    have hfound := (Text.isBlankText_of_trimmed h).trans hcontent
    have htexts : (OpenNode.close ⟨heading, [.text found]⟩ lines).texts = [found] := by
      simp [OpenNode.close, Element.texts, Element.children, isBlankText, hfound, text?]
    simp [Element.Spaced, htexts]

end Node

/-- An element that opens with the attributes of a heading, and closes with nodes that were printed
and read again, is in step with the element that was printed. -/
theorem inStep_close {outer : Scopes} {h : Heading} (hread : h.IsRead outer) {e : OpenedElement}
    (hname : e.name = h.name) (hattributes : e.attributes = h.written)
    {children nodes : List Node} (hblank : ∀ node ∈ children, node.isBlankText = false)
    (hnodes : Node.Reread children nodes) (lines : LineRange) :
    (Element.mk h children).InStep Reprinted
      (OpenNode.close ⟨Heading.ofOpened outer e, nodes⟩ lines) := by
  obtain ⟨name, attributes, path, line⟩ := e
  obtain rfl : name = h.name := hname
  obtain rfl : attributes = h.written := hattributes
  have hopened := Heading.ofOpened_written hread path line
  refine .intro ⟨⟨?_, ?_, ?_, ?_, ?_⟩, hnodes.spaced⟩ ?_
  · rfl
  · show h.expanded = (Heading.ofOpened outer _).expanded
    rw [hopened]
  · show h.declarations = (Heading.ofOpened outer _).declarations
    rw [hopened]
  · show h.attributes = (Heading.ofOpened outer _).attributes
    rw [hopened]
  · show children.map Node.outline = outlines nodes
    rw [hnodes.outlines, Node.outlines_of_not_blank hblank]
  · rw [OpenNode.childElements_close]
    exact hnodes.elements

section Printed

variable {outer : Scopes} {h : Heading} {children : List Node}

/-- The single tag of a heading is read as an element without children. -/
theorem forms_single (hread : h.IsRead outer) (hplain : h.IsPlain) (o : PrintOptions)
    (depth : Nat) : Forms outer (.mk h [])
      ('<' :: (Markup.tagContent h.name (h.layout o depth) ++ "/>".toList)) := by
  refine (Reads.single (hread.writable hplain o depth)).imp (fun _ hg => hg.2) ?_
  rintro g g' ⟨rfl, -⟩ ⟨e, lines, hname, hattributes, rfl⟩
  rw [Heading.map_layout] at hattributes
  refine ⟨_, inStep_close hread hname hattributes (by simp) Node.reread_nil lines, ?_⟩
  exact g.closeElement_openElement e [] lines

/-- An element is read again if the nodes inside it are. -/
theorem forms_paired (hread : h.IsRead outer) (hplain : h.IsPlain) (o : PrintOptions) (depth : Nat)
    (hblank : ∀ node ∈ children, node.isBlankText = false) {part : List Char}
    (hinner : Reads
      (fun g => g.scopes = outer.enter h.declarations.entries ∧
        ∃ heading rest, g.stack = ⟨heading, []⟩ :: rest) part
      (fun g g' => ∃ heading rest nodes, g.stack = ⟨heading, []⟩ :: rest ∧
        Node.Reread children nodes ∧ g' = { g with stack := ⟨heading, nodes⟩ :: rest })) :
    Forms outer (.mk h children) ('<' :: (Markup.tagContent h.name (h.layout o depth) ++ ['>'] ++
      part ++ "</".toList ++ h.name.toList ++ ['>'])) := by
  refine (Reads.paired (·.scopes = outer) (hread.writable hplain o depth) hinner ?_ ?_).imp
    (fun _ hg => hg.symm) ?_
  · rintro g e rfl hname hattributes
    rw [Heading.map_layout] at hattributes
    obtain ⟨name, attributes, path, line⟩ := e
    obtain rfl : name = h.name := hname
    obtain rfl : attributes = h.written := hattributes
    refine ⟨?_, _, _, rfl⟩
    show g.scopes.enter (Heading.ofOpened g.scopes _).declarations.entries = _
    rw [Heading.ofOpened_written hread]
  · rintro g g' - ⟨heading, rest, nodes, -, -, rfl⟩
    exact List.cons_ne_nil _ _
  · rintro g g'' ⟨rfl, -⟩ ⟨e, lines, g', hname, hattributes, ⟨heading, rest, nodes, hstack,
      hnodes, rfl⟩, rfl⟩
    rw [Heading.map_layout] at hattributes
    obtain ⟨hheading, rfl⟩ := List.cons.inj hstack
    obtain ⟨rfl, -⟩ := OpenNode.mk.inj hheading
    refine ⟨_, inStep_close hread hname hattributes hblank hnodes lines, ?_⟩
    exact g.closeElement_openElement e nodes lines

/-- A text by itself is printed on the line of its element, without blanks around it. -/
theorem forms_text (hread : h.IsRead outer) (hplain : h.IsPlain) (o : PrintOptions) (depth : Nat)
    {content : String} (hcontent : Text.isBlankText content = false) :
    Forms outer (.mk h [.text content])
      ('<' :: (Markup.tagContent h.name (h.layout o depth) ++ ['>'] ++
        (Text.escapeText (trimmed content)).toList ++ "</".toList ++ h.name.toList ++ ['>'])) := by
  have hne : (trimmed content).toList ≠ [] := by
    intro hnil
    rw [Text.toList_trimmed] at hnil
    rw [Text.isBlankText_iff.mpr hnil] at hcontent
    cases hcontent
  refine forms_paired hread hplain o depth (by simpa [Node.isBlankText] using hcontent) ?_
  rw [Text.toList_escapeText]
  refine (Reads.text (Text.flatMap_escapeTextChar_ne_nil hne) (Text.not_mem_flatMap_escapeTextChar _)
    (Text.resolves_flatMap Text.resolves_escapeTextChar _)).imp ?_ ?_
  · rintro g ⟨-, heading, rest, hstack⟩
    rw [hstack]
    exact List.cons_ne_nil _ _
  · rintro g g' ⟨-, heading, rest, hstack⟩ rfl
    refine ⟨heading, rest, _, hstack, Node.reread_text hcontent (Text.trimmed_trimmed content), ?_⟩
    unfold Growth.addText
    rw [hstack, String.ofList_toList]
    rfl

/-- What adds some nodes is read, between the tags of a heading, as an element with these. -/
theorem forms_nodes (hread : h.IsRead outer) (hplain : h.IsPlain) (o : PrintOptions) (depth : Nat)
    (hblank : ∀ node ∈ children, node.isBlankText = false) {part : List Char}
    (hinner : Fills (outer.enter h.declarations.entries) children part) :
    Forms outer (.mk h children) ('<' :: (Markup.tagContent h.name (h.layout o depth) ++ ['>'] ++
      part ++ "</".toList ++ h.name.toList ++ ['>'])) := by
  refine forms_paired hread hplain o depth hblank (Reads.imp hinner ?_ ?_)
  · rintro g ⟨hscopes, heading, rest, hstack⟩
    exact ⟨hscopes, _, rest, hstack, by rintro ⟨content, hlast, -⟩; cases hlast⟩
  · rintro g g' ⟨-, heading, rest, hstack⟩ ⟨o, rest', nodes, hstack', hgains, rfl⟩
    obtain ⟨rfl, rfl⟩ := List.cons.inj (hstack.symm.trans hstack')
    exact ⟨heading, rest, nodes, hstack, hgains.reread, rfl⟩

end Printed

/-- An element is printed on lines of its own, and what is printed between its `<` and its `>` is
read as the element again. -/
def Element.Reprints (o : PrintOptions) (scopes : Scopes) (e : Element) : Prop := ∀ depth, ∃ rest,
  (e.print o depth).toList = (o.margin depth).toList ++ '<' :: rest ++ ['\n'] ∧
    Forms scopes e ('<' :: rest)

/-- Nodes are read again if the elements among them are. -/
theorem fills_printNodes {o : PrintOptions} {scopes : Scopes} {nodes : List Node} (htidy : Tidy nodes)
    (hblank : ∀ node ∈ nodes, node.isBlankText = false)
    (helements : ∀ c ∈ nodes.filterMap Node.element?, c.Reprints o scopes) (depth : Nat) :
    Fills scopes nodes (printNodes o depth nodes).toList := by
  induction nodes with
  | nil => exact Fills.blank (by simp [printNodes])
  | cons node rest ih =>
    have hmargin := o.isMarkupBlank_margin depth
    have hbreak : Text.IsMarkupGap ['\n'] :=
      ⟨List.cons_ne_nil _ _, List.forall_mem_singleton.mpr rfl⟩
    obtain ⟨hnode, hrest⟩ := List.forall_mem_cons.mp hblank
    have hmore := ih htidy.tail hrest fun c hc => helements c (by
      obtain ⟨n, hn, hnc⟩ := List.mem_filterMap.mp hc
      exact List.mem_filterMap.mpr ⟨n, List.mem_cons_of_mem _ hn, hnc⟩)
    -- Whatever the node is, its lines are followed by those of the other nodes.
    have hlines : ∀ {part : List Char}, Fills scopes [node] part →
        Fills scopes (node :: rest) (part ++ (printNodes o depth rest).toList) := by
      intro part hpart
      refine hpart.append hmore fun a ha b hb => ?_
      obtain rfl := Option.some.inj ha
      exact (List.isChain_cons.mp htidy.apart).1 b hb
    cases node with
    | element e =>
      obtain ⟨core, hprint, hforms⟩ := helements e (by simp [Node.element?]) depth
      rw [printNodes, String.toList_append, hprint]
      exact hlines ((Fills.element hforms).line hmargin hbreak.2)
    | text content =>
      have hpart : (o.margin depth ++ Text.escapeText (trimmed content) ++ "\n" ++
          printNodes o depth rest).toList = (o.margin depth).toList ++
            (Text.escapeText (trimmed content)).toList ++ ['\n'] ++
              (printNodes o depth rest).toList := by simp
      rw [printNodes, hpart]
      exact hlines (Fills.text hnode hmargin hbreak)
    | comment content =>
      have hpart : (printComment o depth content ++ printNodes o depth rest).toList =
          (o.margin depth).toList ++ ("<!--" ++ content ++ "-->").toList ++ ['\n'] ++
            (printNodes o depth rest).toList := by simp [printComment]
      rw [printNodes, hpart]
      exact hlines ((Fills.comment (htidy.comments content List.mem_cons_self)).line hmargin hbreak.2)

/-- An element that was read from a text is read again when it is printed, if names are plain. -/
theorem Element.IsRead.reprints {e : Element} {outer : Scopes} (hread : e.IsRead outer)
    (hplain : ∀ x ∈ e.all, x.heading.IsPlain) (o : PrintOptions) : e.Reprints o outer := by
  induction e using descent generalizing outer with
  | step e ih =>
    intro depth
    cases hread with
    | @intro _ h children hheading htidy hblank hchildren =>
      have hname : h.IsPlain := hplain _ (self_mem_all _)
      have hmargin := o.isMarkupBlank_margin depth
      rw [Element.print]
      by_cases hnil : children = []
      · subst hnil
        refine ⟨_, ?_, forms_single hheading hname o depth⟩
        simp [Heading.toList_print]
      · have hsome : children.isEmpty = false := by simpa using hnil
        by_cases hall : children.all (·.text?.isSome) = true
        · obtain ⟨content, rfl⟩ := htidy.eq_singleton hnil hall
          refine ⟨_, ?_, forms_text hheading hname o depth (hblank _ List.mem_cons_self)⟩
          simp [Heading.toList_print, printEnd, Node.text?, String.join]
        · have hfills := fills_printNodes htidy hblank (fun c hc => ih c hc (hchildren c hc)
            fun x hx => hplain x (mem_all_trans (child_mem_all hc) hx)) (depth + 1)
          have hbreak : ∀ c ∈ ['\n'], isMarkupBlank c = true := List.forall_mem_singleton.mpr rfl
          have hinner := ((Fills.blank hbreak).append hfills (by simp)).append (Fills.blank hmargin)
            (by simp)
          rw [List.nil_append, List.append_nil] at hinner
          refine ⟨_, ?_, forms_nodes hheading hname o depth hblank hinner⟩
          simp [Heading.toList_print, printEnd, hsome, hall]

/-! ## Documents -/

/-- The line with which a printed document may begin is read as a token without an event. -/
theorem reads_declarationLine : Reads (fun g => g.stack = []) xmlDeclarationLine.toList
    fun g g' => g' = g := by
  have hmarkup : Markup.Token.readMarkup 0 "?xml version=\"1.0\" encoding=\"UTF-8\"?>".toList =
      .ok (.skipped, ⟨38, []⟩) := rfl
  obtain ⟨body, hbody, -, hread⟩ := Markup.Token.readIn_readMarkup hmarkup
  rw [List.append_nil] at hbody
  rw [← hbody] at hread
  have hskipped : Reads (fun g => g.stack = []) "<?xml version=\"1.0\" encoding=\"UTF-8\"?>".toList
      fun g g' => g' = g :=
    ⟨[⟨.skipped, _⟩], List.forall_mem_singleton.mpr (.markup rfl hread), List.append_nil _,
      fun _ => rfl, fun source start s g _ _ =>
        ⟨_, s, .step (Event.State.step_eq_ok_iff.mpr .skipped) .done, rfl⟩⟩
  refine (hskipped.append Reads.lineBreak ?_).imp (fun _ hg => hg) ?_
  · rintro g g' hg rfl
    exact hg
  · rintro g g'' - ⟨g', rfl, rfl⟩
    rfl

/-- Comments before the root or, if there is one, behind it. -/
def Growth.withComments (g : Growth) (contents : List String) : Growth :=
  if g.root.isNone then { g with prolog := g.prolog ++ contents }
  else { g with epilog := g.epilog ++ contents }

/-- Comments outside of the root are added one after the other. -/
theorem Growth.withComments_cons {g : Growth} (hstack : g.stack = []) (content : String)
    (contents : List String) : (g.addComment content).stack = [] ∧
      (g.addComment content).withComments contents = g.withComments (content :: contents) := by
  obtain ⟨scopes, stack, root, prolog, epilog⟩ := g
  obtain rfl : stack = [] := hstack
  cases root <;> simp [addComment, withComments]

/-- There is no margin at depth zero. -/
theorem PrintOptions.margin_zero (o : PrintOptions) : o.margin 0 = "" := by
  simp [margin]

/-- Comments at the top are added one after the other. -/
theorem reads_comments (o : PrintOptions) {contents : List String}
    (h : ∀ content ∈ contents, IsBody content.toList) :
    Reads (fun g => g.stack = []) (String.join (contents.map (printComment o 0))).toList
      fun g g' => g' = g.withComments contents := by
  induction contents with
  | nil =>
    refine Reads.nil.imp (fun _ hg => hg) ?_
    rintro g g' - rfl
    simp [Growth.withComments]
  | cons content contents ih =>
    obtain ⟨hcontent, hcontents⟩ := List.forall_mem_cons.mp h
    have hcomment : Reads (fun g => g.stack = []) ("<!--".toList ++ content.toList ++ "-->".toList)
        fun g g' => g' = g.addComment content := by
      refine (Reads.comment hcontent).imp (fun g (hg : g.stack = []) => hg) ?_
      rintro g g' - rfl
      rw [String.ofList_toList]
    have hpart : (String.join ((content :: contents).map (printComment o 0))).toList =
        "<!--".toList ++ content.toList ++ "-->".toList ++ (['\n'] ++
          (String.join (contents.map (printComment o 0))).toList) := by
      simp [printComment, o.margin_zero, String.toList_join]
    rw [hpart]
    refine (hcomment.append (Reads.lineBreak.append (ih hcontents) ?_) ?_).imp (fun _ hg => hg) ?_
    · rintro g g' hg rfl
      exact hg
    · rintro g g' hg rfl
      exact (Growth.withComments_cons hg content contents).1
    · rintro g g''' hg ⟨g', rfl, g'', rfl, rfl⟩
      exact (Growth.withComments_cons hg content contents).2

namespace Document

/-- The names of the elements, attributes and declarations of a document are plain. -/
def PlainNames (d : Document) : Prop := ∀ e ∈ d.elements, e.heading.IsPlain

instance (d : Document) : Decidable d.PlainNames :=
  decidable_of_iff (∀ e ∈ d.root.all, e.heading.IsPlain) (by rw [PlainNames, elements_eq])

/-- A document with plain names that was read from a text is read again when it is printed: with the
same comments around the root, and elements that differ at most in lines and in the blanks around
texts. -/
theorem exists_parse_print {source : String} {d : Document} (hparse : parse source = .ok d)
    (hplain : d.PlainNames) (o : PrintOptions) : ∃ d', parse (d.print o) = .ok d' ∧
      d'.prolog = d.prolog ∧ d'.epilog = d.epilog ∧ d.root.InStep Reprinted d'.root := by
  obtain ⟨hroot, hcomments⟩ := isRead_of_parse hparse
  obtain ⟨hprolog, hepilog⟩ := List.forall_mem_append.mp hcomments
  rw [PlainNames, elements_eq] at hplain
  obtain ⟨core, hprint, hforms⟩ := hroot.reprints hplain o 0
  -- The parts of the printed text, each with what it makes of the tree.
  have hline : Reads (· = .initial) (if o.xmlDeclaration then xmlDeclarationLine else "").toList
      fun _ g => g = .initial := by
    split
    · exact reads_declarationLine.imp (by rintro g rfl; rfl) (by rintro g g' rfl rfl; rfl)
    · exact Reads.nil.imp (fun _ _ => trivial) (by rintro g g' rfl rfl; rfl)
  have hbefore : Reads (· = .initial) (String.join (d.prolog.map (printComment o 0))).toList
      fun _ g => g = ⟨.document, [], none, d.prolog, []⟩ :=
    (reads_comments o hprolog).imp (by rintro g rfl; rfl) (by rintro g g' rfl rfl; rfl)
  have helement : Reads (· = ⟨.document, [], none, d.prolog, []⟩) ('<' :: core)
      fun _ g => ∃ x, d.root.InStep Reprinted x ∧ g = ⟨.document, [], some x, d.prolog, []⟩ :=
    Reads.imp hforms (by rintro g rfl; exact ⟨rfl, fun _ => rfl⟩)
      (by rintro g g' rfl ⟨x, hx, rfl⟩; exact ⟨x, hx, rfl⟩)
  have hbehind := reads_comments o hepilog
  have hall := hline.append (hbefore.append (helement.append (Reads.lineBreak.append hbehind
    (by rintro g g' hg rfl; exact hg)) (by rintro g g' - ⟨x, -, rfl⟩; rfl))
    (by rintro g g' - rfl; rfl)) (by rintro g g' - rfl; rfl)
  have htext : (d.print o).toList =
      (if o.xmlDeclaration then xmlDeclarationLine else "").toList ++
        ((String.join (d.prolog.map (printComment o 0))).toList ++ ('<' :: core ++ (['\n'] ++
          (String.join (d.epilog.map (printComment o 0))).toList))) := by
    simp [print, hprint, o.margin_zero]
  rw [← htext] at hall
  obtain ⟨g, root, ⟨g₁, rfl, g₂, rfl, g₃, ⟨x, hx, rfl⟩, g₄, rfl, rfl⟩, hg, hparsed⟩ :=
    parse_of_reads hall rfl (by
      rintro g ⟨g₁, rfl, g₂, rfl, g₃, ⟨x, -, rfl⟩, g₄, rfl, rfl⟩
      exact ⟨rfl, rfl⟩)
  obtain rfl : x = root := Option.some.inj hg
  exact ⟨_, hparsed, rfl, rfl, hx⟩

end Document

end XmlCompare
