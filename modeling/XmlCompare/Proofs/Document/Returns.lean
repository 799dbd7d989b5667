import XmlCompare.Proofs.Document.Descent
import XmlCompare.Proofs.Document.Formatting
import XmlCompare.Proofs.Document.Heading
import XmlCompare.Proofs.Line.Returns

/-!
# Carriage returns in printed documents

Every line that is printed is ended by a line feed alone, and the line endings between tags are not
printed at all. What stands in comments, between quotes and inside texts is printed as it was read.
So a line feed stands behind a carriage return in a printed document exactly where it does in there.
-/

set_option autoImplicit false

namespace XmlCompare

open Line (BareFeeds KeepsFeeds)

/-- Part of a printed text: whatever is printed behind it, a line feed stands behind a carriage
return in it exactly if one does in some of these contents. -/
def Copies (contents : List String) (part : List Char) : Prop := ∀ more,
  BareFeeds (part ++ more) ↔ (∀ content ∈ contents, BareFeeds content.toList) ∧ BareFeeds more

namespace Copies

variable {contents contents' : List String} {part part' : List Char}

/-- Two parts copy the contents of both. -/
theorem append (h : Copies contents part) (h' : Copies contents' part') :
    Copies (contents ++ contents') (part ++ part') := by
  intro more
  rw [List.append_assoc, h, h', List.forall_mem_append, and_assoc]

/-- The order of the contents does not matter. -/
theorem perm (h : Copies contents part) (hperm : contents.Perm contents') :
    Copies contents' part := by
  intro more
  rw [h]
  exact and_congr_left' (forall_congr' fun content => imp_congr_left hperm.mem_iff)

/-- A part without carriage return copies nothing. -/
theorem of_not_mem (h : '\r' ∉ part) : Copies [] part := by
  intro more
  rw [Line.bareFeeds_append_of_not_mem h]
  simp

/-- What has no carriage return adds nothing to what is behind it. -/
theorem behind (h : Copies contents part) (hpart : '\r' ∉ part') : Copies contents (part' ++ part) :=
  (of_not_mem hpart).append h

/-- What has no carriage return adds nothing to what is in front of it. -/
theorem before (h : Copies contents part) (hpart : '\r' ∉ part') : Copies contents (part ++ part') := by
  have hboth := h.append (of_not_mem hpart)
  rwa [List.append_nil] at hboth

/-- A content with the character that is printed behind it. -/
theorem of_content {content : String} {c : Char} (hsame : BareFeeds part ↔ BareFeeds content.toList)
    (hapart : part.getLast? ≠ some '\r' ∨ c ≠ '\n') (hc : c ≠ '\r') :
    Copies [content] (part ++ [c]) := by
  intro more
  have hmeet : part.getLast? ≠ some '\r' ∨ (c :: more).head? ≠ some '\n' :=
    hapart.imp_right fun hne hfeed => hne (Option.some.inj hfeed)
  have hnot : '\r' ∉ [c] := fun hmem => hc (List.mem_singleton.mp hmem).symm
  rw [List.append_assoc, List.singleton_append, Line.bareFeeds_append hmeet, hsame,
    List.forall_mem_singleton]
  exact and_congr_right' (Line.bareFeeds_append_of_not_mem hnot more)

/-- Any number of parts copy the contents of all. -/
theorem flatMap {α : Type} {items : List α} {contents : α → List String} {part : α → List Char}
    (h : ∀ x ∈ items, Copies (contents x) (part x)) :
    Copies (items.flatMap contents) (items.flatMap part) := by
  induction items with
  | nil => exact of_not_mem List.not_mem_nil
  | cons x items ih =>
    obtain ⟨hx, hitems⟩ := List.forall_mem_cons.mp h
    rw [List.flatMap_cons, List.flatMap_cons]
    exact hx.append (ih hitems)

/-- A text by itself has a carriage return in front of a line feed if one of the contents has. -/
theorem bareFeeds_iff (h : Copies contents part) :
    BareFeeds part ↔ ∀ content ∈ contents, BareFeeds content.toList := by
  have hnone : BareFeeds [] := Line.bareFeeds_of_not_mem List.not_mem_nil
  rw [← List.append_nil part, h, and_iff_left hnone]

end Copies

/-! ## Tags -/

/-- An unbroken name has no carriage return. -/
theorem Markup.Tag.Unbroken.return_not_mem {name : List Char} (h : Unbroken name) : '\r' ∉ name := by
  intro hmem
  cases h _ hmem

/-- A margin has no carriage return. -/
theorem PrintOptions.return_not_mem_margin (o : PrintOptions) (depth : Nat) :
    '\r' ∉ (o.margin depth).toList := by
  rw [toList_margin]
  intro hmem
  cases List.eq_of_mem_replicate hmem

/-- What stands in front of a declaration has no carriage return. -/
theorem PrintOptions.return_not_mem_gap (o : PrintOptions) (depth : Nat) : '\r' ∉ o.gap depth := by
  unfold gap
  split
  · intro hmem
    rcases List.mem_cons.mp hmem with heq | hmem
    · cases heq
    · exact o.return_not_mem_margin (depth + 1) hmem
  · decide

/-- The start of a tag copies the values of its attributes. -/
theorem Heading.IsRead.copies {outer : Scopes} {h : Heading} (hread : h.IsRead outer)
    (o : PrintOptions) (depth : Nat) :
    Copies (h.written.map Prod.snd) (h.print o depth).toList := by
  have hassignments : Copies ((h.layout o depth).flatMap fun x => [x.2.2])
      ((h.layout o depth).flatMap fun x => x.1 ++ Markup.Tag.assignment x.2) := by
    refine Copies.flatMap fun x hx => ?_
    have hgap : '\r' ∉ x.1 := by
      rcases List.mem_append.mp hx with hx | hx
      · obtain ⟨d, -, rfl⟩ := List.mem_map.mp hx
        exact o.return_not_mem_gap depth
      · obtain ⟨a, -, rfl⟩ := List.mem_map.mp hx
        show '\r' ∉ [' ']
        decide
    have hmem : x.2 ∈ h.written := by
      rw [← h.map_layout o depth]
      exact List.mem_map_of_mem hx
    have hname := (hread.unbroken _ hmem).return_not_mem
    have hvalue : Copies [x.2.2] (x.2.2.toList.flatMap Text.escapeChar ++ ['"']) :=
      Copies.of_content (Line.keepsFeeds_escapeChar.bareFeeds_flatMap _) (.inr (by decide)) (by decide)
    have hopen : '\r' ∉ ['=', '"'] := by decide
    exact ((hvalue.behind hopen).behind hname).behind hgap
  have hvalues : (h.layout o depth).flatMap (fun x => [x.2.2]) = h.written.map Prod.snd := by
    rw [← h.map_layout o depth, List.map_map, List.map_eq_flatMap]
    rfl
  rw [h.toList_print, Markup.tagContent, ← List.singleton_append, ← hvalues]
  exact (hassignments.behind hread.name.return_not_mem).behind (by decide)

/-! ## Contents -/

/-- What is printed of a node as it was read, if it is no element. -/
def Node.content? : Node → Option String
  | element _ => none
  | text content => some (Text.trimmed content)
  | comment content => some content

/-- What is printed of an element as it was read, but for the elements inside it: the values of its
declarations and attributes, its texts without the blanks around them, and its comments. -/
def Element.contents (e : Element) : List String :=
  e.heading.written.map Prod.snd ++ e.children.filterMap Node.content?

/-- What is printed of a document as it was read. -/
def Document.contents (d : Document) : List String :=
  d.prolog ++ d.elements.flatMap Element.contents ++ d.epilog

/-- A printed comment copies its content. -/
theorem copies_printComment (o : PrintOptions) (depth : Nat) (content : String) :
    Copies [content] (printComment o depth content).toList := by
  have hcontent : Copies [content] (content.toList ++ ['-']) :=
    Copies.of_content Iff.rfl (.inr (by decide)) (by decide)
  have hopen : '\r' ∉ "<!--".toList := by decide
  have hclose : '\r' ∉ ['-', '>', '\n'] := by decide
  have hpart : (printComment o depth content).toList =
      (o.margin depth).toList ++ ("<!--".toList ++ (content.toList ++ ['-'] ++ ['-', '>', '\n'])) := by
    simp [printComment]
  rw [hpart]
  exact ((hcontent.before hclose).behind hopen).behind (o.return_not_mem_margin depth)

/-- A text does not end with a carriage return when it is printed, so it may stand in front of a
line feed. -/
theorem copies_text (content : String) (c : Char) (hc : c ≠ '\r') :
    Copies [Text.trimmed content] ((Text.escapeText (Text.trimmed content)).toList ++ [c]) := by
  rw [Text.toList_escapeText]
  refine Copies.of_content (Line.keepsFeeds_escapeTextChar.bareFeeds_flatMap _) (.inl ?_) hc
  intro hlast
  have hreturn := Line.keepsFeeds_escapeTextChar.getLast?_of_flatMap hlast
  rw [Text.toList_trimmed] at hreturn
  obtain ⟨-, -, -, -, -, -, hblank⟩ := Text.exists_trim content.toList
  cases hblank _ hreturn

/-- What is printed of nodes and of the elements inside them. -/
def Node.allContents (nodes : List Node) : List String :=
  nodes.filterMap content? ++
    (nodes.filterMap element?).flatMap fun e => e.all.flatMap Element.contents

/-- Printed nodes copy what they hold, if printed elements do. -/
theorem copies_printNodes {o : PrintOptions} {depth : Nat} {nodes : List Node}
    (helements : ∀ e ∈ nodes.filterMap Node.element?,
      Copies (e.all.flatMap Element.contents) (e.print o depth).toList) :
    Copies (Node.allContents nodes) (printNodes o depth nodes).toList := by
  induction nodes with
  | nil => exact Copies.of_not_mem List.not_mem_nil
  | cons node rest ih =>
    have hmargin := o.return_not_mem_margin depth
    have hmore := ih fun e he => helements e (by
      obtain ⟨n, hn, hne⟩ := List.mem_filterMap.mp he
      exact List.mem_filterMap.mpr ⟨n, List.mem_cons_of_mem _ hn, hne⟩)
    cases node with
    | element e =>
      have he := helements e (by simp [Node.element?])
      rw [printNodes, String.toList_append]
      exact (he.append hmore).perm (List.perm_append_comm_assoc _ _ _)
    | text content =>
      have hpart : (o.margin depth ++ Text.escapeText (Text.trimmed content) ++ "\n" ++
          printNodes o depth rest).toList = (o.margin depth).toList ++
            ((Text.escapeText (Text.trimmed content)).toList ++ ['\n']) ++
              (printNodes o depth rest).toList := by simp
      rw [printNodes, hpart]
      exact ((copies_text content '\n' (by decide)).behind hmargin).append hmore
    | comment content =>
      rw [printNodes, String.toList_append]
      exact (copies_printComment o depth content).append hmore

/-- What is printed of a tree as it was read is that of its heading and its nodes. -/
theorem Element.flatMap_contents (e : Element) :
    e.all.flatMap contents = e.heading.written.map Prod.snd ++ Node.allContents e.children := by
  rw [all_eq, List.flatMap_cons, List.flatMap_assoc, contents, List.append_assoc]
  rfl

/-- An element that was read copies what is printed of it as it was read. -/
theorem Element.IsRead.copies {e : Element} {outer : Scopes} (hread : e.IsRead outer)
    (o : PrintOptions) (depth : Nat) :
    Copies (e.all.flatMap Element.contents) (e.print o depth).toList := by
  induction e using Element.descent generalizing outer depth with
  | step e ih =>
    cases hread with
    | @intro _ h children hheading htidy hblank hchildren =>
      have hmargin := o.return_not_mem_margin depth
      have hname := hheading.name.return_not_mem
      have hstart := (hheading.copies o depth).behind hmargin
      rw [flatMap_contents, Element.print]
      show Copies (h.written.map Prod.snd ++ Node.allContents children) _
      by_cases hnil : children = []
      · subst hnil
        have hclose : '\r' ∉ "/>\n".toList := by decide
        simpa [Node.allContents] using hstart.before hclose
      · have hsome : children.isEmpty = false := by simpa using hnil
        by_cases hall : children.all (·.text?.isSome) = true
        · obtain ⟨content, rfl⟩ := htidy.eq_singleton hnil hall
          have hclose : '\r' ∉ ['>'] := by decide
          have hend : '\r' ∉ '/' :: (h.name.toList ++ ['>', '\n']) := by simpa using hname
          have htext := ((copies_text content '<' (by decide)).behind hclose).before hend
          have hcontents : Node.allContents [.text content] = [Text.trimmed content] := rfl
          rw [hcontents]
          simpa [Node.text?, String.join, printEnd] using hstart.append htext
        · have hnodes : Copies (Node.allContents children) (printNodes o (depth + 1) children).toList :=
            copies_printNodes fun c hc => ih c hc (hchildren c hc) (depth + 1)
          have hclose : '\r' ∉ ">\n".toList := by decide
          have hend : '\r' ∉ (printEnd h.name).toList := by simpa [printEnd] using hname
          have hpart := hstart.append (((hnodes.behind hclose).before hmargin).before hend)
          simpa [hsome, hall] using hpart

/-! ## Documents -/

/-- Printed comments outside of the root copy their contents. -/
theorem copies_comments (o : PrintOptions) (contents : List String) :
    Copies contents (String.join (contents.map (printComment o 0))).toList := by
  have hcomments : Copies (contents.flatMap fun content => [content])
      (contents.flatMap fun content => (printComment o 0 content).toList) :=
    Copies.flatMap fun content _ => copies_printComment o 0 content
  have hself : contents.flatMap (fun content => [content]) = contents := by
    rw [← List.map_eq_flatMap, List.map_id']
  rw [hself] at hcomments
  rwa [String.toList_join, List.flatMap_map]

namespace Document

/-- A document that was read copies what is printed of it as it was read. -/
theorem copies_print {d : Document} {source : String} (h : parse source = .ok d)
    (o : PrintOptions) : Copies d.contents (d.print o).toList := by
  have hline : '\r' ∉ (if o.xmlDeclaration then xmlDeclarationLine else "").toList := by
    split
    · decide
    · exact List.not_mem_nil
  have hroot := (isRead_of_parse h).1.copies o 0
  rw [contents, elements_eq, print, String.toList_append, String.toList_append, String.toList_append]
  exact (((copies_comments o d.prolog).behind hline).append hroot).append (copies_comments o d.epilog)

/-- A text that is read as a document can be formatted with any options. In what comes of it a line
feed stands behind a carriage return exactly if one does in a comment, in a value of a declaration
or an attribute, or in a text without the blanks around it: all other line feeds are bare. -/
theorem bareFeeds_format_iff (source : String) (d : Document) (o : PrintOptions)
    (hparse : parse source = .ok d) : ∃ printed, format o source = .ok printed ∧
      (BareFeeds printed.toList ↔ ∀ content ∈ d.contents, BareFeeds content.toList) :=
  ⟨_, format_of_parse hparse o, (copies_print hparse o).bareFeeds_iff⟩

/-- A list with an attribute and an item that is a word. -/
def valuedList : Document :=
  ⟨[], .mk ⟨"r", .bare "r", ⟨[⟨"r", 1⟩]⟩, .between 1 3, .empty,
      .ofList [(.bare "k", ⟨"k", .bare "k", "1"⟩)]⟩
    [.element (.mk ⟨"i", .bare "i", ⟨[⟨"r", 1⟩, ⟨"i", 1⟩]⟩, .between 2 3, .empty, .empty⟩
      [.text "\r\na"])], []⟩

/-- Carriage returns between tags and around a word are not printed. -/
theorem bareFeeds_format_of_valuedList :
    parse "<r k='1'>\r\n<i>\r\na</i></r>\r\n" = .ok valuedList ∧
      ∃ printed, format ⟨2, false, true⟩ "<r k='1'>\r\n<i>\r\na</i></r>\r\n" = .ok printed ∧
        BareFeeds printed.toList := by
  have hparse : parse "<r k='1'>\r\n<i>\r\na</i></r>\r\n" = .ok valuedList := by decide
  have hcontents : ∀ content ∈ valuedList.contents, BareFeeds content.toList := by
    rw [contents, elements_eq]
    decide
  obtain ⟨printed, hformat, hbare⟩ := bareFeeds_format_iff _ _ ⟨2, false, true⟩ hparse
  exact ⟨hparse, printed, hformat, hbare.mpr hcontents⟩

/-- An element with a text that goes on behind a carriage return and a line feed. -/
def brokenText : Document :=
  ⟨[], .mk ⟨"a", .bare "a", ⟨[⟨"a", 1⟩]⟩, .between 1 2, .empty, .empty⟩ [.text "x\r\ny"], []⟩

/-- A carriage return inside a text is printed as it was read. -/
theorem return_stays_in_text : ¬ ∀ (source : String) (d : Document) (o : PrintOptions),
    parse source = .ok d →
      ∃ printed, format o source = .ok printed ∧ BareFeeds printed.toList := by
  intro h
  have hparse : parse "<a>x\r\ny</a>" = .ok brokenText := by decide
  obtain ⟨printed, hformat, hbare⟩ := h _ _ ⟨2, false, true⟩ hparse
  have hprinted : format ⟨2, false, true⟩ "<a>x\r\ny</a>" =
      .ok "<?xml version=\"1.0\" encoding=\"UTF-8\"?>\n<a>x\r\ny</a>\n" := by
    rw [format_of_parse hparse]
    decide
  obtain rfl := Except.ok.inj (hformat.symm.trans hprinted)
  revert hbare
  decide +kernel

end Document

end XmlCompare
