import XmlCompare.Proofs.Document.Agreement
import XmlCompare.Proofs.Document.Reprinting

/-!
# Texts that are formatted

A text is formatted by printing the document that it is read as. A formatted text is read as the
same document again, but for lines and for the blanks around texts; and neither of these is printed.
So whatever a text has been formatted with before, it is formatted as the text itself would be.
-/

set_option autoImplicit false

namespace XmlCompare

open Element (EqualTrimmed InStep)

/-! ## What is printed -/

/-- How a heading is printed depends on the names, declarations and attributes only. -/
theorem Heading.print_congr {h h' : Heading} (hname : h.name = h'.name)
    (hdeclarations : h.declarations = h'.declarations) (hattributes : h.attributes = h'.attributes)
    (o : PrintOptions) (depth : Nat) : h.print o depth = h'.print o depth := by
  rw [print, print, hname, hdeclarations, hattributes]

namespace Node

/-- Whether a node is a text shows in its outline. -/
theorem isSome_text?_congr {node node' : Node} (h : node.outline = node'.outline) :
    node.text?.isSome = node'.text?.isSome := by
  cases node <;> cases node' <;> first | rfl | cases h

/-- Whether all nodes are texts shows in their outline. -/
theorem all_isSome_text?_congr {nodes nodes' : List Node} (h : nodes.map outline = nodes'.map outline) :
    nodes.all (·.text?.isSome) = nodes'.all (·.text?.isSome) := by
  induction nodes generalizing nodes' with
  | nil =>
    obtain rfl := List.map_eq_nil_iff.mp h.symm
    rfl
  | cons node rest ih =>
    obtain ⟨node', rest', rfl, hnode, hrest⟩ := List.map_eq_cons_iff.mp h.symm
    rw [List.all_cons, List.all_cons, ih hrest.symm, isSome_text?_congr hnode]

end Node

/-- Nodes with the same outline are printed the same if their elements are. -/
theorem printNodes_congr {o : PrintOptions} {depth : Nat} {nodes nodes' : List Node}
    (houtline : nodes.map Node.outline = nodes'.map Node.outline)
    (helements : List.Forall₂ (fun x y => x.print o depth = y.print o depth)
      (nodes.filterMap Node.element?) (nodes'.filterMap Node.element?)) :
    printNodes o depth nodes = printNodes o depth nodes' := by
  induction nodes generalizing nodes' with
  | nil =>
    obtain rfl := List.map_eq_nil_iff.mp houtline.symm
    rfl
  | cons node rest ih =>
    obtain ⟨node', rest', rfl, hnode, hrest⟩ := List.map_eq_cons_iff.mp houtline.symm
    cases node with
    | element x =>
      cases node' with
      | element y =>
        obtain ⟨hxy, helements⟩ := List.forall₂_cons.mp helements
        rw [printNodes, printNodes, hxy, ih hrest.symm helements]
      | text content => cases hnode
      | comment content => cases hnode
    | text content =>
      cases node' with
      | element y => cases hnode
      | text content' =>
        have hcontent := Node.Outline.text.inj hnode
        rw [printNodes, printNodes, hcontent, ih hrest.symm helements]
      | comment content' => cases hnode
    | comment content =>
      cases node' with
      | element y => cases hnode
      | text content' => cases hnode
      | comment content' =>
        obtain rfl := Node.Outline.comment.inj hnode
        rw [printNodes, printNodes, ih hrest.symm helements]

/-- The nodes of two elements that were read, both with nothing but text in them, have the same text
but for blanks around it if they have the same outline. -/
theorem Node.trimmed_join_congr {nodes nodes' : List Node} (h : Tidy nodes) (h' : Tidy nodes')
    (houtline : nodes.map outline = nodes'.map outline) (hne : nodes ≠ [])
    (hall : nodes.all (·.text?.isSome) = true) :
    Text.trimmed (String.join (nodes.filterMap text?)) =
      Text.trimmed (String.join (nodes'.filterMap text?)) := by
  have hne' : nodes' ≠ [] := by
    rintro rfl
    exact hne (List.map_eq_nil_iff.mp houtline)
  obtain ⟨content, rfl⟩ := h.eq_singleton hne hall
  obtain ⟨content', rfl⟩ := h'.eq_singleton hne' (all_isSome_text?_congr houtline ▸ hall)
  simpa [outline, text?, String.join] using houtline

/-- Trees that were read are printed the same if they are in step and differ at most in lines and in
the blanks around texts. -/
theorem Element.print_congr {a b : Element} {outer outer' : Scopes} (ha : a.IsRead outer)
    (hb : b.IsRead outer') (h : a.InStep EqualTrimmed b) (o : PrintOptions) (depth : Nat) :
    a.print o depth = b.print o depth := by
  induction a using descent generalizing b outer outer' depth with
  | step a ih =>
    obtain ⟨hequal, hchildren⟩ := inStep_iff.mp h
    cases ha with
    | @intro _ heading children _ htidy _ hread =>
    cases hb with
    | @intro _ heading' children' _ htidy' _ hread' =>
    have hname : heading.name = heading'.name := hequal.name
    have hheading : heading.print o depth = heading'.print o depth :=
      Heading.print_congr hname hequal.declarations hequal.attributes o depth
    have houtline : children.map Node.outline = children'.map Node.outline := hequal.outline
    have hnodes : printNodes o (depth + 1) children = printNodes o (depth + 1) children' := by
      refine printNodes_congr houtline (List.forall₂_iff_zip.mpr ⟨hchildren.length_eq, ?_⟩)
      intro x y hxy
      obtain ⟨hx, hy⟩ := List.of_mem_zip hxy
      exact ih x hx (hread x hx) (hread' y hy) (List.forall₂_zip hchildren hxy) (depth + 1)
    have hempty : children.isEmpty = children'.isEmpty := by
      rw [← List.isEmpty_map, houtline, List.isEmpty_map]
    have hall := Node.all_isSome_text?_congr houtline
    rw [print, print, ← hheading, ← hname, ← hempty, ← hall, ← hnodes]
    by_cases hnil : children = []
    · have hnone : children.isEmpty = true := List.isEmpty_iff.mpr hnil
      rw [if_pos hnone, if_pos hnone]
    · by_cases htexts : children.all (·.text?.isSome) = true
      · rw [Node.trimmed_join_congr htidy htidy' houtline hnil htexts]
      · rw [if_neg htexts, if_neg htexts]

namespace Document

/-- Documents that were read are printed the same if they have the same comments around their roots
and these differ at most in lines and in the blanks around texts. -/
theorem print_congr {d d' : Document} {source source' : String} (hd : parse source = .ok d)
    (hd' : parse source' = .ok d') (hprolog : d'.prolog = d.prolog) (hepilog : d'.epilog = d.epilog)
    (h : d.root.InStep EqualTrimmed d'.root) (o : PrintOptions) : d'.print o = d.print o := by
  rw [print, print, hprolog, hepilog,
    Element.print_congr (isRead_of_parse hd).1 (isRead_of_parse hd').1 h]

/-- What can be read is formatted to what the document is printed as. -/
theorem format_of_parse {d : Document} {source : String} (h : parse source = .ok d)
    (o : PrintOptions) : format o source = .ok (d.print o) := by
  rw [format, h]
  rfl

/-! ## Formatting -/

/-- A text with plain names can be formatted, and what comes of it is read as the same document but
for lines and for the blanks around texts: the comments around the root are the same, and so is
every element, with its path, its name as it is written and expanded, its declarations and
attributes in their order, and the sequence of the nodes in it. -/
theorem parse_format (source : String) (d : Document) (o : PrintOptions)
    (hparse : parse source = .ok d) (hplain : d.PlainNames) :
    ∃ printed d', format o source = .ok printed ∧ parse printed = .ok d' ∧
      d'.prolog = d.prolog ∧ d'.epilog = d.epilog ∧
      d.root.InStep (fun a b => a.EqualTrimmed b ∧ a.path = b.path) d'.root := by
  obtain ⟨d', hparse', hprolog, hepilog, hreprinted⟩ := exists_parse_print hparse hplain o
  have hequal : d.root.InStep EqualTrimmed d'.root := hreprinted.imp fun _ _ hxy => hxy.1
  have hpaths := and_paths (index_of_parse hparse).1 (index_of_parse hparse').1
    (fun _ _ hxy => hxy.name) hequal
  exact ⟨_, d', format_of_parse hparse o, hparse', hprolog, hepilog, hpaths⟩

/-- A list with a declaration and an attribute, and a comment in front of it. There are a text, a
comment and an item in it, and a text that ends on the next line. -/
def mixedList : Document :=
  ⟨["c"], .mk ⟨"r", .bare "r", ⟨[⟨"r", 1⟩]⟩, .between 1 2, .ofList [("p", "u")],
      .ofList [(.bare "k", ⟨"k", .bare "k", "<"⟩)]⟩
    [.text "a", .comment "d",
      .element (.mk ⟨"p:i", ⟨"u", "i"⟩, ⟨[⟨"r", 1⟩, ⟨"i", 1⟩]⟩, .single 1, .empty, .empty⟩ []),
      .text " b\n"], []⟩

/-- The texts of a list come without the blanks around them when it is formatted. -/
theorem parse_format_of_mixedList :
    parse "<!--c--><r k='&lt;' xmlns:p='u'>a<!--d--><p:i/> b\n</r>" = .ok mixedList ∧
      mixedList.PlainNames ∧
      ∃ printed d', format ⟨2, true, true⟩ "<!--c--><r k='&lt;' xmlns:p='u'>a<!--d--><p:i/> b\n</r>" =
          .ok printed ∧
        parse printed = .ok d' ∧ d'.prolog = mixedList.prolog ∧ d'.epilog = mixedList.epilog ∧
        mixedList.root.InStep (fun a b => a.EqualTrimmed b ∧ a.path = b.path) d'.root := by
  have hparse : parse "<!--c--><r k='&lt;' xmlns:p='u'>a<!--d--><p:i/> b\n</r>" = .ok mixedList := by
    decide
  have hplain : mixedList.PlainNames := by decide
  exact ⟨hparse, hplain, parse_format _ _ ⟨2, true, true⟩ hparse hplain⟩

/-- A text with plain names can be formatted with any options, and nothing else comes of it if it
has been formatted with others before. A text that has been formatted stays as it is when it is
formatted with the same options again. -/
theorem format_format (source : String) (d : Document) (o₁ o₂ : PrintOptions)
    (hparse : parse source = .ok d) (hplain : d.PlainNames) :
    ∃ once again, format o₁ source = .ok once ∧ format o₂ source = .ok again ∧
      format o₂ once = .ok again ∧ format o₁ once = .ok once := by
  obtain ⟨d', hparse', hprolog, hepilog, hreprinted⟩ := exists_parse_print hparse hplain o₁
  have hequal : d.root.InStep EqualTrimmed d'.root := hreprinted.imp fun _ _ hxy => hxy.1
  have hprint := print_congr hparse hparse' hprolog hepilog hequal
  refine ⟨_, _, format_of_parse hparse o₁, format_of_parse hparse o₂, ?_, ?_⟩
  · rw [format_of_parse hparse' o₂, hprint o₂]
  · rw [format_of_parse hparse' o₁, hprint o₁]

/-- The levels of a list may be moved to the margin and back. -/
theorem format_format_of_mixedList :
    parse "<!--c--><r k='&lt;' xmlns:p='u'>a<!--d--><p:i/> b\n</r>" = .ok mixedList ∧
      mixedList.PlainNames ∧
      ∃ once again,
        format ⟨0, false, true⟩ "<!--c--><r k='&lt;' xmlns:p='u'>a<!--d--><p:i/> b\n</r>" =
          .ok once ∧
        format ⟨2, true, false⟩ "<!--c--><r k='&lt;' xmlns:p='u'>a<!--d--><p:i/> b\n</r>" =
          .ok again ∧
        format ⟨2, true, false⟩ once = .ok again ∧ format ⟨0, false, true⟩ once = .ok once := by
  have hparse : parse "<!--c--><r k='&lt;' xmlns:p='u'>a<!--d--><p:i/> b\n</r>" = .ok mixedList := by
    decide
  have hplain : mixedList.PlainNames := by decide
  exact ⟨hparse, hplain, format_format _ _ ⟨0, false, true⟩ ⟨2, true, false⟩ hparse hplain⟩

end Document

end XmlCompare
