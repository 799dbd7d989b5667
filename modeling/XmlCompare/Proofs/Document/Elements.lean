import XmlCompare.Proofs.Document.Agreement
import XmlCompare.Proofs.Document.Origin

/-!
# What is known of every element

A name is taken apart in three places: where a path gets its last step, where siblings are counted
and where the name is expanded. The three agree on every name, so whatever is known of local parts
is known of the local names of elements, whatever abbreviations were written. With that, the texts,
the attributes and the path of every element of a document are as they should be.
-/

set_option autoImplicit false

namespace XmlCompare

namespace Scopes

/-- An expanded name keeps the local name. -/
theorem localName_expand (s : Scopes) (abbreviation localName : String) :
    (s.expand abbreviation localName).localName = localName := by
  unfold expand
  split <;> rfl

/-- Expanding the name of an element keeps its local part. -/
theorem localName_elementName (s : Scopes) (name : String) :
    (s.elementName name).localName = Name.localPart name := by
  unfold elementName Name.localPart
  split
  · rename_i hsplit
    rw [hsplit, localName_expand]
  · rename_i hsplit
    rw [hsplit, localName_expand]

end Scopes

namespace Element

/-- The scopes in force inside an element, given those around it. -/
def scopesInside (outer : Scopes) (x : Element) : Scopes :=
  outer.enter x.heading.declarations.entries

/-- An element is reached from the root of a document, and these are the scopes around it. -/
inductive Encloses (root : Element) : Scopes → Element → Prop
  | root : Encloses root .document root
  | child {outer : Scopes} {parent x : Element} : Encloses root outer parent →
    x ∈ parent.childElements → Encloses root (parent.scopesInside outer) x

/-- Every element of a tree has scopes around it. -/
theorem exists_encloses_of_mem_all {root x : Element} (h : x ∈ root.all) :
    ∃ outer, root.Encloses outer x := by
  induction mem_all_iff_reaches.mp h with
  | refl => exact ⟨.document, .root⟩
  | tail hreaches hchild ih =>
    obtain ⟨outer, hparent⟩ := ih (mem_all_iff_reaches.mpr hreaches)
    exact ⟨_, .child hparent hchild⟩

/-! ## Reading and local names -/

variable {outer : Scopes} {root x c : Element}

/-- The heading of an element that is as it is read is so too. -/
theorem IsRead.heading (h : x.IsRead outer) : x.heading.IsRead outer := by
  cases h with
  | intro hheading _ _ _ => exact hheading

/-- The children of an element that is as it is read are tidy. -/
theorem IsRead.tidy (h : x.IsRead outer) : Node.Tidy x.children := by
  cases h with
  | intro _ htidy _ _ => exact htidy

/-- No child of an element that is as it is read is blank text. -/
theorem IsRead.not_blank (h : x.IsRead outer) {node : Node} (hnode : node ∈ x.children) :
    node.isBlankText = false := by
  cases h with
  | intro _ _ hwords _ => exact hwords node hnode

/-- The children of an element that is as it is read are so inside it. -/
theorem IsRead.child (h : x.IsRead outer) (hc : c ∈ x.childElements) :
    c.IsRead (x.scopesInside outer) := by
  cases h with
  | intro _ _ _ hchildren => exact hchildren c hc

/-- What is inside a root that is read is read in the scopes around it. -/
theorem IsRead.of_encloses (hroot : root.IsRead .document) (h : root.Encloses outer x) :
    x.IsRead outer := by
  induction h with
  | root => exact hroot
  | child _ hchild ih => exact ih.child hchild

/-- The local name of an element is what its name has behind the abbreviation. -/
theorem IsRead.localName_eq (h : x.IsRead outer) :
    x.expanded.localName = Name.localPart x.name := by
  rw [expanded, h.heading.expanded, Scopes.localName_elementName]
  rfl

/-! ## Texts, attributes and paths -/

/-- The path of an element behind some siblings. Siblings count if they have its local name,
whatever namespaces they belong to. -/
def pathBehind (parent : Path) (earlier : List Element) (x : Element) : Path :=
  ⟨parent.steps ++
    [⟨x.expanded.localName,
      1 + earlier.countP fun s => s.expanded.localName = x.expanded.localName⟩]⟩

/-- The path that siblings give to an element by the local parts of written names is the one they
give it by local names. -/
theorem pathBehind_eq_child {earlier : List Element} (hx : x.IsRead outer)
    (hearlier : ∀ s ∈ earlier, s.IsRead outer) (parent : Path) :
    x.pathBehind parent earlier = parent.child x.name (ordinalAfter earlier x.name) := by
  have hcount : earlier.countP (fun s => s.expanded.localName = x.expanded.localName) =
      earlier.countP fun s => Name.localPart s.name = Name.localPart x.name :=
    List.countP_congr fun s hs => by
      simp only [decide_eq_true_eq, hx.localName_eq, (hearlier s hs).localName_eq]
  rw [pathBehind, Path.child, ordinalAfter, hcount, hx.localName_eq, Nat.add_comm]

/-- An element in whose tag some scopes are in force, with texts, attributes and child elements as
they should be. -/
structure Regular (scopes : Scopes) (x : Element) : Prop where
  /-- No text holds only blanks. -/
  words : ∀ content, .text content ∈ x.children → Text.isBlankText content = false
  /-- No two texts are neighbours. -/
  apart : ∀ before a b after, x.children ≠ before ++ .text a :: .text b :: after
  /-- The name is expanded in the scopes in force. -/
  named : x.expanded = scopes.elementName x.name
  /-- An attribute is kept under its expanded name and declares nothing. -/
  attributes : ∀ e ∈ x.attributes.entries, e.1 = e.2.expanded ∧
    e.2.expanded = scopes.attributeName e.2.name ∧ Name.declares? e.2.name = none
  /-- The path of a child counts the siblings before it. -/
  children : ∀ before c after, x.childElements = before ++ c :: after →
    c.path = c.pathBehind x.path before

/-- Texts that are set apart are not neighbours. -/
theorem ne_of_tidy {nodes : List Node} (h : Node.Tidy nodes) (before : List Node) (a b : String)
    (after : List Node) : nodes ≠ before ++ .text a :: .text b :: after := by
  rintro rfl
  obtain ⟨-, hbehind, -⟩ := List.isChain_append.mp h.apart
  rcases (List.isChain_cons_cons.mp hbehind).1 with hnone | hnone <;> cases hnone

/-- A numbered element that is as it is read is regular. -/
theorem IsRead.regular (h : x.IsRead outer) (hnumbered : Numbered x.path x.childElements) :
    x.Regular (x.scopesInside outer) where
  words _ hmem := h.not_blank hmem
  apart := ne_of_tidy h.tidy
  named := h.heading.expanded
  attributes := by
    intro e he
    obtain ⟨-, hdeclares, hexpanded, hkey⟩ := h.heading.attributes e he
    exact ⟨hexpanded.symm, hexpanded.trans hkey, hdeclares⟩
  children := by
    intro before c after hsplit
    have hread : ∀ s ∈ before ++ c :: after, s.IsRead (x.scopesInside outer) := by
      rw [← hsplit]
      exact fun s hs => h.child hs
    obtain ⟨hbefore, hrest⟩ := List.forall_mem_append.mp hread
    rw [hnumbered before c after hsplit,
      pathBehind_eq_child (hrest c List.mem_cons_self) hbefore]

end Element

/-- The root of the document of a text has the path of a first child of the document. Every element
stands in scopes that are opened by the elements around it. There it has no blank text and no two
neighbouring ones, its name and those of its attributes are expanded in these scopes and its own,
its attributes are kept under their expanded names and are no declarations, and each of its child
elements goes on from its path by the child's local name and one more than the siblings of that
local name before it. -/
theorem elements_are_regular {source : String} {d : Document}
    (h : Document.parse source = .ok d) :
    d.root.path = d.root.pathBehind .document [] ∧
      ∀ x ∈ d.elements, ∃ outer, d.root.Encloses outer x ∧ x.Regular (x.scopesInside outer) := by
  obtain ⟨hroot, -⟩ := Document.isRead_of_parse h
  obtain ⟨hplaced, -⟩ := Document.index_of_parse h
  refine ⟨?_, fun x hx => ?_⟩
  · rw [hplaced.root, Element.pathBehind_eq_child hroot (by simp)]
    rfl
  · rw [Document.elements_eq] at hx
    obtain ⟨outer, hencloses⟩ := Element.exists_encloses_of_mem_all hx
    exact ⟨outer, hencloses, (hroot.of_encloses hencloses).regular (hplaced.inner x hx)⟩

/-- A list in a default namespace with an abbreviation declared next to it. An item has two texts
and a comment in it, one item is written with the abbreviation, one with an empty abbreviation, and
one element has several colons in its name. -/
def abbreviatedText : String :=
  "<p:r xmlns:p='u' xmlns='v' p:k='1' k='2'> <i>a<!---->b<![CDATA[c]]></i>\n" ++
    "<p:i/><q:i:j/><:i/></p:r>"

/-- The document of that text. -/
def abbreviatedItems : Document :=
  ⟨[], .mk ⟨"p:r", ⟨"u", "r"⟩, ⟨[⟨"r", 1⟩]⟩, .between 1 2, .ofList [("p", "u"), ("", "v")],
      .ofList [(⟨"u", "k"⟩, ⟨"p:k", ⟨"u", "k"⟩, "1"⟩), (.bare "k", ⟨"k", .bare "k", "2"⟩)]⟩
    [.element (.mk ⟨"i", ⟨"v", "i"⟩, ⟨[⟨"r", 1⟩, ⟨"i", 1⟩]⟩, .single 1, .empty, .empty⟩
        [.text "a", .comment "", .text "bc"]),
      .element (.mk ⟨"p:i", ⟨"u", "i"⟩, ⟨[⟨"r", 1⟩, ⟨"i", 2⟩]⟩, .single 2, .empty, .empty⟩ []),
      .element (.mk ⟨"q:i:j", .bare "i:j", ⟨[⟨"r", 1⟩, ⟨"i:j", 1⟩]⟩, .single 2, .empty, .empty⟩ []),
      .element (.mk ⟨":i", ⟨"v", "i"⟩, ⟨[⟨"r", 1⟩, ⟨"i", 3⟩]⟩, .single 2, .empty, .empty⟩ [])], []⟩

/-- The items of a list are numbered across their abbreviations. -/
theorem abbreviatedItems_are_regular :
    Document.parse abbreviatedText = .ok abbreviatedItems ∧
      abbreviatedItems.root.path = abbreviatedItems.root.pathBehind .document [] ∧
      ∀ x ∈ abbreviatedItems.elements, ∃ outer, abbreviatedItems.root.Encloses outer x ∧
        x.Regular (x.scopesInside outer) := by
  have hparse : Document.parse abbreviatedText = .ok abbreviatedItems := by decide
  exact ⟨hparse, elements_are_regular hparse⟩

end XmlCompare
