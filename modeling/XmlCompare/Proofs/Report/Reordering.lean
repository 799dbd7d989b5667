import XmlCompare.Proofs.Compare.Interchange
import XmlCompare.Proofs.Report.Projection

/-!
# The verdict on reordered siblings

Putting siblings in another order, anywhere in a document, calls for nothing. The one thing asked of
the control document is that siblings with the same name and text are similar: of two that are not,
a reordering may give the first the counterpart of the second.
-/

set_option autoImplicit false

namespace XmlCompare

/-- If siblings of the control document that have the same name and text are similar, and the roots
of the two documents are similar, then nothing differs and the verdict is valid. -/
theorem valid_of_similar (control test : String) (c t : Document)
    (hcontrol : Document.parse control = .ok c) (htest : Document.parse test = .ok t)
    (hinter : ∀ p ∈ c.elements, ∀ a ∈ p.childElements, ∀ b ∈ p.childElements,
      a.expanded = b.expanded → a.textContent = b.textContent → a.Similar b)
    (h : c.root.Similar t.root) :
    compareTexts Selector.standard control test = .same ∧ verify control test = .valid := by
  rw [Document.elements_eq] at hinter
  exact valid_of_no_differences hcontrol htest
    (Element.differences_of_similar hinter h Element.documentTag)

/-- A leaf in a list of pairs. -/
def pairLeaf (ordinal : Nat) (name : String) : Element :=
  .mk ⟨name, .bare name, ⟨[⟨"r", 1⟩, ⟨"i", ordinal⟩, ⟨name, 1⟩]⟩, .single 1, .empty, .empty⟩ []

/-- An item with two elements inside it. -/
def pairItem (ordinal : Nat) (first second : String) : Element :=
  .mk ⟨"i", .bare "i", ⟨[⟨"r", 1⟩, ⟨"i", ordinal⟩]⟩, .single 1, .empty, .empty⟩
    [.element (pairLeaf ordinal first), .element (pairLeaf ordinal second)]

/-- A list of two pairs, the second of which holds `b` before `a`. -/
def pairList (first second : String) : Element :=
  .mk ⟨"r", .bare "r", ⟨[⟨"r", 1⟩]⟩, .single 1, .empty, .empty⟩
    [.element (pairItem 1 first second), .element (pairItem 2 "b" "a")]

/-- Such items are similar if the elements inside them change places. -/
theorem similar_pairItem (ordinal ordinal' : Nat) (first second : String) :
    (pairItem ordinal first second).Similar (pairItem ordinal' second first) := by
  have hleaf : ∀ name, (pairLeaf ordinal name).Similar (pairLeaf ordinal' name) :=
    fun name => .intro ⟨rfl, fun _ => rfl, rfl⟩ .nil .nil
  exact .intro ⟨rfl, fun _ => rfl, rfl⟩ (.cons (hleaf first) (.cons (hleaf second) .nil))
    (.swap ..)

/-- Both pairs have one name and no text, and they are similar though they stand in another order;
in the test document the first pair has been turned around. -/
theorem valid_of_turned_pair :
    Document.parse "<r><i><a/><b/></i><i><b/><a/></i></r>" = .ok ⟨[], pairList "a" "b", []⟩ ∧
    Document.parse "<r><i><b/><a/></i><i><b/><a/></i></r>" = .ok ⟨[], pairList "b" "a", []⟩ ∧
    (∀ p ∈ (Document.mk [] (pairList "a" "b") []).elements, ∀ a ∈ p.childElements,
      ∀ b ∈ p.childElements, a.expanded = b.expanded → a.textContent = b.textContent →
        a.Similar b) ∧
    (pairList "a" "b").Similar (pairList "b" "a") ∧
    compareTexts Selector.standard "<r><i><a/><b/></i><i><b/><a/></i></r>"
      "<r><i><b/><a/></i><i><b/><a/></i></r>" = .same ∧
    verify "<r><i><a/><b/></i><i><b/><a/></i></r>" "<r><i><b/><a/></i><i><b/><a/></i></r>" =
      .valid := by
  have hcontrol : Document.parse "<r><i><a/><b/></i><i><b/><a/></i></r>" =
      .ok ⟨[], pairList "a" "b", []⟩ := by decide
  have htest : Document.parse "<r><i><b/><a/></i><i><b/><a/></i></r>" =
      .ok ⟨[], pairList "b" "a", []⟩ := by decide
  have hsame : ∀ ordinal ordinal', (pairItem ordinal "b" "a").Similar (pairItem ordinal' "b" "a") :=
    fun ordinal ordinal' =>
      (similar_pairItem ordinal ordinal' "b" "a").trans (similar_pairItem ordinal' ordinal' "a" "b")
  have hsimilar : (pairList "a" "b").Similar (pairList "b" "a") :=
    .intro ⟨rfl, fun _ => rfl, rfl⟩
      (.cons (similar_pairItem 1 1 "a" "b") (.cons (hsame 2 2) .nil)) (.refl _)
  have hinter : ∀ p ∈ (Document.mk [] (pairList "a" "b") []).elements, ∀ a ∈ p.childElements,
      ∀ b ∈ p.childElements, a.expanded = b.expanded → a.textContent = b.textContent →
        a.Similar b := by
    have hall : (pairList "a" "b").all = [pairList "a" "b", pairItem 1 "a" "b", pairLeaf 1 "a",
        pairLeaf 1 "b", pairItem 2 "b" "a", pairLeaf 2 "b", pairLeaf 2 "a"] := rfl
    have hitem : ∀ n x y, x ≠ y → ∀ a ∈ (pairItem n x y).childElements,
        ∀ b ∈ (pairItem n x y).childElements, a.expanded = b.expanded → a.Similar b := by
      intro n x y hxy a ha b hb hexpanded
      have hchildren : (pairItem n x y).childElements = [pairLeaf n x, pairLeaf n y] := rfl
      simp only [hchildren, List.mem_cons, List.not_mem_nil, or_false] at ha hb
      rcases ha with rfl | rfl <;> rcases hb with rfl | rfl
      · exact .refl _
      · exact absurd (congrArg ExpandedName.localName hexpanded) hxy
      · exact absurd (congrArg ExpandedName.localName hexpanded) hxy.symm
      · exact .refl _
    rw [Document.elements_eq, hall]
    intro p hp a ha b hb hexpanded _
    simp only [List.mem_cons, List.not_mem_nil, or_false] at hp
    rcases hp with rfl | rfl | rfl | rfl | rfl | rfl | rfl
    · have hchildren : (pairList "a" "b").childElements = [pairItem 1 "a" "b", pairItem 2 "b" "a"] :=
        rfl
      simp only [hchildren, List.mem_cons, List.not_mem_nil, or_false] at ha hb
      rcases ha with rfl | rfl <;> rcases hb with rfl | rfl
      · exact .refl _
      · exact similar_pairItem 1 2 "a" "b"
      · exact similar_pairItem 2 1 "b" "a"
      · exact .refl _
    · exact hitem 1 "a" "b" (by decide) a ha b hb hexpanded
    · cases ha
    · cases ha
    · exact hitem 2 "b" "a" (by decide) a ha b hb hexpanded
    · cases ha
    · cases ha
  obtain ⟨hnone, hverdict⟩ := valid_of_similar _ _ _ _ hcontrol htest hinter hsimilar
  exact ⟨hcontrol, htest, hinter, hsimilar, hnone, hverdict⟩

end XmlCompare
