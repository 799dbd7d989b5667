import XmlCompare.Proofs.Compare.Rewording
import XmlCompare.Proofs.Compare.Values
import XmlCompare.Proofs.Report.Deletion

/-!
# The finding on a changed text

A text that was changed is found where it stands: one finding covers the lines of its element in the
control text and says what the text should be. The text of an element is in normal form, so it is
shown as it is.
-/

set_option autoImplicit false

namespace XmlCompare

variable {c : Document} {p x : Element} {text : Option String}

/-- A changed text is a finding on the lines of its element. -/
theorem Finding.project_rewordingDifference {index : PositionIndex} (hplaced : c.Placed)
    (hperm : index.entries.entries.Perm (c.root.all.map Element.entry))
    (hp : p ∈ c.root.all) (hx : x ∈ p.childElements) (htext : text.map Text.trimmed = text) :
    project index [Element.rewordingDifference p.name x text] =
      [⟨x.lines.first, x.lines.last, showValue text,
        detailsOf (Element.rewordingDifference p.name x text)⟩] := by
  have hlines : index.get? (Element.rewordingDifference p.name x text).path = some x.lines :=
    PositionIndex.get?_of_perm hperm (Element.mem_all_trans hp (Element.child_mem_all hx))
  have hloud : ¬ (Element.rewordingDifference p.name x text).Quiet := by
    rintro (hkind | hroot)
    · cases hkind
    · have hinner : (Element.rewordingDifference p.name x text).path.isDocumentElement = false :=
        Document.isDocumentElement_of_child hplaced hp hx
      rw [hinner] at hroot
      cases hroot
  have hshown : showValue (Element.rewordingDifference p.name x text).test = showValue text :=
    congrArg showValue htext
  rw [project, List.filterMap_cons_some (ofDifference?_of_not_quiet hlines hloud), hshown]
  rfl

/-- If a test document agrees position by position with the control document but for the text of one
element that is not the root, and no sibling of the element has its name with the old or the new
text, then the comparison finds this text and nothing else, and the verdict is one finding, on the
lines of the element, that asks for the new text. -/
theorem verify_of_reworded (control test : String) (c t : Document) (p x : Element)
    (text : Option String) (hcontrol : Document.parse control = .ok c)
    (htest : Document.parse test = .ok t) (hp : p ∈ c.elements) (hx : x ∈ p.childElements)
    (hne : text ≠ x.textContent)
    (hunlike : ∀ s ∈ p.childElements, s ≠ x → ¬ (s.expanded = x.expanded ∧
      (s.textContent = x.textContent ∨ s.textContent = text)))
    (h : Element.AgreeExcept x.path (Element.Reworded text) c.root t.root) :
    compareTexts Selector.standard control test =
      .different [Element.rewordingDifference p.name x text] ∧
    verify control test = .invalid [⟨x.lines.first, x.lines.last, showValue text,
      Finding.detailsOf (Element.rewordingDifference p.name x text)⟩] := by
  obtain ⟨hplaced, -, index, hbuild, hperm⟩ := Document.index_of_parse hcontrol
  rw [Document.elements_eq] at hp
  have hdifferences : c.differences Selector.standard t =
      [Element.rewordingDifference p.name x text] :=
    Element.differences_of_rewording hplaced.inner hp hx hne hunlike h Element.documentTag
  obtain ⟨y, hxy⟩ := h.exists_related hplaced.inner
    (Element.mem_all_trans hp (Element.child_mem_all hx))
  have htext : text.map Text.trimmed = text := by
    rw [← hxy.text]
    exact Element.trimmed_textContent y
  constructor
  · rw [compareTexts_of_parse hcontrol htest, hdifferences]
    exact if_neg (List.cons_ne_nil _ _)
  · have hfound := Finding.project_rewordingDifference hplaced hperm hp hx htext
    rw [verify_of_build hcontrol htest hbuild, hdifferences, hfound]
    exact if_neg (List.cons_ne_nil _ _)

/-- An item with a text on one line of a list. -/
def wordItem (ordinal line : Nat) (word : String) : Element :=
  .mk ⟨"i", .bare "i", ⟨[⟨"r", 1⟩, ⟨"i", ordinal⟩]⟩, .single line, .empty, .empty⟩ [.text word]

/-- Three items, where the first and the last have the same text. -/
def wordList (lines : Nat) (word : String) : Element :=
  plainList lines [wordItem 1 1 "a", wordItem 2 lines word, wordItem 3 lines "a"]

/-- The item between two that are the same has another text, which is asked for on its line. -/
theorem verify_of_reworded_item :
    Document.parse "<r><i>a</i>\n<i>b</i><i>a</i></r>" = .ok ⟨[], wordList 2 "b", []⟩ ∧
    Document.parse "<r><i>a</i><i> c </i><i>a</i></r>" = .ok ⟨[], wordList 1 " c ", []⟩ ∧
    wordList 2 "b" ∈ (Document.mk [] (wordList 2 "b") []).elements ∧
    wordItem 2 2 "b" ∈ (wordList 2 "b").childElements ∧
    some "c" ≠ (wordItem 2 2 "b").textContent ∧
    (∀ s ∈ (wordList 2 "b").childElements, s ≠ wordItem 2 2 "b" →
      ¬ (s.expanded = (wordItem 2 2 "b").expanded ∧
        (s.textContent = (wordItem 2 2 "b").textContent ∨ s.textContent = some "c"))) ∧
    Element.AgreeExcept (wordItem 2 2 "b").path (Element.Reworded (some "c")) (wordList 2 "b")
      (wordList 1 " c ") ∧
    compareTexts Selector.standard "<r><i>a</i>\n<i>b</i><i>a</i></r>"
        "<r><i>a</i><i> c </i><i>a</i></r>" =
      .different [Element.rewordingDifference "r" (wordItem 2 2 "b") (some "c")] ∧
    verify "<r><i>a</i>\n<i>b</i><i>a</i></r>" "<r><i>a</i><i> c </i><i>a</i></r>" =
      .invalid [⟨2, 2, "c",
        Finding.detailsOf (Element.rewordingDifference "r" (wordItem 2 2 "b") (some "c"))⟩] := by
  have hcontrol : Document.parse "<r><i>a</i>\n<i>b</i><i>a</i></r>" =
      .ok ⟨[], wordList 2 "b", []⟩ := by decide
  have htest : Document.parse "<r><i>a</i><i> c </i><i>a</i></r>" =
      .ok ⟨[], wordList 1 " c ", []⟩ := by decide
  have hroot : wordList 2 "b" ∈ (Document.mk [] (wordList 2 "b") []).elements := by
    rw [Document.elements_eq]
    exact Element.self_mem_all _
  have hchildren : ∀ lines word, (wordList lines word).childElements =
      [wordItem 1 1 "a", wordItem 2 lines word, wordItem 3 lines "a"] := fun _ _ => rfl
  have hitem : wordItem 2 2 "b" ∈ (wordList 2 "b").childElements := by simp [hchildren]
  have hne : some "c" ≠ (wordItem 2 2 "b").textContent := by decide
  have hunlike : ∀ s ∈ (wordList 2 "b").childElements, s ≠ wordItem 2 2 "b" →
      ¬ (s.expanded = (wordItem 2 2 "b").expanded ∧
        (s.textContent = (wordItem 2 2 "b").textContent ∨ s.textContent = some "c")) := by
    rintro s hs hother ⟨-, htext⟩
    rw [hchildren] at hs
    rcases List.mem_cons.mp hs with rfl | hs
    · exact absurd htext (by decide)
    · rcases List.mem_cons.mp hs with rfl | hs
      · exact hother rfl
      · obtain rfl := List.mem_singleton.mp hs
        exact absurd htext (by decide)
  have hagree : Element.AgreeExcept (wordItem 2 2 "b").path (Element.Reworded (some "c"))
      (wordList 2 "b") (wordList 1 " c ") := by
    have hsame : ∀ ordinal line line', ordinal ≠ 2 →
        Element.AgreeExcept (wordItem 2 2 "b").path (Element.Reworded (some "c"))
          (wordItem ordinal line "a") (wordItem ordinal line' "a") := by
      intro ordinal line line' hordinal
      refine .elsewhere ?_ ⟨rfl, fun _ => rfl, rfl⟩ .nil
      intro hpath
      have hsteps := congrArg Path.steps hpath
      simp only [wordItem, Element.path, Element.heading, List.cons.injEq, Step.mk.injEq] at hsteps
      exact hordinal hsteps.2.1.2
    have hword : Element.AgreeExcept (wordItem 2 2 "b").path (Element.Reworded (some "c"))
        (wordItem 2 2 "b") (wordItem 2 1 " c ") :=
      .here rfl ⟨rfl, fun _ => rfl, by decide, .nil⟩
    refine .elsewhere (by decide) ⟨rfl, fun _ => rfl, rfl⟩ ?_
    rw [hchildren, hchildren]
    exact .cons (hsame 1 1 1 (by decide)) (.cons hword (.cons (hsame 3 2 1 (by decide)) .nil))
  obtain ⟨hsame, hverdict⟩ :=
    verify_of_reworded _ _ _ _ _ _ _ hcontrol htest hroot hitem hne hunlike hagree
  exact ⟨hcontrol, htest, hroot, hitem, hne, hunlike, hagree, hsame, hverdict⟩

end XmlCompare
