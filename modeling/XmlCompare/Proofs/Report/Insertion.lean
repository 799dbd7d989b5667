import XmlCompare.Proofs.Compare.Insertion
import XmlCompare.Proofs.Report.Deletion

/-!
# The finding on an insertion

An element that is new in the test document is found next to the place where it belongs: on the
lines of the sibling before that place, else of the first sibling, else of the parent. Only where
the parent is a root without children there is no finding, for what stands at the root is passed
over.
-/

set_option autoImplicit false

namespace XmlCompare

variable {c : Document} {p n : Element} {k : Nat}

namespace Element

/-- The neighbour of a place is a child, or the element itself if it has no children. -/
theorem neighbour_mem (p : Element) (k : Nat) :
    p.neighbour k ∈ p.childElements ∨ p.childElements = [] ∧ p.neighbour k = p := by
  unfold neighbour
  cases hlast : (p.childElements.take k).getLast? with
  | some s => exact .inl (List.mem_of_mem_take (List.mem_of_getLast? hlast))
  | none =>
    rw [Option.none_or]
    cases hchildren : p.childElements with
    | nil => exact .inr ⟨rfl, rfl⟩
    | cons s rest => exact .inl List.mem_cons_self

/-- The neighbour of a place is in the tree. -/
theorem neighbour_mem_all (p : Element) (k : Nat) : p.neighbour k ∈ p.all := by
  rcases neighbour_mem p k with hmem | ⟨-, heq⟩
  · exact child_mem_all hmem
  · rw [heq]
    exact self_mem_all p

end Element

/-- Unless the parent is a root without children, the neighbour of a place is no root. -/
theorem Document.isDocumentElement_neighbour (hplaced : c.Placed) (hp : p ∈ c.root.all)
    (h : p ≠ c.root ∨ p.childElements ≠ []) (k : Nat) :
    (p.neighbour k).path.isDocumentElement = false := by
  rcases Element.neighbour_mem p k with hmem | ⟨hnil, heq⟩
  · exact isDocumentElement_of_child hplaced hp hmem
  · rcases Element.exists_parent_of_mem_all hp with hroot | ⟨g, hg, hpg⟩
    · exact (h.elim (absurd hroot) (absurd hnil))
    · rw [heq]
      exact isDocumentElement_of_child hplaced hg hpg

/-- Of what differs after an insertion only the extra child is a finding, on the lines of the
neighbour. -/
theorem Finding.project_insertionDifferences {index : PositionIndex} (hplaced : c.Placed)
    (hperm : index.entries.entries.Perm (c.root.all.map Element.entry))
    (hp : p ∈ c.root.all) (h : p ≠ c.root ∨ p.childElements ≠ []) (tag : String) :
    project index (Element.insertionDifferences tag p k n) =
      [⟨(p.neighbour k).lines.first, (p.neighbour k).lines.last, Text.trimmed n.name,
        detailsOf (.extraChild p.name (p.neighbour k).path n)⟩] := by
  have hlines : index.get? (Difference.extraChild p.name (p.neighbour k).path n).path =
      some (p.neighbour k).lines :=
    PositionIndex.get?_of_perm hperm (Element.mem_all_trans hp (Element.neighbour_mem_all p k))
  have hloud : ¬ (Difference.extraChild p.name (p.neighbour k).path n).Quiet := by
    rintro (hkind | hroot)
    · cases hkind
    · have hinner : (Difference.extraChild p.name (p.neighbour k).path n).path.isDocumentElement =
          false := Document.isDocumentElement_neighbour hplaced hp h k
      rw [hinner] at hroot
      cases hroot
  rw [project, Element.insertionDifferences,
    List.filterMap_cons_none (ofDifference?_of_quiet (.inl rfl)),
    List.filterMap_cons_some (ofDifference?_of_not_quiet hlines hloud)]
  rfl

/-- If a test document agrees position by position with the control document but for one element
more, whose name and text are those of none of its siblings, then the comparison finds that the
parent has one child more and that the new element is extra, next to the neighbour of its place;
and unless the parent is a root without children the verdict is one finding, on the lines of the
neighbour, that asks for the new element by its name. -/
theorem verify_of_inserted (control test : String) (c t : Document) (p n : Element) (k : Nat)
    (hcontrol : Document.parse control = .ok c) (htest : Document.parse test = .ok t)
    (hp : p ∈ c.elements)
    (hunlike : ∀ s ∈ p.childElements,
      ¬ (s.expanded = n.expanded ∧ s.textContent = n.textContent))
    (h : Element.AgreeExcept p.path (Element.Grown k n) c.root t.root) :
    (∃ tag, c.root.TagAround Element.documentTag p tag ∧
      compareTexts Selector.standard control test =
        .different (Element.insertionDifferences tag p k n)) ∧
    (p ≠ c.root ∨ p.childElements ≠ [] →
      verify control test = .invalid [⟨(p.neighbour k).lines.first, (p.neighbour k).lines.last,
        Text.trimmed n.name, Finding.detailsOf (.extraChild p.name (p.neighbour k).path n)⟩]) := by
  obtain ⟨hplaced, -, index, hbuild, hperm⟩ := Document.index_of_parse hcontrol
  rw [Document.elements_eq] at hp
  obtain ⟨tag, haround, hroots⟩ := Element.differences_of_grown hplaced.inner hp hunlike h
    Element.documentTag
  have hdifferences : c.differences Selector.standard t =
      Element.insertionDifferences tag p k n := hroots
  constructor
  · refine ⟨tag, haround, ?_⟩
    rw [compareTexts_of_parse hcontrol htest, hdifferences]
    exact if_neg (List.cons_ne_nil _ _)
  · intro hinner
    have hfound := Finding.project_insertionDifferences (k := k) (n := n) hplaced hperm hp hinner tag
    rw [verify_of_build hcontrol htest hbuild, hdifferences, hfound]
    exact if_neg (List.cons_ne_nil _ _)

/-- Two items that are the same, on two lines. -/
def itemPair : Element := plainList 2 [plainItem "i" 1 1 1, plainItem "i" 2 2 2]

/-- The items with a new one between them. -/
def itemPairWithExtra : Element :=
  plainList 1 [plainItem "i" 1 1 1, plainItem "j" 1 1 1, plainItem "i" 2 1 1]

/-- The item between two that are the same is new, and is asked for on the line of the first. -/
theorem verify_of_inserted_item :
    Document.parse "<r><i/>\n<i/></r>" = .ok ⟨[], itemPair, []⟩ ∧
    Document.parse "<r><i/><j/><i/></r>" = .ok ⟨[], itemPairWithExtra, []⟩ ∧
    itemPair ∈ (Document.mk [] itemPair []).elements ∧
    (∀ s ∈ itemPair.childElements, ¬ (s.expanded = (plainItem "j" 1 1 1).expanded ∧
      s.textContent = (plainItem "j" 1 1 1).textContent)) ∧
    Element.AgreeExcept itemPair.path (Element.Grown 1 (plainItem "j" 1 1 1)) itemPair
      itemPairWithExtra ∧
    (∃ tag, itemPair.TagAround Element.documentTag itemPair tag ∧
      compareTexts Selector.standard "<r><i/>\n<i/></r>" "<r><i/><j/><i/></r>" =
        .different (Element.insertionDifferences tag itemPair 1 (plainItem "j" 1 1 1))) ∧
    itemPair.childElements ≠ [] ∧
    verify "<r><i/>\n<i/></r>" "<r><i/><j/><i/></r>" = .invalid
      [⟨(itemPair.neighbour 1).lines.first, (itemPair.neighbour 1).lines.last, Text.trimmed "j",
        Finding.detailsOf (.extraChild "r" (itemPair.neighbour 1).path (plainItem "j" 1 1 1))⟩] ∧
    itemPair.neighbour 1 = plainItem "i" 1 1 1 := by
  have hcontrol : Document.parse "<r><i/>\n<i/></r>" = .ok ⟨[], itemPair, []⟩ := by decide
  have htest : Document.parse "<r><i/><j/><i/></r>" = .ok ⟨[], itemPairWithExtra, []⟩ := by
    decide
  have hroot : itemPair ∈ (Document.mk [] itemPair []).elements := by
    rw [Document.elements_eq]
    exact Element.self_mem_all itemPair
  have hchildren : itemPair.childElements = [plainItem "i" 1 1 1, plainItem "i" 2 2 2] := rfl
  have hunlike : ∀ s ∈ itemPair.childElements, ¬ (s.expanded = (plainItem "j" 1 1 1).expanded ∧
      s.textContent = (plainItem "j" 1 1 1).textContent) := by
    rintro s hs ⟨hexpanded, -⟩
    rw [hchildren] at hs
    rcases List.mem_cons.mp hs with rfl | hs
    · exact absurd hexpanded (by decide)
    · obtain rfl := List.mem_singleton.mp hs
      exact absurd hexpanded (by decide)
  have hitem : ∀ ordinal first last ordinal' first' last',
      (plainItem "i" ordinal first last).Agree (plainItem "i" ordinal' first' last') :=
    fun _ _ _ _ _ _ => .intro ⟨rfl, fun _ => rfl, rfl⟩ .nil
  have hagree : Element.AgreeExcept itemPair.path (Element.Grown 1 (plainItem "j" 1 1 1)) itemPair
      itemPairWithExtra := by
    have hextra : itemPairWithExtra.childElements =
        [plainItem "i" 1 1 1] ++ plainItem "j" 1 1 1 :: [plainItem "i" 2 1 1] := rfl
    exact .here rfl ⟨⟨rfl, fun _ => rfl, rfl⟩, _, _, hextra, rfl,
      .cons (hitem ..) (.cons (hitem ..) .nil)⟩
  have hsome : itemPair.childElements ≠ [] := by simp [hchildren]
  obtain ⟨hsame, hverdict⟩ := verify_of_inserted _ _ _ _ _ _ _ hcontrol htest hroot hunlike hagree
  exact ⟨hcontrol, htest, hroot, hunlike, hagree, hsame, hsome, hverdict (.inr hsome), rfl⟩

end XmlCompare
