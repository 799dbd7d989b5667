import XmlCompare.Proofs.Report.Projection

/-!
# What a valid verdict promises

A valid verdict passes over differences at the root, so it says nothing about the root itself. But
if the root of the control document has children, they are in a one-to-one correspondence with the
children of the test root, and paired children are similar: a missing child and whatever differs
inside a pair stands below the root, and an extra child of the test root cannot hide at the root,
since it is addressed next to a sibling.
-/

set_option autoImplicit false

namespace XmlCompare

variable {selectors : List Selector} {c t : Document}

namespace Document

/-- Inside a child of the root nothing stands at the document element. -/
theorem isDocumentElement_below (hplaced : c.Placed) {child x : Element}
    (hchild : child ∈ c.root.childElements) (hx : x ∈ child.all) :
    x.path.isDocumentElement = false := by
  rcases Element.exists_parent_of_mem_all hx with rfl | ⟨p, hp, hxp⟩
  · exact isDocumentElement_of_child hplaced (Element.self_mem_all c.root) hchild
  · have hp' : p ∈ c.root.all := Element.mem_all_trans (Element.child_mem_all hchild) hp
    exact isDocumentElement_of_child hplaced hp' hxp

/-- What differs about the children of the root is quiet only if it is a number of children. -/
theorem kind_of_quiet_pair (hplaced : c.Placed)
    (hquiet : ∀ d ∈ c.differences selectors t, d.Quiet) {pair : Element × Option Element}
    (hpair : pair ∈ c.root.childElements.zip (c.root.counterparts selectors t.root)) :
    ∀ d ∈ Element.pairDifferences selectors c.root.name pair, d.kind = .childCount := by
  intro d hd
  obtain ⟨x, hx, hpath⟩ := Element.path_of_mem_pairDifferences hd
  have hbelow := isDocumentElement_below hplaced (List.of_mem_zip hpair).1 hx
  rcases hquiet d (Element.mem_differences.mpr (.inr (.inl ⟨pair, hpair, hd⟩))) with hkind | hroot
  · exact hkind
  · rw [hpath, hbelow] at hroot
    cases hroot

/-- Quiet differences leave no child of the root missing, and paired children are similar. -/
theorem similar_of_quiet_pair (hplaced : c.Placed)
    (hquiet : ∀ d ∈ c.differences selectors t, d.Quiet) {pair : Element × Option Element}
    (hpair : pair ∈ c.root.childElements.zip (c.root.counterparts selectors t.root)) :
    ∃ b, pair.2 = some b ∧ pair.1.Similar b := by
  have hkind := kind_of_quiet_pair hplaced hquiet hpair
  obtain ⟨child, counterpart⟩ := pair
  cases counterpart with
  | some counterpart => exact ⟨counterpart, rfl, Element.similar_of_only_counts hkind⟩
  | none => cases hkind _ (List.mem_singleton.mpr rfl)

/-- Below a root that has children, quiet differences leave no extra child. -/
theorem unmatchedTest_of_quiet (hplaced : c.Placed)
    (hquiet : ∀ d ∈ c.differences selectors t, d.Quiet) (hchildren : c.root.childElements ≠ []) :
    (c.root.matching selectors t.root).unmatchedTest = [] := by
  -- The children have partners, and so an extra child would have a neighbour to stand at.
  obtain ⟨partner, hpartner⟩ := Element.exists_partner hchildren fun pair hpair =>
    (similar_of_quiet_pair hplaced hquiet hpair).imp fun _ h => h.1
  rw [List.eq_nil_iff_forall_not_mem]
  intro position hposition
  obtain ⟨extra, hextra⟩ := Element.exists_extraChild hposition
  obtain ⟨sibling, hsibling, hanchor⟩ := Element.exists_sibling_of_anchorPath hposition hpartner
  rcases hquiet _ (Element.mem_differences.mpr (.inr (.inr hextra))) with hkind | hroot
  · cases hkind
  · have hbelow := isDocumentElement_below hplaced hsibling (Element.self_mem_all sibling)
    have hpath : (Difference.extraChild c.root.name (Element.anchorPath c.root
        (c.root.matching selectors t.root) position) extra).path = sibling.path := hanchor
    rw [hpath, hbelow] at hroot
    cases hroot

/-- Below a root that has children, quiet differences leave no child without a counterpart and no
extra child, and paired children are similar. -/
theorem correspond_of_quiet (hplaced : c.Placed)
    (hquiet : ∀ d ∈ c.differences selectors t, d.Quiet) (hchildren : c.root.childElements ≠ []) :
    Element.Correspond Element.Similar c.root.childElements t.root.childElements :=
  Element.correspond_of_complete (fun _ hpair => similar_of_quiet_pair hplaced hquiet hpair)
    (unmatchedTest_of_quiet hplaced hquiet hchildren)

end Document

/-- If the verdict on a text that is not blank is valid, whatever the selectors, then the text is a
document, and either the control root has no child elements or its child elements are in a
one-to-one correspondence with those of the test root in which paired elements are similar. -/
theorem correspond_of_verify_valid (selectors : List Selector) (control test : String)
    (c : Document) (hcontrol : Document.parse control = .ok c)
    (htest : Text.isBlankText test = false)
    (h : verifyWith selectors control test = .ok .valid) :
    ∃ t, Document.parse test = .ok t ∧ (c.root.childElements = [] ∨
      Element.Correspond Element.Similar c.root.childElements t.root.childElements) := by
  obtain ⟨hplaced, -, index, hbuild, hperm⟩ := Document.index_of_parse hcontrol
  have hverdict : (Snapshot.mk control index).verify selectors test = .valid := by
    rw [verifyWith, Snapshot.ofText, hbuild] at h
    exact Except.ok.inj h
  obtain ⟨t, ht, hquiet⟩ := Snapshot.quiet_of_verify_valid hcontrol htest hperm hverdict
  refine ⟨t, ht, ?_⟩
  by_cases hchildren : c.root.childElements = []
  · exact .inl hchildren
  · exact .inr (Document.correspond_of_quiet hplaced hquiet hchildren)

/-- Another root with another attribute is valid, and its children are those of the control root
in another order. -/
theorem correspond_of_other_root :
    ∃ c, Document.parse "<a><b/><c>x</c></a>" = .ok c ∧
      Text.isBlankText "<z k='1'><c> x </c><b/></z>" = false ∧
      verifyWith Selector.standard "<a><b/><c>x</c></a>" "<z k='1'><c> x </c><b/></z>" =
        .ok .valid ∧
      ∃ t, Document.parse "<z k='1'><c> x </c><b/></z>" = .ok t ∧ (c.root.childElements = [] ∨
        Element.Correspond Element.Similar c.root.childElements t.root.childElements) := by
  have hcontrol : Document.parse "<a><b/><c>x</c></a>" = .ok
      ⟨[], .mk ⟨"a", .bare "a", ⟨[⟨"a", 1⟩]⟩, .single 1, .empty, .empty⟩
        [.element (.mk ⟨"b", .bare "b", ⟨[⟨"a", 1⟩, ⟨"b", 1⟩]⟩, .single 1, .empty, .empty⟩ []),
          .element (.mk ⟨"c", .bare "c", ⟨[⟨"a", 1⟩, ⟨"c", 1⟩]⟩, .single 1, .empty, .empty⟩
            [.text "x"])], []⟩ := by
    decide
  have htest : Text.isBlankText "<z k='1'><c> x </c><b/></z>" = false := by decide
  have hvalid : verifyWith Selector.standard "<a><b/><c>x</c></a>" "<z k='1'><c> x </c><b/></z>" =
      .ok .valid := by
    decide +kernel
  exact ⟨_, hcontrol, htest, hvalid, correspond_of_verify_valid _ _ _ _ hcontrol htest hvalid⟩

end XmlCompare
