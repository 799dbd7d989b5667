import XmlCompare.Proofs.Compare.Parts

/-!
# Soundness of a comparison

A comparison that finds nothing has looked at everything: the trees are alike up to the order of
siblings, whatever the selectors pair. The proof goes down the control tree. Where nothing is
missing and nothing is extra the matching is one-to-one, and where no attribute differs in either
direction the attributes are the same.

The statement allows differences in the number of children. Such a difference never comes alone,
since each child too many or too few is a difference of its own.
-/

set_option autoImplicit false

namespace XmlCompare

namespace Element

variable {selectors : List Selector} {parent : String} {control test : Element}

/-- If every member has a partner it is related to, the partners by themselves are related to the
list. -/
theorem forall₂_reduceOption {related : Element → Element → Prop} {as : List Element}
    {partners : List (Option Element)} (hlength : partners.length = as.length)
    (h : ∀ pair ∈ as.zip partners, ∃ b, pair.2 = some b ∧ related pair.1 b) :
    List.Forall₂ related as partners.reduceOption := by
  induction as generalizing partners with
  | nil =>
    obtain rfl := List.eq_nil_of_length_eq_zero hlength
    exact .nil
  | cons a as ih =>
    cases partners with
    | nil => cases hlength
    | cons partner partners =>
      obtain ⟨b, hb, hrelated⟩ := h (a, partner) List.mem_cons_self
      obtain rfl : partner = some b := hb
      rw [List.reduceOption_cons_of_some]
      refine .cons hrelated (ih (by simpa using hlength) ?_)
      intro pair hpair
      exact h pair (List.mem_cons_of_mem _ hpair)

/-- A matching that leaves nothing over on either side is a one-to-one correspondence. -/
theorem correspond_of_complete {related : Element → Element → Prop}
    (hpairs : ∀ pair ∈ control.childElements.zip (counterparts selectors control test),
      ∃ b, pair.2 = some b ∧ related pair.1 b)
    (hextra : (matching selectors control test).unmatchedTest = []) :
    Correspond related control.childElements test.childElements := by
  refine ⟨_, forall₂_reduceOption length_counterparts hpairs, ?_⟩
  have hfull : ∀ i < test.childElements.length,
      some i ∈ (matching selectors control test).partners := by
    intro i hi
    by_contra hnot
    have hmem : i ∈ (matching selectors control test).unmatchedTest :=
      Matching.mem_unmatchedTest.mpr ⟨hi, hnot⟩
    rw [hextra] at hmem
    cases hmem
  have hperm := Matching.perm_of_complete
    (Matching.pairing_ofChildren selectors control.childElements test.childElements).2 hfull
  have heq : (counterparts selectors control test).reduceOption =
      (matching selectors control test).partners.reduceOption.filterMap
        (test.childElements[·]?) := by
    rw [counterparts, List.reduceOption, List.reduceOption, List.filterMap_map,
      List.filterMap_filterMap]
    rfl
  rw [heq]
  exact hperm

/-- Where children are extra, the differences tell. -/
theorem unmatchedTest_eq_nil
    (h : ∀ d ∈ extraDifferences control test (matching selectors control test),
      d.kind = .childCount) : (matching selectors control test).unmatchedTest = [] := by
  rw [List.eq_nil_iff_forall_not_mem]
  intro position hposition
  obtain ⟨child, hchild⟩ := exists_extraChild hposition
  cases h _ hchild

/-- Trees between which nothing differs but numbers of children are similar. -/
theorem similar_of_only_counts
    (h : ∀ d ∈ control.differences selectors parent test, d.kind = .childCount) :
    control.Similar test := by
  induction control using descent generalizing parent test with
  | step control ih =>
    have halike : control.Alike test :=
      alike_of_only_counts fun d hd => h d (mem_differences.mpr (.inl hd))
    have hextra : (matching selectors control test).unmatchedTest = [] :=
      unmatchedTest_eq_nil fun d hd => h d (mem_differences.mpr (.inr (.inr hd)))
    refine similar_iff.mpr ⟨halike, correspond_of_complete ?_ hextra⟩
    rintro ⟨child, counterpart⟩ hpair
    have hrest : ∀ d ∈ pairDifferences selectors control.name (child, counterpart),
        d.kind = .childCount :=
      fun d hd => h d (mem_differences.mpr (.inr (.inl ⟨_, hpair, hd⟩)))
    cases counterpart with
    | some counterpart => exact ⟨counterpart, rfl, ih child (List.of_mem_zip hpair).1 hrest⟩
    | none => cases hrest _ (List.mem_singleton.mpr rfl)

end Element

/-- The roots of two documents are compared where neither text is blank and both can be read. -/
theorem compareTexts_eq_same {selectors : List Selector} {control test : String}
    (hcontrol : Text.isBlankText control = false) (htest : Text.isBlankText test = false)
    (h : compareTexts selectors control test = .same) :
    ∃ c t, Document.parse control = .ok c ∧ Document.parse test = .ok t ∧
      c.differences selectors t = [] := by
  unfold compareTexts at h
  simp only [hcontrol, htest, Bool.or_self, Bool.false_eq_true, if_false] at h
  cases hc : Document.parse control with
  | error error => simp [hc] at h
  | ok c =>
    cases ht : Document.parse test with
    | error error => simp [hc, ht] at h
    | ok t =>
      refine ⟨c, t, rfl, rfl, ?_⟩
      cases hd : c.differences selectors t with
      | nil => rfl
      | cons d ds => simp [hc, ht, hd] at h

/-- Two texts between which no difference is found, and of which neither is blank, are documents
whose roots are alike up to the order of siblings, whatever the selectors. -/
theorem similar_of_compareTexts_same (selectors : List Selector) (control test : String)
    (hcontrol : Text.isBlankText control = false) (htest : Text.isBlankText test = false)
    (h : compareTexts selectors control test = .same) :
    ∃ c t, Document.parse control = .ok c ∧ Document.parse test = .ok t ∧
      c.root.Similar t.root := by
  obtain ⟨c, t, hc, ht, hnil⟩ := compareTexts_eq_same hcontrol htest h
  have hnone : c.root.differences selectors Element.documentTag t.root = [] := hnil
  have hcounts : ∀ d ∈ c.root.differences selectors Element.documentTag t.root,
      d.kind = .childCount := by
    intro d hd
    rw [hnone] at hd
    cases hd
  exact ⟨c, t, hc, ht, Element.similar_of_only_counts hcounts⟩

/-- Siblings in another order, attributes in another order and other abbreviations are all the
same to a comparison, and the roots are similar. -/
theorem similar_of_reordered :
    Text.isBlankText "<a xmlns:p='u' k='1' p:k='2'><b/><p:c>x</p:c></a>" = false ∧
    Text.isBlankText "<a xmlns:q='u' q:k='2' k='1'><q:c> x </q:c><b/></a>" = false ∧
    compareTexts Selector.standard "<a xmlns:p='u' k='1' p:k='2'><b/><p:c>x</p:c></a>"
      "<a xmlns:q='u' q:k='2' k='1'><q:c> x </q:c><b/></a>" = .same ∧
    ∃ c t, Document.parse "<a xmlns:p='u' k='1' p:k='2'><b/><p:c>x</p:c></a>" = .ok c ∧
      Document.parse "<a xmlns:q='u' q:k='2' k='1'><q:c> x </q:c><b/></a>" = .ok t ∧
      c.root.Similar t.root := by
  have hcontrol : Text.isBlankText "<a xmlns:p='u' k='1' p:k='2'><b/><p:c>x</p:c></a>" = false := by
    decide
  have htest : Text.isBlankText "<a xmlns:q='u' q:k='2' k='1'><q:c> x </q:c><b/></a>" = false := by
    decide
  have hsame : compareTexts Selector.standard "<a xmlns:p='u' k='1' p:k='2'><b/><p:c>x</p:c></a>"
      "<a xmlns:q='u' q:k='2' k='1'><q:c> x </q:c><b/></a>" = .same := by
    decide +kernel
  exact ⟨hcontrol, htest, hsame, similar_of_compareTexts_same _ _ _ hcontrol htest hsame⟩

end XmlCompare
