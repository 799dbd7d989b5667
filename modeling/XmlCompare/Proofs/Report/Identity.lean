import XmlCompare.Proofs.Compare.Locality
import XmlCompare.Proofs.Report.Projection

/-!
# A text and itself

A text does not differ from itself, whatever the selectors are, as long as the first of them accepts
every element as the counterpart of itself: then the first pass pairs every child with itself, even
among siblings that are the same.
-/

set_option autoImplicit false

namespace XmlCompare

variable {selectors : List Selector}

/-- A tree does not differ from itself. -/
theorem Element.differences_self {accepts : Selector} (hself : ∀ e, accepts e e = true)
    (e : Element) (parent : String) : e.differences (accepts :: selectors) parent e = [] := by
  have halike : ∀ a b : Element, a = b → a.Alike b := by
    rintro a _ rfl
    exact Alike.refl a
  have haccepts : ∀ a b, a = b → accepts a b = true := by
    rintro a _ rfl
    exact hself a
  exact differences_of_alike halike haccepts selectors (inStep_self fun _ _ => rfl) parent

/-- Compared with itself a text is the same, or it is neither blank nor a document. In a verdict on
itself nothing is found. -/
theorem compareTexts_self (accepts : Selector) (selectors : List Selector) (text : String)
    (hself : ∀ e, accepts e e = true) :
    (compareTexts (accepts :: selectors) text text =
      if Text.isBlankText text then .same
      else
        match Document.parse text with
        | .ok _ => .same
        | .error error => .malformed ⟨.control, error⟩) ∧
    ∀ findings, verify text text ≠ .invalid findings := by
  cases hblank : Text.isBlankText text with
  | true =>
    constructor
    · simp [compareTexts, hblank]
    · simp [verify, hblank]
  | false =>
    cases hparse : Document.parse text with
    | error error =>
      have hbuild := Document.build_of_parse_error hparse
      constructor
      · simp [compareTexts, hblank, hparse]
      · simp [verify, hblank, Snapshot.ofText, hbuild, Except.map]
    | ok d =>
      have hnone : ∀ accepts : Selector, (∀ e, accepts e e = true) →
          ∀ selectors, d.differences (accepts :: selectors) d = [] := fun _ hself _ =>
        Element.differences_self hself d.root Element.documentTag
      constructor
      · rw [compareTexts_of_parse hparse hparse, hnone accepts hself, if_pos rfl]
        rfl
      · have hstandard := hnone Selector.byNameAndText
          (fun e => Selector.byNameAndText_iff.mpr ⟨rfl, rfl⟩) [Selector.byName]
        rw [(valid_of_no_differences hparse hparse hstandard).2]
        exact fun _ h => Verdict.noConfusion h

/-- Accepts elements that are written with the same name. -/
def byWrittenName : Selector := fun control test => control.name = test.name

/-- Two items that differ in nothing are paired in their order, and so is the one between them. -/
theorem compareTexts_self_of_items : (∀ e, byWrittenName e e = true) ∧
    Text.isBlankText "<r><i/><i a='1'>b</i><i/></r>" = false ∧
    compareTexts [byWrittenName] "<r><i/><i a='1'>b</i><i/></r>" "<r><i/><i a='1'>b</i><i/></r>" =
      .same ∧
    ∀ findings, verify "<r><i/><i a='1'>b</i><i/></r>" "<r><i/><i a='1'>b</i><i/></r>" ≠
      .invalid findings := by
  have hself : ∀ e, byWrittenName e e = true := fun e => decide_eq_true rfl
  have hblank : Text.isBlankText "<r><i/><i a='1'>b</i><i/></r>" = false := by decide
  have hparse : (Document.parse "<r><i/><i a='1'>b</i><i/></r>").isOk = true := by decide
  obtain ⟨hsame, hverdict⟩ :=
    compareTexts_self byWrittenName [] "<r><i/><i a='1'>b</i><i/></r>" hself
  refine ⟨hself, hblank, ?_, hverdict⟩
  rw [hsame, hblank]
  cases hd : Document.parse "<r><i/><i a='1'>b</i><i/></r>" with
  | error error =>
    rw [hd] at hparse
    cases hparse
  | ok d => rfl

end XmlCompare
