import XmlCompare.Proofs.Compare.Locality
import XmlCompare.Proofs.Document.Removal

/-!
# What a deletion comes to

Trees that agree position by position do not differ. If the test tree agrees with the control tree
without one element, then at every level but one the children are aligned without a gap, and at the
level of the removed element it stands alone: its name and text are those of none of its siblings,
so it takes no test child away from them. The differences are the number of children there, and the
missing child.
-/

set_option autoImplicit false

namespace XmlCompare

namespace Element

open Slot

variable {control test : Element}

/-- What is missing on the test side where `x` was removed below `p`. -/
def removalDifferences (tag : String) (p x : Element) : List Difference :=
  [.between .childCount (toString p.childElements.length)
      (toString (p.childElements.length - 1)) p.path tag p.name,
    .missingChild p.name x]

/-- At the level where an element is removed, its siblings are paired and it is missing. -/
theorem differences_of_without_child {x : Element} (hplaced : control.Placed)
    (hx : x ∈ control.childElements)
    (hunlike : ∀ s ∈ control.childElements, s ≠ x →
      ¬ (s.expanded = x.expanded ∧ s.textContent = x.textContent))
    (h : (control.without x.path).Agree test) (parent : String) :
    control.differences Selector.standard parent test = removalDifferences parent control x := by
  obtain ⟨halike, hchildren⟩ := agree_iff.mp h
  obtain ⟨cs₁, cs₂, hsplit⟩ := List.append_of_mem hx
  rw [childElements_without_child hplaced hsplit] at hchildren
  have hlength : test.childElements.length + 1 = control.childElements.length := by
    have hlength := hchildren.length_eq
    rw [List.length_append] at hlength
    rw [hsplit, List.length_append, List.length_cons]
    omega
  obtain ⟨ts₁, ts₂, htest, hbefore, hafter⟩ := forall₂_append_left hchildren
  obtain ⟨before, rfl, rfl, hslots₁⟩ := exists_slots_of_forall₂ hbefore
  obtain ⟨after, rfl, rfl, hslots₂⟩ := exists_slots_of_forall₂ hafter
  have hcontrol : control.childElements = controls (before ++ [missing x] ++ after) := by
    rw [hsplit, controls_append, controls_append, List.append_assoc]
    rfl
  have htests : test.childElements = tests (before ++ [missing x] ++ after) := by
    rw [htest, tests_append, tests_append, List.append_assoc]
    rfl
  have halone : Settled Selector.byNameAndText [missing x] := by
    constructor <;> simp [tests, controls, test?]
  have hsettled : Settled Selector.byNameAndText (before ++ [missing x] ++ after) := by
    apply halone.between
    intro slot hslot
    obtain ⟨a, b, rfl, hagree⟩ := List.forall_mem_append.mpr ⟨hslots₁, hslots₂⟩ slot hslot
    have hab := (agree_iff.mp hagree).1
    refine ⟨a, b, rfl, hab.byNameAndText, ?_, by simp⟩
    intro c hc
    obtain rfl : c = x := by simpa using hc
    -- The sibling that agrees with the test child is not the removed element.
    have ha : a ∈ controls before ++ controls after := by
      rw [← controls_append]
      exact mem_controls_of_shared hslot
    have hne : a ≠ c := by
      rintro rfl
      exact (siblings_without hplaced hsplit (self_mem_all a) ha).1 rfl
    have hmem : a ∈ control.childElements := by
      rw [hsplit, List.mem_append, List.mem_cons]
      rw [List.mem_append] at ha
      exact ha.imp_right .inr
    rw [Selector.byNameAndText_eq_false_iff]
    rintro ⟨hexpanded, htext⟩
    exact hunlike a hmem hne ⟨hab.expanded.trans hexpanded.symm, hab.text.trans htext.symm⟩
  have hextra : ∀ t, .extra t ∉ before ++ [missing x] ++ after := by
    intro t hmem
    simp only [List.mem_append, List.mem_singleton, reduceCtorEq, or_false] at hmem
    exact hmem.elim (extra_not_mem hslots₁ t) (extra_not_mem hslots₂ t)
  have hpred : control.childElements.length - 1 = test.childElements.length := by omega
  rw [differences_of_middle parent hcontrol htests (ofChildren_of_no_extra hsettled hextra _)
    hslots₁ hslots₂, ownDifferences_of_alike (alike_of_without halike),
    countDifferences_of_ne (by omega), removalDifferences, hpred]
  rfl

/-- What agrees with a tree without one element agrees with the tree but for the parent. -/
theorem agreeExcept_of_without {p x : Element} (hplaced : control.Placed) (hplacedp : p.Placed)
    (hx : x ∈ p.childElements) (h : (control.without x.path).Agree test) :
    AgreeExcept p.path (fun a b => (a.without x.path).Agree b) control test := by
  induction control using descent generalizing test with
  | step control ih =>
    by_cases hpath : control.path = p.path
    · exact .here hpath h
    · obtain ⟨halike, hchildren⟩ := agree_iff.mp h
      have hkept : ∀ s ∈ control.childElements, decide (s.path ≠ x.path) = true := fun s hs =>
        decide_eq_true fun heq => hpath (parent_path_eq hplaced hplacedp hs hx heq)
      rw [childElements_without, List.filter_eq_self.mpr hkept, List.forall₂_map_left_iff]
        at hchildren
      exact .elsewhere hpath (alike_of_without halike)
        (forall₂_imp_of_mem hchildren fun s hs b => ih s hs (placed_of_child hplaced hs))

/-- A tree differs from what agrees with it after the removal of one element by the number of
children and the missing child. -/
theorem differences_of_without {p x : Element} (hplaced : control.Placed) (hp : p ∈ control.all)
    (hx : x ∈ p.childElements)
    (hunlike : ∀ s ∈ p.childElements, s ≠ x →
      ¬ (s.expanded = x.expanded ∧ s.textContent = x.textContent))
    (h : (control.without x.path).Agree test) (parent : String) :
    ∃ tag, control.TagAround parent p tag ∧
      control.differences Selector.standard parent test = removalDifferences tag p x := by
  have hplacedp : p.Placed := fun y hy => hplaced y (mem_all_trans hp hy)
  obtain ⟨tag, q, haround, hpq, hdifferences⟩ := differences_of_agreeExcept
    (fun h => alike_of_without (agree_iff.mp h).1) hplaced hp
    (agreeExcept_of_without hplaced hplacedp hx h) parent
  exact ⟨tag, haround,
    hdifferences.trans (differences_of_without_child hplacedp hx hunlike hpq tag)⟩

end Element

end XmlCompare
