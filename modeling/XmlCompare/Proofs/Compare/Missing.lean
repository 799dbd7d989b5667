import XmlCompare.Proofs.Compare.Addresses
import XmlCompare.Proofs.Compare.Order
import XmlCompare.Proofs.Document.Numbering

/-!
# Missing children stand alone

A control child without counterpart is not compared with anything, so nothing is found inside it. It
is no neighbour of an extra child either, since only children that have partners are. So nothing but
its own difference is addressed at a missing child or inside it, wherever in the list of differences
the others stand.
-/

set_option autoImplicit false

namespace XmlCompare

namespace Difference

/-- The difference is about a control child without counterpart. -/
def IsMissing (d : Difference) : Prop := d.kind = .childLookup ∧ d.control ≠ none

/-- The difference is about a missing child, and the other one is addressed there or inside. -/
def Covers (d d' : Difference) : Prop := d.IsMissing ∧ d.path.steps <+: d'.path.steps

/-- Neither of the differences is about a missing child at or inside which the other is
addressed. -/
def Apart (d d' : Difference) : Prop := ¬ d.Covers d' ∧ ¬ d'.Covers d

/-- A difference about an extra child is none about a missing one. -/
theorem IsExtra.not_isMissing {d : Difference} (h : d.IsExtra) : ¬ d.IsMissing :=
  fun hmissing => hmissing.2 h.2

/-- Differences that are not about missing children stand apart. -/
theorem apart_of_not_isMissing {d d' : Difference} (h : ¬ d.IsMissing) (h' : ¬ d'.IsMissing) :
    d.Apart d' :=
  ⟨fun hcovers => h hcovers.1, fun hcovers => h' hcovers.1⟩

end Difference

namespace Element

variable {selectors : List Selector} {outer parent : String} {control test : Element}
  {d d' : Difference} {pair : Element × Option Element}

/-- What differs about a pair apart from its children is no missing child. -/
theorem not_isMissing_of_mem_ownDifferences (h : d ∈ ownDifferences parent control test) :
    ¬ d.IsMissing :=
  fun hmissing => kind_of_mem_ownDifferences h hmissing.1

/-- An extra child is no missing one. -/
theorem not_isMissing_of_mem_extraDifferences
    (h : d ∈ extraDifferences control test (matching selectors control test)) : ¬ d.IsMissing :=
  (isExtra_of_mem_extraDifferences h).not_isMissing

/-- What differs about a pair of children is addressed deeper than their parents. -/
theorem depth_lt_of_mem_pairDifferences (hplaced : control.Placed)
    (hchild : pair.1 ∈ control.childElements) (hd : d ∈ pairDifferences selectors parent pair) :
    control.path.depth < d.path.depth := by
  obtain ⟨x, hx, hpath⟩ := path_of_mem_pairDifferences hd
  rw [hpath]
  exact depth_lt_of_child hplaced hchild hx

/-- A missing child is found deeper than the elements that are compared. -/
theorem depth_lt_of_isMissing (hplaced : control.Placed)
    (hd : d ∈ control.differences selectors outer test) (hmissing : d.IsMissing) :
    control.path.depth < d.path.depth := by
  rcases mem_differences.mp hd with hown | ⟨pair, hpair, hd⟩ | hextra
  · exact absurd hmissing (not_isMissing_of_mem_ownDifferences hown)
  · exact depth_lt_of_mem_pairDifferences hplaced (List.of_mem_zip hpair).1 hd
  · exact absurd hmissing (not_isMissing_of_mem_extraDifferences hextra)

/-- A missing child among what differs about a pair is the control child itself, if that has no
counterpart, or stands deeper. -/
theorem cases_of_isMissing (hplaced : pair.1.Placed)
    (hd : d ∈ pairDifferences selectors parent pair) (hmissing : d.IsMissing) :
    pair.2 = none ∧ d.path = pair.1.path ∨ pair.1.path.depth < d.path.depth := by
  obtain ⟨child, counterpart⟩ := pair
  cases counterpart with
  | none =>
    obtain rfl := List.mem_singleton.mp hd
    exact .inl ⟨rfl, rfl⟩
  | some counterpart => exact .inr (depth_lt_of_isMissing hplaced hd hmissing)

/-- An extra child is addressed at no missing child and inside none. -/
theorem not_covers_extra (hplaced : control.Placed)
    (hpair : pair ∈ control.childElements.zip (counterparts selectors control test))
    (hd : d ∈ pairDifferences selectors control.name pair)
    (hd' : d' ∈ extraDifferences control test (matching selectors control test)) :
    ¬ d.Covers d' := by
  rintro ⟨hmissing, hinside⟩
  have hchild := (List.of_mem_zip hpair).1
  have hdeep := depth_lt_of_mem_pairDifferences hplaced hchild hd
  have hdepth := depth_of_child hplaced hchild
  have hle : d.path.depth ≤ d'.path.depth := hinside.length_le
  obtain ⟨position, hposition, extra, -, rfl⟩ := mem_extraDifferences.mp hd'
  obtain ⟨x, hanchor, hpath⟩ := exists_anchor (Matching.partner?_ne_of_unmatched hposition)
  have hpath' : (Difference.extraChild control.name
    (anchorPath control (matching selectors control test) position) extra).path = x.path := hpath
  rw [hpath'] at hinside hle
  cases hanchor with
  | parent => omega
  | @sibling c _ hbeside hsibling =>
    have hdepth' := depth_of_child hplaced (List.mem_of_getElem? hsibling)
    rcases cases_of_isMissing (placed_of_child hplaced hchild) hd hmissing with
      ⟨hnone, hself⟩ | hdeeper
    · -- The missing child would be the neighbour, which has a partner.
      rw [hself] at hinside
      have hsame : pair.1.path = x.path :=
        congrArg Path.mk (hinside.eq_of_length (hdepth.trans hdepth'.symm))
      obtain ⟨i, hi, ⟨-, hpartner⟩ | ⟨j, partner, hsome, -⟩⟩ := counterpart_cases hpair
      · obtain ⟨t, hpartner'⟩ := hbeside.exists_partner
        obtain rfl := eq_of_getElem?_path hplaced hi hsibling hsame
        cases hpartner.symm.trans hpartner'
      · cases hnone.symm.trans hsome
    · omega

/-- Nothing but its own difference is addressed at a missing child or inside it. -/
theorem pairwise_apart (hplaced : control.Placed) :
    (control.differences selectors outer test).Pairwise Difference.Apart := by
  induction control using descent generalizing outer test with
  | step control ih =>
    rw [differences_eq, List.pairwise_append, List.pairwise_append, List.pairwise_flatMap]
    refine ⟨⟨?_, ⟨?_, ?_⟩, ?_⟩, ?_, ?_⟩
    · exact List.pairwise_of_forall_mem_list fun d hd d' hd' =>
        Difference.apart_of_not_isMissing (not_isMissing_of_mem_ownDifferences hd)
          (not_isMissing_of_mem_ownDifferences hd')
    · rintro ⟨child, counterpart⟩ hpair
      have hchild := (List.of_mem_zip hpair).1
      cases counterpart with
      | some counterpart => exact ih child hchild (placed_of_child hplaced hchild)
      | none => exact List.pairwise_singleton _ _
    · have hpaths := pairwise_path_ne (hplaced control (self_mem_all control))
      rw [← map_fst_zip_counterparts selectors control test, List.pairwise_map] at hpaths
      refine hpaths.imp_of_mem fun {a b} ha hb hne d hd d' hd' => ?_
      obtain ⟨x, hx, hpath⟩ := path_of_mem_pairDifferences hd
      obtain ⟨y, hy, hpath'⟩ := path_of_mem_pairDifferences hd'
      have ha := (List.of_mem_zip ha).1
      have hb := (List.of_mem_zip hb).1
      rw [Difference.Apart, Difference.Covers, Difference.Covers, hpath, hpath']
      exact ⟨fun h => not_isPrefix_of_children hplaced ha hb hne hx hy h.2,
        fun h => not_isPrefix_of_children hplaced hb ha hne.symm hy hx h.2⟩
    · intro d hd d' hd'
      obtain ⟨pair, hpair, hd'⟩ := List.mem_flatMap.mp hd'
      refine ⟨fun h => not_isMissing_of_mem_ownDifferences hd h.1, fun h => ?_⟩
      have hlt := depth_lt_of_mem_pairDifferences hplaced (List.of_mem_zip hpair).1 hd'
      have hle := h.2.length_le
      rw [path_of_mem_ownDifferences hd] at hle
      exact Nat.not_lt_of_le hle hlt
    · exact List.pairwise_of_forall_mem_list fun d hd d' hd' =>
        Difference.apart_of_not_isMissing (not_isMissing_of_mem_extraDifferences hd)
          (not_isMissing_of_mem_extraDifferences hd')
    · intro d hd d' hd'
      refine ⟨fun h => ?_, fun h => not_isMissing_of_mem_extraDifferences hd' h.1⟩
      rcases List.mem_append.mp hd with hown | hpairs
      · exact not_isMissing_of_mem_ownDifferences hown h.1
      · obtain ⟨pair, hpair, hd⟩ := List.mem_flatMap.mp hpairs
        exact not_covers_extra hplaced hpair hd hd' h

end Element

end XmlCompare
