import XmlCompare.Proofs.Compare.Parts

/-!
# The order of differences

A comparison goes through the control tree in the order of the start tags, whatever the test
children are paired with. Only a test child that is extra is listed behind all that is inside its
parent, and it is addressed there. So nothing else is addressed in front of what is listed before
it.
-/

set_option autoImplicit false

namespace XmlCompare

/-- The difference is about a test child without counterpart. -/
def Difference.IsExtra (d : Difference) : Prop := d.kind = .childLookup ∧ d.control = none

namespace Element

variable {selectors : List Selector} {outer : String} {control test : Element} {d : Difference}

/-- A test child without partner makes a difference about an extra one. -/
theorem isExtra_of_mem_extraDifferences
    (h : d ∈ extraDifferences control test (matching selectors control test)) : d.IsExtra := by
  obtain ⟨position, -, child, -, rfl⟩ := mem_extraDifferences.mp h
  exact ⟨rfl, rfl⟩

/-- If the paths of a tree are listed in some order, differences are addressed in this order, but
for those that are about extra children. -/
theorem pairwise_differences {R : Path → Path → Prop} (hrefl : ∀ p, R p p)
    (h : control.all.Pairwise fun x y => R x.path y.path) :
    (control.differences selectors outer test).Pairwise fun d d' =>
      ¬ d'.IsExtra → R d.path d'.path := by
  induction control using descent generalizing outer test with
  | step control ih =>
    rw [all_eq, List.pairwise_cons, List.pairwise_flatMap] at h
    obtain ⟨hself, hinner, hacross⟩ := h
    rw [differences_eq, List.pairwise_append, List.pairwise_append, List.pairwise_flatMap]
    refine ⟨⟨?_, ⟨?_, ?_⟩, ?_⟩, ?_, ?_⟩
    · refine List.pairwise_of_forall_mem_list fun d hd d' hd' _ => ?_
      rw [path_of_mem_ownDifferences hd, path_of_mem_ownDifferences hd']
      exact hrefl _
    · rintro ⟨child, counterpart⟩ hmem
      have hchild := (List.of_mem_zip hmem).1
      cases counterpart with
      | some counterpart => exact ih child hchild (hinner child hchild)
      | none => exact List.pairwise_singleton _ _
    · rw [← map_fst_zip_counterparts selectors control test, List.pairwise_map] at hacross
      refine hacross.imp fun {a b} hab d hd d' hd' _ => ?_
      obtain ⟨x, hx, hpath⟩ := path_of_mem_pairDifferences hd
      obtain ⟨y, hy, hpath'⟩ := path_of_mem_pairDifferences hd'
      rw [hpath, hpath']
      exact hab x hx y hy
    · intro d hd d' hd' _
      obtain ⟨pair, hmem, hd'⟩ := List.mem_flatMap.mp hd'
      obtain ⟨y, hy, hpath⟩ := path_of_mem_pairDifferences hd'
      rw [path_of_mem_ownDifferences hd, hpath]
      exact hself y (List.mem_flatMap.mpr ⟨pair.1, (List.of_mem_zip hmem).1, hy⟩)
    · exact List.pairwise_of_forall_mem_list fun d _ d' hd' hnot =>
        absurd (isExtra_of_mem_extraDifferences hd') hnot
    · exact fun d _ d' hd' hnot => absurd (isExtra_of_mem_extraDifferences hd') hnot

end Element

end XmlCompare
