import XmlCompare.Proofs.Compare.Missing
import XmlCompare.Proofs.Text.Words

/-!
# Counting missing and extra children

A matching takes as many children from one side as from the other. So the children that are left
without a partner differ in number by as much as all of them do. Each of them leads to a difference
of its own, which makes the number of children known from the differences about children.
-/

set_option autoImplicit false

namespace XmlCompare

namespace Matching

/-- The partners of control children and the test children left over are all test children. -/
theorem perm_partners_unmatched (selectors : List Selector) (control test : List Element) :
    ((ofChildren selectors control test).partners.reduceOption ++
      (ofChildren selectors control test).unmatchedTest).Perm (List.range test.length) := by
  have hpairing := (pairing_ofChildren selectors control test).2
  have hfree : (ofChildren selectors control test).unmatchedTest.Nodup := by
    rw [ofChildren, freeChildren_positions]
    exact List.nodup_range.filter _
  have hdisjoint : ∀ i ∈ (ofChildren selectors control test).partners.reduceOption,
      ∀ j ∈ (ofChildren selectors control test).unmatchedTest, i ≠ j := by
    rintro i hi _ hj rfl
    exact (mem_unmatchedTest.mp hj).2 (List.reduceOption_mem_iff.mp hi)
  refine (List.perm_ext_iff_of_nodup
    (List.nodup_append.mpr ⟨hpairing.nodup, hfree, hdisjoint⟩) List.nodup_range).mpr fun i => ?_
  rw [List.mem_append, List.mem_range, List.reduceOption_mem_iff, mem_unmatchedTest]
  constructor
  · rintro (hpartner | ⟨hlt, -⟩)
    · exact hpairing.lt_count i (List.reduceOption_mem_iff.mpr hpartner)
    · exact hlt
  · intro hlt
    by_cases hpartner : some i ∈ (ofChildren selectors control test).partners
    · exact .inl hpartner
    · exact .inr ⟨hlt, hpartner⟩

/-- The control children without partner outnumber the test children left over by as much as the
control children do the test children. -/
theorem countP_isNone_add_length (selectors : List Selector) (control test : List Element) :
    (ofChildren selectors control test).partners.countP Option.isNone + test.length =
      (ofChildren selectors control test).unmatchedTest.length + control.length := by
  have hlength := (pairing_ofChildren selectors control test).1
  have hsplit := List.length_eq_reduceOption_length_add_filter_none
    (l := (ofChildren selectors control test).partners)
  have hperm := (perm_partners_unmatched selectors control test).length_eq
  rw [List.length_append, List.length_range] at hperm
  rw [List.countP_eq_length_filter]
  omega

end Matching

namespace Difference

instance : DecidablePred IsMissing := fun d =>
  inferInstanceAs (Decidable (d.kind = .childLookup ∧ d.control ≠ none))

instance : DecidablePred IsExtra := fun d =>
  inferInstanceAs (Decidable (d.kind = .childLookup ∧ d.control = none))

/-- The difference is about a missing child of the element at a path. -/
def MissingIn (p : Path) (d : Difference) : Prop := d.IsMissing ∧ d.path.parent? = some p

/-- The difference is about an extra child below an element of some name at a path: it is addressed
at this element or at a child of it. -/
def ExtraIn (p : Path) (tag : String) (d : Difference) : Prop :=
  d.IsExtra ∧ (d.path = p ∨ d.path.parent? = some p) ∧ d.parentTag = tag

instance (p : Path) : DecidablePred (MissingIn p) := fun d =>
  inferInstanceAs (Decidable (d.IsMissing ∧ d.path.parent? = some p))

instance (p : Path) (tag : String) : DecidablePred (ExtraIn p tag) := fun d =>
  inferInstanceAs (Decidable
    (d.IsExtra ∧ (d.path = p ∨ d.path.parent? = some p) ∧ d.parentTag = tag))

end Difference

namespace Element

variable {selectors : List Selector} {outer tag : String} {control test a b : Element}

/-- If every member that counts makes something that counts, no fewer things count than members. -/
theorem countP_le_countP_flatMap {α β : Type} {p : α → Bool} {q : β → Bool} {f : α → List β}
    {l : List α} (h : ∀ x ∈ l, p x = true → ∃ y ∈ f x, q y = true) :
    l.countP p ≤ (l.flatMap f).countP q := by
  induction l with
  | nil => exact Nat.le_refl 0
  | cons x rest ih =>
    obtain ⟨hx, hrest⟩ := List.forall_mem_cons.mp h
    rw [List.flatMap_cons, List.countP_append, List.countP_cons, Nat.add_comm]
    refine Nat.add_le_add ?_ (ih hrest)
    split
    · rename_i hp
      exact List.countP_pos_iff.mpr (hx hp)
    · exact Nat.zero_le _

/-- The differences of a compared pair are among those of the elements that are compared. -/
theorem Compared.sublist (h : Compared selectors outer control test tag a b) :
    (a.differences selectors tag b).Sublist (control.differences selectors outer test) := by
  induction h with
  | self => exact .refl _
  | @child tag a b child partner i j _ hpartner hi hj ih =>
    refine .trans ?_ ih
    have hcounterpart : (counterparts selectors a b)[i]? = some (some partner) := by
      rw [counterparts, List.getElem?_map,
        Matching.mem_pairs.mp (Matching.partner?_eq_some_iff.mp hpartner), Option.map_some,
        Option.bind_some, hj]
    have hpair : (child, some partner) ∈ a.childElements.zip (counterparts selectors a b) :=
      List.mem_of_getElem? (List.getElem?_zip_eq_some.mpr ⟨hi, hcounterpart⟩)
    have hpart : (child.differences selectors a.name partner).Sublist
        ((a.childElements.zip (counterparts selectors a b)).flatMap
          (pairDifferences selectors a.name)) := by
      rw [List.flatMap_def]
      exact List.sublist_flatten_of_mem (List.mem_map.mpr ⟨_, hpair, rfl⟩)
    rw [show a.differences selectors tag b = _ from differences_eq]
    exact hpart.trans ((List.sublist_append_right _ _).trans (List.sublist_append_left _ _))

/-- Every control child without partner is found missing. -/
theorem countP_isNone_le (hplaced : a.Placed) (selectors : List Selector) (tag : String)
    (b : Element) : (matching selectors a b).partners.countP Option.isNone ≤
      (a.differences selectors tag b).countP (·.MissingIn a.path) := by
  have hmissing : ∀ pair ∈ a.childElements.zip (counterparts selectors a b),
      pair.2.isNone = true →
        ∃ d ∈ pairDifferences selectors a.name pair, decide (d.MissingIn a.path) = true := by
    rintro ⟨child, counterpart⟩ hpair hnone
    obtain rfl := Option.isNone_iff_eq_none.mp hnone
    refine ⟨.missingChild a.name child, List.mem_singleton.mpr rfl, decide_eq_true ⟨?_, ?_⟩⟩
    · exact ⟨rfl, Option.some_ne_none _⟩
    · exact parent?_of_child hplaced (List.of_mem_zip hpair).1
  calc (matching selectors a b).partners.countP Option.isNone
      ≤ (counterparts selectors a b).countP Option.isNone := by
        rw [counterparts, List.countP_map]
        refine List.countP_mono_left fun partner _ hnone => ?_
        rw [Option.isNone_iff_eq_none.mp hnone]
        rfl
    _ = ((a.childElements.zip (counterparts selectors a b)).map Prod.snd).countP
        Option.isNone := by
        rw [List.map_snd_zip (Nat.le_of_eq length_counterparts)]
    _ = (a.childElements.zip (counterparts selectors a b)).countP (·.2.isNone) := List.countP_map
    _ ≤ ((a.childElements.zip (counterparts selectors a b)).flatMap
          (pairDifferences selectors a.name)).countP (·.MissingIn a.path) :=
        countP_le_countP_flatMap hmissing
    _ ≤ (a.differences selectors tag b).countP (·.MissingIn a.path) := by
        rw [show a.differences selectors tag b = _ from differences_eq, List.countP_append,
          List.countP_append]
        omega

/-- Every test child that is nobody's partner is found extra. -/
theorem length_unmatchedTest_le (hplaced : a.Placed) (selectors : List Selector) (tag : String)
    (b : Element) : (matching selectors a b).unmatchedTest.length ≤
      (a.differences selectors tag b).countP (·.ExtraIn a.path a.name) := by
  have hextra : ∀ d ∈ extraDifferences a b (matching selectors a b),
      decide (d.ExtraIn a.path a.name) = true := by
    intro d hd
    obtain ⟨position, -, child, -, rfl⟩ := mem_extraDifferences.mp hd
    refine decide_eq_true ⟨isExtra_of_mem_extraDifferences hd, ?_, rfl⟩
    rcases anchorPath_eq a (matching selectors a b) position with ⟨sibling, hsibling, hpath⟩ | hpath
    · refine .inr ?_
      show (anchorPath a (matching selectors a b) position).parent? = some a.path
      rw [hpath]
      exact parent?_of_child hplaced hsibling
    · exact .inl hpath
  have hall : ∀ position ∈ (matching selectors a b).unmatchedTest,
      (b.childElements[position]?.map (Difference.extraChild a.name
        (anchorPath a (matching selectors a b) position))).isSome = true := by
    intro position hposition
    rw [Option.isSome_map, List.getElem?_eq_getElem (Matching.mem_unmatchedTest.mp hposition).1]
    rfl
  calc (matching selectors a b).unmatchedTest.length
      = (extraDifferences a b (matching selectors a b)).length := by
        rw [extraDifferences, List.length_filterMap_eq_countP]
        exact (List.countP_eq_length.mpr hall).symm
    _ = (extraDifferences a b (matching selectors a b)).countP (·.ExtraIn a.path a.name) :=
        (List.countP_eq_length.mpr hextra).symm
    _ ≤ (a.differences selectors tag b).countP (·.ExtraIn a.path a.name) := by
        rw [show a.differences selectors tag b = _ from differences_eq, List.countP_append]
        omega

/-- If there are more children on one side, at least as many as there are more are found missing or
extra. -/
theorem Compared.sub_le_countP (hplaced : control.Placed)
    (h : Compared selectors outer control test tag a b) :
    a.childElements.length - b.childElements.length ≤
        (control.differences selectors outer test).countP (·.MissingIn a.path) ∧
      b.childElements.length - a.childElements.length ≤
        (control.differences selectors outer test).countP (·.ExtraIn a.path a.name) := by
  have ha : a.Placed := fun x hx => hplaced x (mem_all_trans h.mem_all.1 hx)
  have hbalance : (matching selectors a b).partners.countP Option.isNone + b.childElements.length =
      (matching selectors a b).unmatchedTest.length + a.childElements.length :=
    Matching.countP_isNone_add_length selectors _ _
  constructor
  · have hmissing := (countP_isNone_le ha selectors tag b).trans h.sublist.countP_le
    omega
  · have hextra := (length_unmatchedTest_le ha selectors tag b).trans h.sublist.countP_le
    omega

/-- A difference in the number of children of a pair shows the two numbers. -/
theorem values_of_mem_countDifferences {d : Difference} (h : d ∈ countDifferences tag a b) :
    d.control = some (toString a.childElements.length) ∧
      d.test = some (toString b.childElements.length) := by
  obtain ⟨-, rfl⟩ := mem_countDifferences.mp h
  exact ⟨congrArg some (Text.trimmed_toString _), congrArg some (Text.trimmed_toString _)⟩

end Element

end XmlCompare
