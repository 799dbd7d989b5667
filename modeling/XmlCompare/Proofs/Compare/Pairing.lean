import Mathlib.Data.List.Nodup
import Mathlib.Data.List.Perm.Basic
import Mathlib.Data.List.Perm.Subperm
import Mathlib.Data.List.ReduceOption
import XmlCompare.Compare.Matching

/-!
# Pairings

Whatever the selectors accept, a matching pairs every control child at most once and never gives
two control children the same partner: a pass hands out free positions only, and what it has handed
out is no longer free. So if no control child is left and no test child either, the test children
are the partners in another order.
-/

set_option autoImplicit false

namespace XmlCompare.Matching

/-- The partners of some control children among `count` test children: no position twice. -/
structure Pairing (partners : List (Option Nat)) (count : Nat) : Prop where
  nodup : partners.reduceOption.Nodup
  lt_count : ∀ i ∈ partners.reduceOption, i < count

/-- The order of a search leaves out no candidate and adds none. -/
theorem mem_searchOrder {cursor : Nat} {free : List (Element × Nat)} {candidate : Element × Nat} :
    candidate ∈ searchOrder cursor free ↔ candidate ∈ free := by
  simp only [searchOrder, List.mem_append, List.mem_filter, decide_eq_true_eq]
  constructor
  · rintro (⟨h, -⟩ | ⟨h, -⟩) <;> exact h
  · intro h
    rcases Nat.lt_or_ge candidate.2 cursor with hlt | hge
    · exact .inr ⟨h, hlt⟩
    · exact .inl ⟨h, hge⟩

/-- What is chosen is a free child that the selector accepts. -/
theorem mem_of_choose {accepts : Selector} {cursor : Nat} {free : List (Element × Nat)}
    {control : Element} {i : Nat} (h : choose accepts cursor free control = some i) :
    ∃ test, (test, i) ∈ free ∧ accepts control test = true := by
  obtain ⟨⟨test, j⟩, hfind, rfl⟩ := Option.map_eq_some_iff.mp h
  have haccepts := List.find?_some hfind
  exact ⟨test, mem_searchOrder.mp (List.mem_of_find?_eq_some hfind), haccepts⟩

/-- Nothing is chosen exactly when nothing that is free is accepted. -/
theorem choose_eq_none_iff {accepts : Selector} {cursor : Nat} {free : List (Element × Nat)}
    {control : Element} : choose accepts cursor free control = none ↔
      ∀ candidate ∈ free, accepts control candidate.1 = false := by
  rw [choose, Option.map_eq_none_iff, List.find?_eq_none]
  simp only [mem_searchOrder, Bool.not_eq_true]

/-- A pass decides about every control child. -/
theorem length_pass (accepts : Selector) (cursor : Nat) (free : List (Element × Nat))
    (children : List (Element × Option Nat)) :
    (pass accepts cursor free children).length = children.length := by
  fun_induction pass accepts cursor free children with
  | case1 => rfl
  | case2 cursor free control i rest ih => rw [List.length_cons, ih, List.length_cons]
  | case3 cursor free control rest i _ ih => rw [List.length_cons, ih, List.length_cons]
  | case4 cursor free control rest _ ih => rw [List.length_cons, ih, List.length_cons]

/-- A pass keeps the partners there are and takes new ones from the free positions, none twice. -/
theorem pass_partners (accepts : Selector) (cursor : Nat) (free : List (Element × Nat))
    (children : List (Element × Option Nat))
    (hnodup : (children.map Prod.snd).reduceOption.Nodup)
    (hfree : ∀ i ∈ (children.map Prod.snd).reduceOption, i ∉ free.map Prod.snd) :
    (pass accepts cursor free children).reduceOption.Nodup ∧
      ∀ i ∈ (pass accepts cursor free children).reduceOption,
        i ∈ (children.map Prod.snd).reduceOption ∨ i ∈ free.map Prod.snd := by
  fun_induction pass accepts cursor free children with
  | case1 => exact ⟨.nil, fun i hi => by cases hi⟩
  | case2 cursor free control i rest ih =>
    rw [List.map_cons, List.reduceOption_cons_of_some] at hnodup hfree ⊢
    obtain ⟨hi, hrest⟩ := List.nodup_cons.mp hnodup
    obtain ⟨hpass, hfrom⟩ := ih hrest fun j hj => hfree j (List.mem_cons_of_mem _ hj)
    rw [List.reduceOption_cons_of_some]
    constructor
    · refine List.nodup_cons.mpr ⟨?_, hpass⟩
      intro hmem
      rcases hfrom i hmem with hold | hnew
      · exact hi hold
      · exact hfree i List.mem_cons_self hnew
    · intro j hj
      rcases List.mem_cons.mp hj with rfl | hj
      · exact .inl List.mem_cons_self
      · exact (hfrom j hj).imp_left (List.mem_cons_of_mem _)
  | case3 cursor free control rest i hchoose ih =>
    rw [List.map_cons, List.reduceOption_cons_of_none] at hnodup hfree ⊢
    obtain ⟨test, hmem, -⟩ := mem_of_choose hchoose
    have hi : i ∈ free.map Prod.snd := List.mem_map.mpr ⟨_, hmem, rfl⟩
    have hleft : ∀ j, j ∈ (free.filter (·.2 ≠ i)).map Prod.snd → j ∈ free.map Prod.snd ∧ j ≠ i := by
      intro j hj
      obtain ⟨candidate, hcandidate, rfl⟩ := List.mem_map.mp hj
      obtain ⟨hfree', hne⟩ := List.mem_filter.mp hcandidate
      exact ⟨List.mem_map_of_mem hfree', by simpa using hne⟩
    obtain ⟨hpass, hfrom⟩ := ih hnodup fun j hj hmem => hfree j hj (hleft j hmem).1
    rw [List.reduceOption_cons_of_some]
    constructor
    · refine List.nodup_cons.mpr ⟨?_, hpass⟩
      intro hmem
      rcases hfrom i hmem with hold | hnew
      · exact hfree i hold hi
      · exact (hleft i hnew).2 rfl
    · intro j hj
      rcases List.mem_cons.mp hj with rfl | hj
      · exact .inr hi
      · exact (hfrom j hj).imp_right fun h => (hleft j h).1
  | case4 cursor free control rest hchoose ih =>
    rw [List.map_cons, List.reduceOption_cons_of_none] at hnodup hfree ⊢
    rw [List.reduceOption_cons_of_none]
    exact ih hnodup hfree

/-- A pass goes over children that have partners. -/
theorem pass_append_of_paired (accepts : Selector) (cursor : Nat) (free : List (Element × Nat))
    {paired : List (Element × Option Nat)} (h : ∀ child ∈ paired, child.2 ≠ none)
    (rest : List (Element × Option Nat)) : pass accepts cursor free (paired ++ rest) =
      paired.map Prod.snd ++ pass accepts cursor free rest := by
  induction paired with
  | nil => rfl
  | cons child paired ih =>
    obtain ⟨control, partner⟩ := child
    obtain ⟨hchild, hpaired⟩ := List.forall_mem_cons.mp h
    cases partner with
    | none => exact absurd rfl hchild
    | some i => rw [List.cons_append, pass, ih hpaired, List.map_cons, List.cons_append]

/-- In the first pass nobody has a partner, and all test children are free. -/
theorem refine_none (control test : List Element) (accepts : Selector) :
    refine control test (control.map fun _ => none) accepts =
      pass accepts 0 test.zipIdx (control.map fun c => (c, none)) := by
  have hfree : freeChildren test (control.map fun _ => none) = test.zipIdx := by
    rw [freeChildren, List.filter_eq_self]
    intro candidate _
    simp
  have hzip : control.zip (control.map fun _ => (none : Option Nat)) =
      control.map fun c => (c, none) := by
    have hself := List.zip_map' (f := id) (g := fun _ : Element => (none : Option Nat))
      (l := control)
    rwa [List.map_id] at hself
  rw [refine, hfree, hzip]

/-- Where every control child has a partner, further selectors change nothing. -/
theorem foldl_refine_of_paired {control test : List Element} {partners : List (Option Nat)}
    (hlength : partners.length = control.length) (h : ∀ partner ∈ partners, partner ≠ none)
    (selectors : List Selector) : selectors.foldl (refine control test) partners = partners := by
  induction selectors with
  | nil => rfl
  | cons accepts selectors ih =>
    have hkept : refine control test partners accepts = partners := by
      have hpaired : ∀ child ∈ control.zip partners, child.2 ≠ none :=
        fun child hchild => h _ (List.of_mem_zip hchild).2
      have hpass := pass_append_of_paired accepts 0 (freeChildren test partners) hpaired []
      rw [List.append_nil, List.map_snd_zip (Nat.le_of_eq hlength)] at hpass
      exact hpass.trans (List.append_nil _)
    rw [List.foldl_cons, hkept, ih]

/-- The free positions are those that no partner has. -/
theorem freeChildren_positions (test : List Element) (partners : List (Option Nat)) :
    (freeChildren test partners).map Prod.snd =
      (List.range test.length).filter fun i => !partners.contains (some i) := by
  rw [freeChildren, List.range_eq_range', ← List.zipIdx_map_snd 0 test, List.filter_map]
  rfl

/-- The free positions are those that are no partner yet. -/
theorem mem_freeChildren_positions {test : List Element} {partners : List (Option Nat)} {i : Nat} :
    i ∈ (freeChildren test partners).map Prod.snd ↔ i < test.length ∧ some i ∉ partners := by
  rw [freeChildren_positions]
  simp

/-- A further selector keeps a pairing a pairing. -/
theorem pairing_refine {control test : List Element} {partners : List (Option Nat)}
    (accepts : Selector) (hlength : partners.length = control.length)
    (h : Pairing partners test.length) :
    (refine control test partners accepts).length = control.length ∧
      Pairing (refine control test partners accepts) test.length := by
  have hsnd : (control.zip partners).map Prod.snd = partners :=
    List.map_snd_zip (Nat.le_of_eq hlength)
  have hpass := pass_partners accepts 0 (freeChildren test partners) (control.zip partners)
  rw [hsnd] at hpass
  obtain ⟨hnodup, hfrom⟩ := hpass h.nodup fun i hi hfree =>
    (mem_freeChildren_positions.mp hfree).2 (List.reduceOption_mem_iff.mp hi)
  refine ⟨?_, hnodup, ?_⟩
  · rw [refine, length_pass, List.length_zip, hlength, Nat.min_self]
  · intro i hi
    rcases hfrom i hi with hold | hnew
    · exact h.lt_count i hold
    · exact (mem_freeChildren_positions.mp hnew).1

/-- All passes together keep the number of partners, and no test child becomes the partner of two
control children. -/
theorem pairing_foldl {control test : List Element} (selectors : List Selector)
    {partners : List (Option Nat)} (hlength : partners.length = control.length)
    (h : Pairing partners test.length) :
    (selectors.foldl (refine control test) partners).length = control.length ∧
      Pairing (selectors.foldl (refine control test) partners) test.length := by
  induction selectors generalizing partners with
  | nil => exact ⟨hlength, h⟩
  | cons accepts selectors ih =>
    obtain ⟨hlength', h'⟩ := pairing_refine accepts hlength h
    exact ih hlength' h'

/-- Every matching decides about all control children and is a pairing. -/
theorem pairing_ofChildren (selectors : List Selector) (control test : List Element) :
    (ofChildren selectors control test).partners.length = control.length ∧
      Pairing (ofChildren selectors control test).partners test.length := by
  have hnone : (control.map fun _ => (none : Option Nat)).reduceOption = [] := by
    rw [List.map_const', List.reduceOption_replicate_none]
  apply pairing_foldl selectors
  · rw [List.length_map]
  · constructor
    · rw [hnone]
      exact .nil
    · intro i hi
      rw [hnone] at hi
      cases hi

/-- The unmatched test children are those that are nobody's partner. -/
theorem mem_unmatchedTest {selectors : List Selector} {control test : List Element} {i : Nat} :
    i ∈ (ofChildren selectors control test).unmatchedTest ↔
      i < test.length ∧ some i ∉ (ofChildren selectors control test).partners :=
  mem_freeChildren_positions

/-- Where there are as many control children as test children and all of them have partners, every
test child is a partner. -/
theorem mem_of_paired {partners : List (Option Nat)} {count : Nat} (h : Pairing partners count)
    (hsome : ∀ partner ∈ partners, partner ≠ none) (hlength : partners.length = count) :
    ∀ i < count, some i ∈ partners := by
  have hreduced : partners.reduceOption.length = count := by
    rw [List.reduceOption_length_eq_iff.mpr, hlength]
    intro partner hmem
    exact Option.isSome_iff_ne_none.mpr (hsome partner hmem)
  have hsub : partners.reduceOption.Subperm (List.range count) := by
    apply List.subperm_of_subset h.nodup
    intro i hi
    exact List.mem_range.mpr (h.lt_count i hi)
  have hperm := hsub.perm_of_length_le (by simp [hreduced])
  intro i hi
  exact List.reduceOption_mem_iff.mp (hperm.mem_iff.mpr (List.mem_range.mpr hi))

/-- A list is what stands at its positions, in order. -/
theorem filterMap_getElem?_range {α : Type} (l : List α) :
    (List.range l.length).filterMap (l[·]?) = l := by
  have hmap : (List.range l.length).map (l[·]?) = l.map some := by
    apply List.ext_getElem
    · simp
    · intro i h₁ h₂
      simp
  have hsome := congrArg (List.filterMap id) hmap
  rw [List.filterMap_map, List.filterMap_map] at hsome
  exact hsome.trans List.filterMap_some

/-- Where no test child is left over, the partners are the test children in another order. -/
theorem perm_of_complete {test : List Element} {partners : List (Option Nat)}
    (h : Pairing partners test.length) (hfull : ∀ i < test.length, some i ∈ partners) :
    (partners.reduceOption.filterMap (test[·]?)).Perm test := by
  have hrange : partners.reduceOption.Perm (List.range test.length) := by
    refine (List.perm_ext_iff_of_nodup h.nodup List.nodup_range).mpr ?_
    intro i
    rw [List.mem_range]
    exact ⟨h.lt_count i, fun hi => List.reduceOption_mem_iff.mpr (hfull i hi)⟩
  have hperm := hrange.filterMap (test[·]?)
  rw [filterMap_getElem?_range] at hperm
  exact hperm

/-! ## The neighbours of what is left over -/

/-- The pairs of a matching are its partners, each with its position. -/
theorem mem_pairs {m : Matching} {c t : Nat} :
    (c, t) ∈ m.pairs ↔ m.partners[c]? = some (some t) := by
  simp only [pairs, List.mem_filterMap, Option.map_eq_some_iff, Prod.exists, Prod.mk.injEq]
  constructor
  · rintro ⟨partner, c', hmem, t', rfl, rfl, rfl⟩
    exact List.mem_zipIdx_iff_getElem?.mp hmem
  · intro h
    exact ⟨some t, c, List.mem_zipIdx_iff_getElem?.mpr h, t, rfl, rfl, rfl⟩

/-- What a position has for a partner is what it is paired with. -/
theorem partner?_eq_some_iff {m : Matching} {c t : Nat} :
    m.partner? c = some t ↔ (c, t) ∈ m.pairs := by
  rw [partner?, Option.join_eq_some_iff, mem_pairs]

/-- A position is a partner if it is the partner of something. -/
theorem mem_partners_iff {m : Matching} {t : Nat} :
    some t ∈ m.partners ↔ ∃ c, m.partner? c = some t := by
  rw [List.mem_iff_getElem?]
  simp only [partner?_eq_some_iff, mem_pairs]

/-- A test child that is left over is nobody's partner. -/
theorem partner?_ne_of_unmatched {selectors : List Selector} {control test : List Element}
    {t : Nat} (h : t ∈ (ofChildren selectors control test).unmatchedTest) (c : Nat) :
    (ofChildren selectors control test).partner? c ≠ some t :=
  fun hpartner => (mem_unmatchedTest.mp h).2 (mem_partners_iff.mpr ⟨c, hpartner⟩)

/-- Partners are children of the two lists. -/
theorem lt_of_partner? {selectors : List Selector} {control test : List Element} {c t : Nat}
    (h : (ofChildren selectors control test).partner? c = some t) :
    c < control.length ∧ t < test.length := by
  have hpartner := mem_pairs.mp (partner?_eq_some_iff.mp h)
  obtain ⟨hlength, hpairing⟩ := pairing_ofChildren selectors control test
  rw [← hlength]
  exact ⟨(List.getElem?_eq_some_iff.mp hpartner).1,
    hpairing.lt_count t (List.reduceOption_mem_iff.mpr (List.mem_of_getElem? hpartner))⟩

/-- The test children of the pairs are the partners. -/
theorem map_snd_pairs (m : Matching) : m.pairs.map Prod.snd = m.partners.reduceOption := by
  calc m.pairs.map Prod.snd
      = m.partners.zipIdx.filterMap Prod.fst := by
        rw [pairs, List.map_filterMap]
        apply List.filterMap_congr
        rintro ⟨partner, c⟩ -
        cases partner <;> rfl
    _ = (m.partners.zipIdx.map Prod.fst).reduceOption := by
        rw [List.reduceOption, List.filterMap_map]
        rfl
    _ = m.partners.reduceOption := by rw [List.zipIdx_map_fst]

/-- The positions in a list increase. -/
theorem pairwise_zipIdx {α : Type} (l : List α) : l.zipIdx.Pairwise (·.2 < ·.2) := by
  rw [← List.pairwise_map (R := (· < ·)), List.zipIdx_map_snd]
  exact List.pairwise_lt_range'

/-- The pairs are listed in control order. -/
theorem nodup_fst_pairs (m : Matching) : (m.pairs.map Prod.fst).Nodup := by
  rw [List.nodup_iff_pairwise_ne, List.pairwise_map, pairs, List.pairwise_filterMap]
  refine (pairwise_zipIdx m.partners).imp fun {x y} hlt pair hpair other hother => ?_
  obtain ⟨t, -, rfl⟩ := Option.map_eq_some_iff.mp hpair
  obtain ⟨t', -, rfl⟩ := Option.map_eq_some_iff.mp hother
  exact Nat.ne_of_lt hlt

/-- No two control children have the same partner. -/
theorem eq_of_partner? {selectors : List Selector} {control test : List Element} {c d t : Nat}
    (hc : (ofChildren selectors control test).partner? c = some t)
    (hd : (ofChildren selectors control test).partner? d = some t) : c = d := by
  have hnodup := (pairing_ofChildren selectors control test).2.nodup
  rw [← map_snd_pairs] at hnodup
  have hpair := List.inj_on_of_nodup_map hnodup (partner?_eq_some_iff.mp hc)
    (partner?_eq_some_iff.mp hd) rfl
  exact congrArg Prod.fst hpair

/-- What is next to a test child is a control child that has a partner. -/
theorem mem_pairs_of_anchor? {m : Matching} {test c : Nat} (h : m.anchor? test = some c) :
    ∃ t, (c, t) ∈ m.pairs := by
  unfold anchor? at h
  obtain ⟨⟨c', t⟩, hnear, rfl⟩ := Option.map_eq_some_iff.mp h
  refine ⟨t, ?_⟩
  rcases Option.or_eq_some_iff.mp hnear with hbefore | ⟨-, hbehind⟩
  · exact (List.mem_filter.mp (List.maxOn?_mem hbefore)).1
  · exact (List.mem_filter.mp (List.minOn?_mem hbehind)).1

/-- What is next to a test child is the partner of the nearest one before it. -/
theorem anchor?_eq_of_before {m : Matching} {test c t : Nat} (hpair : (c, t) ∈ m.pairs)
    (hlt : t < test) (hnear : ∀ c' t', (c', t') ∈ m.pairs → t' < test → t ≤ t' → c' = c) :
    m.anchor? test = some c := by
  have hmem : (c, t) ∈ m.pairs.filter (·.2 < test) :=
    List.mem_filter.mpr ⟨hpair, decide_eq_true hlt⟩
  obtain ⟨⟨c', t'⟩, hmax⟩ := Option.isSome_iff_exists.mp
    (List.isSome_maxOn?_of_mem (f := Prod.snd) hmem)
  have hle : t ≤ t' := by
    have hle := List.le_apply_get_maxOn?_of_mem (f := Prod.snd) hmem
    simpa only [hmax, Option.get_some] using hle
  obtain ⟨hpair', hlt'⟩ := List.mem_filter.mp (List.maxOn?_mem hmax)
  simp only [anchor?, hmax, Option.some_or, Option.map_some,
    hnear c' t' hpair' (by simpa using hlt') hle]

/-- If none before it has a partner, it is the partner of the nearest one behind it. -/
theorem anchor?_eq_of_behind {m : Matching} {test c t : Nat} (hpair : (c, t) ∈ m.pairs)
    (hlt : test < t) (hnone : ∀ c' t', (c', t') ∈ m.pairs → test ≤ t')
    (hnear : ∀ c' t', (c', t') ∈ m.pairs → test < t' → t' ≤ t → c' = c) :
    m.anchor? test = some c := by
  have hbefore : m.pairs.filter (·.2 < test) = [] := by
    rw [List.filter_eq_nil_iff]
    rintro ⟨c', t'⟩ hmem
    have hle := hnone c' t' hmem
    simpa using hle
  have hmem : (c, t) ∈ m.pairs.filter (test < ·.2) :=
    List.mem_filter.mpr ⟨hpair, decide_eq_true hlt⟩
  obtain ⟨⟨c', t'⟩, hmin⟩ := Option.isSome_iff_exists.mp
    (List.isSome_minOn?_of_mem (f := Prod.snd) hmem)
  have hle : t' ≤ t := by
    have hle := List.apply_get_minOn?_le_of_mem (f := Prod.snd) hmem
    simpa only [hmin, Option.get_some] using hle
  obtain ⟨hpair', hlt'⟩ := List.mem_filter.mp (List.minOn?_mem hmin)
  simp only [anchor?, hbefore, hmin, List.maxOn?_nil, Option.none_or, Option.map_some,
    hnear c' t' hpair' (by simpa using hlt') hle]

/-- Where some other test child has a partner, a test child has a neighbour. -/
theorem isSome_anchor? {m : Matching} {test c t : Nat} (hpair : (c, t) ∈ m.pairs)
    (hne : t ≠ test) : (m.anchor? test).isSome = true := by
  unfold anchor?
  rw [Option.isSome_map, Option.isSome_or, Bool.or_eq_true]
  rcases Nat.lt_or_gt_of_ne hne with hlt | hgt
  · exact .inl (List.isSome_maxOn?_of_mem (List.mem_filter.mpr ⟨hpair, by simpa using hlt⟩))
  · exact .inr (List.isSome_minOn?_of_mem (List.mem_filter.mpr ⟨hpair, by simpa using hgt⟩))

end XmlCompare.Matching
