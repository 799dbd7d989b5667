import XmlCompare.Proofs.Compare.Pairing

/-!
# Selectors by priority

The selectors are used one after the other, and what one of them pairs stays paired. So every pair
is made by one selector. A selector leaves a control child alone only if all the test children that
it accepts for this child are taken then, by selectors before it or in its own pass. So a child is
left to a later selector, or without partner, only where the selectors before have nothing for it.
-/

set_option autoImplicit false

namespace XmlCompare.Matching

variable {accepts : Selector} {selectors : List Selector} {control test : List Element}
  {a b : Element}

/-! ## A pass -/

/-- What becomes of the partner of a control child in a pass that begins with the test children
`free` and ends with the partners `after`: a partner is kept; a child without partner gets one that
is free and accepted, or all that is free and accepted is taken by others. -/
inductive Passed (accepts : Selector) (free : List (Element × Nat)) (after : List (Option Nat))
    (control : Element) : Option Nat → Option Nat → Prop
  | kept {i : Nat} : Passed accepts free after control (some i) (some i)
  | found {test : Element} {i : Nat} : (test, i) ∈ free → accepts control test = true →
    Passed accepts free after control none (some i)
  | exhausted : (∀ candidate ∈ free, accepts control candidate.1 = true →
    some candidate.2 ∈ after) → Passed accepts free after control none none

/-- It is the same for the whole pass as for a part of it, which begins with what the children
before have not taken. -/
theorem Passed.of_part {free left : List (Element × Nat)} {after part : List (Option Nat)}
    {before partner : Option Nat} (h : Passed accepts left part a before partner)
    (hleft : ∀ candidate ∈ left, candidate ∈ free)
    (htaken : ∀ candidate ∈ free, candidate ∈ left ∨ some candidate.2 ∈ after)
    (hpart : part ⊆ after) : Passed accepts free after a before partner := by
  cases h with
  | kept => exact .kept
  | found hmem haccepts => exact .found (hleft _ hmem) haccepts
  | exhausted hnone =>
    refine .exhausted fun candidate hmem haccepts => ?_
    rcases htaken candidate hmem with hmem | hmem
    · exact hpart (hnone candidate hmem haccepts)
    · exact hmem

/-- A partner is kept in a pass. -/
theorem Passed.eq_some {free : List (Element × Nat)} {after : List (Option Nat)} {i : Nat}
    {partner : Option Nat} (h : Passed accepts free after a (some i) partner) :
    partner = some i := by
  cases h with
  | kept => rfl

/-- A partner that is found in a pass is a free child that is accepted. -/
theorem Passed.exists_found {free : List (Element × Nat)} {after : List (Option Nat)} {i : Nat}
    (h : Passed accepts free after a none (some i)) :
    ∃ test, (test, i) ∈ free ∧ accepts a test = true := by
  cases h with
  | found hmem haccepts => exact ⟨_, hmem, haccepts⟩

/-- Where a pass finds no partner, every child that would be accepted is taken. -/
theorem Passed.all_taken {free : List (Element × Nat)} {after : List (Option Nat)}
    {before : Option Nat} (h : Passed accepts free after a before none) :
    ∀ candidate ∈ free, accepts a candidate.1 = true → some candidate.2 ∈ after := by
  cases h with
  | exhausted htaken => exact htaken

/-- What a pass does with the child at a position. -/
theorem passed_of_pass (accepts : Selector) (cursor : Nat) (free : List (Element × Nat))
    {children : List (Element × Option Nat)} {c : Nat} {before : Option Nat}
    (h : children[c]? = some (a, before)) :
    ∃ partner, (pass accepts cursor free children)[c]? = some partner ∧
      Passed accepts free (pass accepts cursor free children) a before partner := by
  fun_induction pass accepts cursor free children generalizing c with
  | case1 => cases h
  | case2 cursor free child i rest ih =>
    cases c with
    | zero =>
      cases h
      exact ⟨some i, rfl, .kept⟩
    | succ c =>
      obtain ⟨partner, hpartner, hpassed⟩ := ih h
      exact ⟨partner, hpartner, hpassed.of_part (fun _ => id) (fun _ => .inl)
        (List.subset_cons_self _ _)⟩
  | case3 cursor free child rest i hchoose ih =>
    cases c with
    | zero =>
      cases h
      obtain ⟨test, hmem, haccepts⟩ := mem_of_choose hchoose
      exact ⟨some i, rfl, .found hmem haccepts⟩
    | succ c =>
      obtain ⟨partner, hpartner, hpassed⟩ := ih h
      refine ⟨partner, hpartner, hpassed.of_part (fun _ hmem => (List.mem_filter.mp hmem).1) ?_
        (List.subset_cons_self _ _)⟩
      intro candidate hmem
      by_cases hi : candidate.2 = i
      · exact .inr (hi ▸ List.mem_cons_self)
      · exact .inl (List.mem_filter.mpr ⟨hmem, by simpa using hi⟩)
  | case4 cursor free child rest hchoose ih =>
    cases c with
    | zero =>
      cases h
      refine ⟨none, rfl, .exhausted fun candidate hmem haccepts => ?_⟩
      rw [choose_eq_none_iff.mp hchoose candidate hmem] at haccepts
      cases haccepts
    | succ c =>
      obtain ⟨partner, hpartner, hpassed⟩ := ih h
      exact ⟨partner, hpartner, hpassed.of_part (fun _ => id) (fun _ => .inl)
        (List.subset_cons_self _ _)⟩

/-! ## One selector after the other -/

/-- The matching that the first `k` selectors come to. -/
def afterFirst (selectors : List Selector) (control test : List Element) (k : Nat) : Matching :=
  ofChildren (selectors.take k) control test

/-- After all selectors the matching is complete. -/
theorem afterFirst_of_length_le {k : Nat} (h : selectors.length ≤ k) :
    afterFirst selectors control test k = ofChildren selectors control test := by
  rw [afterFirst, List.take_of_length_le h]

/-- One selector more is one pass more. -/
theorem partners_afterFirst_succ {k : Nat} (h : selectors[k]? = some accepts) :
    (afterFirst selectors control test (k + 1)).partners =
      refine control test (afterFirst selectors control test k).partners accepts := by
  simp only [afterFirst, ofChildren, List.take_add_one, h, Option.toList_some, List.foldl_append,
    List.foldl_cons, List.foldl_nil]

/-- Nobody has a partner before the first selector is used. -/
theorem partner?_afterFirst_zero (c : Nat) :
    (afterFirst selectors control test 0).partner? c = none := by
  rw [Option.eq_none_iff_forall_ne_some]
  intro t h
  have hmem : some t ∈ control.map fun _ => (none : Option Nat) :=
    List.mem_of_getElem? (mem_pairs.mp (partner?_eq_some_iff.mp h))
  obtain ⟨-, -, heq⟩ := List.mem_map.mp hmem
  cases heq

/-- What the selector behind the first `k` does with a control child. -/
theorem passed_of_afterFirst (test : List Element) {k c : Nat} (h : selectors[k]? = some accepts)
    (ha : control[c]? = some a) :
    Passed accepts (freeChildren test (afterFirst selectors control test k).partners)
      (afterFirst selectors control test (k + 1)).partners a
      ((afterFirst selectors control test k).partner? c)
      ((afterFirst selectors control test (k + 1)).partner? c) := by
  have hlength := (pairing_ofChildren (selectors.take k) control test).1
  have hlt : c < (afterFirst selectors control test k).partners.length := by
    rw [afterFirst, hlength]
    exact (List.getElem?_eq_some_iff.mp ha).1
  have hbefore := List.getElem?_eq_getElem hlt
  have hchild : (control.zip (afterFirst selectors control test k).partners)[c]? =
      some (a, (afterFirst selectors control test k).partners[c]) :=
    List.getElem?_zip_eq_some.mpr ⟨ha, hbefore⟩
  obtain ⟨partner, hpartner, hpassed⟩ := passed_of_pass accepts 0
    (freeChildren test (afterFirst selectors control test k).partners) hchild
  rw [← refine, ← partners_afterFirst_succ h] at hpartner hpassed
  rw [partner?, partner?, hbefore, hpartner]
  exact hpassed

/-- A selector keeps the pairs that have been made. -/
theorem partner?_afterFirst_succ {k c t : Nat}
    (h : (afterFirst selectors control test k).partner? c = some t) :
    (afterFirst selectors control test (k + 1)).partner? c = some t := by
  cases hselector : selectors[k]? with
  | none =>
    have hle : selectors.length ≤ k := List.getElem?_eq_none_iff.mp hselector
    rwa [afterFirst_of_length_le (Nat.le_succ_of_le hle), ← afterFirst_of_length_le hle]
  | some accepts =>
    have ha := List.getElem?_eq_getElem (lt_of_partner? h).1
    have hpassed := passed_of_afterFirst test hselector ha
    rw [h] at hpassed
    exact hpassed.eq_some

/-- A partner stays through the later passes. -/
theorem partner?_afterFirst_mono {k l c t : Nat} (hle : k ≤ l)
    (h : (afterFirst selectors control test k).partner? c = some t) :
    (afterFirst selectors control test l).partner? c = some t := by
  induction hle with
  | refl => exact h
  | step _ ih => exact partner?_afterFirst_succ ih

/-- Who has no partner after some selectors had none after fewer. -/
theorem partner?_afterFirst_eq_none {k l c : Nat} (hle : k ≤ l)
    (h : (afterFirst selectors control test l).partner? c = none) :
    (afterFirst selectors control test k).partner? c = none := by
  rw [Option.eq_none_iff_forall_ne_some]
  intro t hpartner
  cases h.symm.trans (partner?_afterFirst_mono hle hpartner)

/-! ## Who pairs whom -/

/-- The selector at position `k` pairs the control child at `c` with the test child at `t`. -/
def PairedBy (selectors : List Selector) (control test : List Element) (k c t : Nat) : Prop :=
  (afterFirst selectors control test k).partner? c = none ∧
    (afterFirst selectors control test (k + 1)).partner? c = some t

/-- A pair that there is after some selectors was made by one of them. -/
theorem exists_pairedBy_of_afterFirst {n c t : Nat}
    (h : (afterFirst selectors control test n).partner? c = some t) :
    ∃ k < n, PairedBy selectors control test k c t := by
  induction n with
  | zero =>
    rw [partner?_afterFirst_zero] at h
    cases h
  | succ n ih =>
    cases hbefore : (afterFirst selectors control test n).partner? c with
    | none => exact ⟨n, Nat.lt_succ_self n, hbefore, h⟩
    | some t' =>
      obtain rfl : t' = t := Option.some.inj ((partner?_afterFirst_succ hbefore).symm.trans h)
      obtain ⟨k, hk, hpaired⟩ := ih hbefore
      exact ⟨k, Nat.lt_succ_of_lt hk, hpaired⟩

/-- A pair is made by one of the selectors. -/
theorem PairedBy.lt_length {k c t : Nat} (h : PairedBy selectors control test k c t) :
    k < selectors.length := by
  by_contra hge
  have hlast := h.2
  rw [afterFirst_of_length_le (Nat.le_succ_of_le (Nat.not_lt.mp hge)),
    ← afterFirst_of_length_le (Nat.not_lt.mp hge), h.1] at hlast
  cases hlast

/-- A pair that a selector makes is a pair of the matching. -/
theorem PairedBy.partner? {k c t : Nat} (h : PairedBy selectors control test k c t) :
    (ofChildren selectors control test).partner? c = some t := by
  rw [← afterFirst_of_length_le (Nat.le_refl selectors.length)]
  exact partner?_afterFirst_mono h.lt_length h.2

/-- Two children are partners exactly if a selector pairs them, and then one selector does. -/
theorem partner?_iff_existsUnique_pairedBy {c t : Nat} :
    (ofChildren selectors control test).partner? c = some t ↔
      ∃! k, PairedBy selectors control test k c t := by
  rw [← afterFirst_of_length_le (Nat.le_refl selectors.length)]
  constructor
  · intro h
    obtain ⟨k, -, hpaired⟩ := exists_pairedBy_of_afterFirst h
    refine ⟨k, hpaired, fun l hl => ?_⟩
    by_contra hne
    rcases Nat.lt_or_gt_of_ne hne with hlt | hgt
    · cases (partner?_afterFirst_mono hlt hl.2).symm.trans hpaired.1
    · cases (partner?_afterFirst_mono hgt hpaired.2).symm.trans hl.1
  · rintro ⟨k, hpaired, -⟩
    rw [afterFirst_of_length_le (Nat.le_refl selectors.length)]
    exact hpaired.partner?

/-- A selector pairs children that it accepts. -/
theorem PairedBy.accepted {k c t : Nat} (h : PairedBy selectors control test k c t) :
    ∃ accepts a b, selectors[k]? = some accepts ∧ control[c]? = some a ∧ test[t]? = some b ∧
      accepts a b = true := by
  obtain ⟨hnone, hsome⟩ := h
  obtain ⟨accepts, hselector⟩ : ∃ accepts, selectors[k]? = some accepts :=
    ⟨_, List.getElem?_eq_getElem (PairedBy.lt_length ⟨hnone, hsome⟩)⟩
  obtain ⟨a, ha⟩ : ∃ a, control[c]? = some a :=
    ⟨_, List.getElem?_eq_getElem (lt_of_partner? hsome).1⟩
  have hpassed := passed_of_afterFirst test hselector ha
  rw [hnone, hsome] at hpassed
  obtain ⟨b, hmem, haccepts⟩ := hpassed.exists_found
  exact ⟨accepts, a, b, hselector, ha,
    List.mem_zipIdx_iff_getElem?.mp (List.mem_filter.mp hmem).1, haccepts⟩

/-- Partners are accepted by one of the selectors. -/
theorem exists_accepted {c t : Nat} (h : (ofChildren selectors control test).partner? c = some t) :
    ∃ accepts ∈ selectors, ∃ a b, control[c]? = some a ∧ test[t]? = some b ∧
      accepts a b = true := by
  obtain ⟨k, hpaired, -⟩ := partner?_iff_existsUnique_pairedBy.mp h
  obtain ⟨accepts, a, b, hselector, hab⟩ := hpaired.accepted
  exact ⟨accepts, List.mem_of_getElem? hselector, a, b, hab⟩

/-- Where there is one selector, it accepts all pairs. -/
theorem accepted_of_single {c t : Nat}
    (h : (ofChildren [accepts] control test).partner? c = some t) :
    ∃ a b, control[c]? = some a ∧ test[t]? = some b ∧ accepts a b = true := by
  obtain ⟨selector, hmem, a, b, hab⟩ := exists_accepted h
  obtain rfl := List.mem_singleton.mp hmem
  exact ⟨a, b, hab⟩

/-- What a selector accepts for a child that has no partner after it is taken by then: a selector up
to this one has paired it with another child. -/
theorem exists_pairedBy_of_accepted {j c t : Nat} (hselector : selectors[j]? = some accepts)
    (ha : control[c]? = some a) (hb : test[t]? = some b) (haccepts : accepts a b = true)
    (hnone : (afterFirst selectors control test (j + 1)).partner? c = none) :
    ∃ i ≤ j, ∃ other, other ≠ c ∧ PairedBy selectors control test i other t := by
  have hpassed := passed_of_afterFirst test hselector ha
  rw [hnone] at hpassed
  obtain ⟨other, hpartner⟩ : ∃ other,
      (afterFirst selectors control test (j + 1)).partner? other = some t := by
    by_cases hearlier : some t ∈ (afterFirst selectors control test j).partners
    · obtain ⟨other, hother⟩ := mem_partners_iff.mp hearlier
      exact ⟨other, partner?_afterFirst_succ hother⟩
    · have hfree : (b, t) ∈ freeChildren test (afterFirst selectors control test j).partners := by
        refine List.mem_filter.mpr ⟨List.mem_zipIdx_iff_getElem?.mpr hb, ?_⟩
        simpa using hearlier
      exact mem_partners_iff.mp (hpassed.all_taken (b, t) hfree haccepts)
  obtain ⟨i, hi, hpaired⟩ := exists_pairedBy_of_afterFirst hpartner
  refine ⟨i, Nat.le_of_lt_succ hi, other, ?_, hpaired⟩
  rintro rfl
  cases hnone.symm.trans hpartner

/-- A matching of `controls` control children with `tests` test children in which nobody has two
partners, and which lists in order the test children that are nobody's partner. -/
structure Injective (m : Matching) (controls tests : Nat) : Prop where
  lt {c t : Nat} : m.partner? c = some t → c < controls ∧ t < tests
  eq_of_partner {c d t : Nat} : m.partner? c = some t → m.partner? d = some t → c = d
  sorted : m.unmatchedTest.Pairwise (· < ·)
  mem_unmatchedTest_iff {t : Nat} : t ∈ m.unmatchedTest ↔ t < tests ∧ ∀ c, m.partner? c ≠ some t

/-- A matching pairs nobody twice. -/
theorem injective_ofChildren (selectors : List Selector) (control test : List Element) :
    (ofChildren selectors control test).Injective control.length test.length where
  lt := lt_of_partner?
  eq_of_partner := eq_of_partner?
  sorted := by
    rw [ofChildren, freeChildren_positions]
    exact List.pairwise_lt_range.filter _
  mem_unmatchedTest_iff := by
    intro t
    rw [mem_unmatchedTest, mem_partners_iff, not_exists]

/-- Whatever the selectors accept, a matching pairs nobody twice. Every pair is made by one
selector, which accepts it, and no selector accepts two children that are both left over. If a
control child has no partner, or one by some selector, then whatever a selector before accepts for
it is the partner of another control child, by that selector or one before it. -/
theorem matched_by_priority (selectors : List Selector) (control test : List Element) :
    (ofChildren selectors control test).Injective control.length test.length ∧
    (∀ c t, (ofChildren selectors control test).partner? c = some t ↔
      ∃! k, PairedBy selectors control test k c t) ∧
    (∀ k c t, PairedBy selectors control test k c t → ∃ accepts a b, selectors[k]? = some accepts ∧
      control[c]? = some a ∧ test[t]? = some b ∧ accepts a b = true) ∧
    (∀ accepts ∈ selectors, ∀ c a t b, control[c]? = some a → test[t]? = some b →
      (ofChildren selectors control test).partner? c = none →
      t ∈ (ofChildren selectors control test).unmatchedTest → accepts a b = false) ∧
    ∀ k c, ((ofChildren selectors control test).partner? c = none ∧ k = selectors.length ∨
        ∃ t, PairedBy selectors control test k c t) →
      ∀ j < k, ∀ accepts a t b, selectors[j]? = some accepts → control[c]? = some a →
        test[t]? = some b → accepts a b = true →
        ∃ i ≤ j, ∃ other, other ≠ c ∧ PairedBy selectors control test i other t := by
  refine ⟨injective_ofChildren selectors control test,
    fun c t => partner?_iff_existsUnique_pairedBy, fun k c t => PairedBy.accepted, ?_, ?_⟩
  · intro accepts hmem c a t b ha hb hnone hfree
    obtain ⟨j, hselector⟩ := List.mem_iff_getElem?.mp hmem
    have hj : j < selectors.length := (List.getElem?_eq_some_iff.mp hselector).1
    rw [← afterFirst_of_length_le (Nat.le_refl _)] at hnone
    rw [← Bool.not_eq_true]
    intro haccepts
    obtain ⟨i, -, other, -, hpaired⟩ :=
      exists_pairedBy_of_accepted hselector ha hb haccepts (partner?_afterFirst_eq_none hj hnone)
    exact ((injective_ofChildren selectors control test).mem_unmatchedTest_iff.mp hfree).2 other
      hpaired.partner?
  · intro k c hleft j hj accepts a t b hselector ha hb haccepts
    apply exists_pairedBy_of_accepted hselector ha hb haccepts
    apply partner?_afterFirst_eq_none hj
    rcases hleft with ⟨hnone, rfl⟩ | ⟨t', hpaired⟩
    · rw [afterFirst_of_length_le (Nat.le_refl _), hnone]
    · exact hpaired.1

end XmlCompare.Matching
