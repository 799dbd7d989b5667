import XmlCompare.Proofs.Compare.Parts

/-!
# Where differences are addressed

The pairs of elements that are compared begin with the roots and go on with every control child that
has a partner. A difference belongs to one of these pairs: it is about the pair itself, about a
control child without partner, or about a test child that is nobody's partner. This settles the
control element at which it is addressed.
-/

set_option autoImplicit false

namespace XmlCompare

namespace Matching

/-- A test child belongs next to the control child `c`: the nearest test sibling before it that has
a partner has the partner `c`, or none before it has one and the nearest behind it has the partner
`c`. -/
inductive Beside (m : Matching) (test c : Nat) : Prop
  | before {t : Nat} : m.partner? c = some t → t < test →
    (∀ c' t', m.partner? c' = some t' → t' < test → t' ≤ t) → Beside m test c
  | behind {t : Nat} : m.partner? c = some t → test < t →
    (∀ c' t', m.partner? c' = some t' → test < t' ∧ t ≤ t') → Beside m test c

/-- The control child next to which a test child belongs has a partner. -/
theorem Beside.exists_partner {m : Matching} {test c : Nat} (h : m.Beside test c) :
    ∃ t, m.partner? c = some t := by
  cases h with
  | before hpartner _ _ => exact ⟨_, hpartner⟩
  | behind hpartner _ _ => exact ⟨_, hpartner⟩

/-- The control child next to which a test child without partner is put is the one next to which it
belongs. -/
theorem beside_of_anchor? {m : Matching} {test c : Nat} (hfree : ∀ c, m.partner? c ≠ some test)
    (h : m.anchor? test = some c) : m.Beside test c := by
  have hbefore : ∀ c t, m.partner? c = some t → t < test → (c, t) ∈ m.pairs.filter (·.2 < test) :=
    fun c t hpartner hlt =>
      List.mem_filter.mpr ⟨partner?_eq_some_iff.mp hpartner, decide_eq_true hlt⟩
  obtain ⟨⟨c, t⟩, hnear, rfl⟩ := Option.map_eq_some_iff.mp h
  rcases Option.or_eq_some_iff.mp hnear with hmax | ⟨hnone, hmin⟩
  · obtain ⟨hpair, hlt⟩ := List.mem_filter.mp (List.maxOn?_mem hmax)
    refine .before (partner?_eq_some_iff.mpr hpair) (by simpa using hlt) ?_
    intro c' t' hpartner hlt'
    have hle := List.le_apply_get_maxOn?_of_mem (f := Prod.snd) (hbefore c' t' hpartner hlt')
    simpa only [hmax, Option.get_some] using hle
  · obtain ⟨hpair, hlt⟩ := List.mem_filter.mp (List.minOn?_mem hmin)
    refine .behind (partner?_eq_some_iff.mpr hpair) (by simpa using hlt) ?_
    intro c' t' hpartner
    -- No test sibling before has a partner, or else there were a nearest one.
    have hbehind : test < t' := by
      apply Nat.lt_of_le_of_ne
      · by_contra hle
        have hmem := hbefore c' t' hpartner (Nat.not_le.mp hle)
        have hsome := List.isSome_maxOn?_of_mem (f := Prod.snd) hmem
        rw [hnone] at hsome
        cases hsome
      · rintro rfl
        exact hfree c' hpartner
    have hmem : (c', t') ∈ m.pairs.filter (test < ·.2) :=
      List.mem_filter.mpr ⟨partner?_eq_some_iff.mp hpartner, decide_eq_true hbehind⟩
    have hle := List.apply_get_minOn?_le_of_mem (f := Prod.snd) hmem
    exact ⟨hbehind, by simpa only [hmin, Option.get_some] using hle⟩

/-- It is put next to none only if no test child has a partner. -/
theorem partner?_eq_none_of_anchor? {m : Matching} {test : Nat}
    (hfree : ∀ c, m.partner? c ≠ some test) (h : m.anchor? test = none) (c : Nat) :
    m.partner? c = none := by
  rw [Option.eq_none_iff_forall_ne_some]
  intro t hpartner
  have hne : t ≠ test := by
    rintro rfl
    exact hfree c hpartner
  have hanchor := isSome_anchor? (partner?_eq_some_iff.mp hpartner) hne
  rw [h] at hanchor
  cases hanchor

end Matching

namespace Element

variable {selectors : List Selector} {outer tag : String} {control test a b x : Element}
  {d : Difference}

/-- The pairs of elements that are compared when two elements are, each with the name of what it is
compared below: these two, and every control child of such a pair with its partner. -/
inductive Compared (selectors : List Selector) (outer : String) (control test : Element) :
    String → Element → Element → Prop
  | self : Compared selectors outer control test outer control test
  | child {tag : String} {a b child partner : Element} {i j : Nat} :
    Compared selectors outer control test tag a b →
    (matching selectors a b).partner? i = some j →
    a.childElements[i]? = some child → b.childElements[j]? = some partner →
    Compared selectors outer control test a.name child partner

/-- What is compared below a child and its partner is compared below their parents. -/
theorem Compared.of_partner {child partner : Element} {i j : Nat}
    (hpartner : (matching selectors control test).partner? i = some j)
    (hi : control.childElements[i]? = some child) (hj : test.childElements[j]? = some partner)
    (h : Compared selectors control.name child partner tag a b) :
    Compared selectors outer control test tag a b := by
  induction h with
  | self => exact .child .self hpartner hi hj
  | child _ hpartner' hi' hj' ih => exact .child ih hpartner' hi' hj'

/-- The elements of a compared pair are elements of the two trees. -/
theorem Compared.mem_all (h : Compared selectors outer control test tag a b) :
    a ∈ control.all ∧ b ∈ test.all := by
  induction h with
  | self => exact ⟨self_mem_all control, self_mem_all test⟩
  | child _ _ hi hj ih =>
    exact ⟨mem_all_trans ih.1 (child_mem_all (List.mem_of_getElem? hi)),
      mem_all_trans ih.2 (child_mem_all (List.mem_of_getElem? hj))⟩

/-- The control element at which a test child that is nobody's partner is addressed: the control
child next to which it belongs, or the parent if no test child has a partner. -/
inductive Anchors (selectors : List Selector) (a b : Element) (position : Nat) : Element → Prop
  | sibling {c : Nat} {sibling : Element} : (matching selectors a b).Beside position c →
    a.childElements[c]? = some sibling → Anchors selectors a b position sibling
  | parent : (∀ c, (matching selectors a b).partner? c = none) → Anchors selectors a b position a

/-- A difference of a pair of elements and the control element at which it is addressed. -/
inductive Addressed (selectors : List Selector) (tag : String) (a b : Element) :
    Difference → Element → Prop
  | own {d : Difference} : d ∈ ownDifferences tag a b → Addressed selectors tag a b d a
  | missing {i : Nat} {child : Element} : a.childElements[i]? = some child →
    (matching selectors a b).partner? i = none →
    Addressed selectors tag a b (.missingChild a.name child) child
  | extra {j : Nat} {child x : Element} : b.childElements[j]? = some child →
    (∀ i, (matching selectors a b).partner? i ≠ some j) → Anchors selectors a b j x →
    Addressed selectors tag a b (.extraChild a.name x.path child) x

/-- A difference has the path of the element at which it is addressed. -/
theorem Addressed.path (h : Addressed selectors tag a b d x) : d.path = x.path := by
  cases h with
  | own h => exact path_of_mem_ownDifferences h
  | missing => rfl
  | extra => rfl

/-- A child without partner is addressed at an element of the control tree. -/
theorem Anchors.mem_all {position : Nat} (h : Anchors selectors a b position x) : x ∈ a.all := by
  cases h with
  | sibling _ hsibling => exact child_mem_all (List.mem_of_getElem? hsibling)
  | parent => exact self_mem_all a

/-- A difference is addressed at an element of the control tree. -/
theorem Addressed.mem_all (h : Addressed selectors tag a b d x) : x ∈ a.all := by
  cases h with
  | own => exact self_mem_all a
  | missing hchild => exact child_mem_all (List.mem_of_getElem? hchild)
  | extra _ _ hanchor => exact hanchor.mem_all

/-- A control child has no counterpart because it has no partner, or its counterpart is the test
child at the position of its partner. -/
theorem counterpart_cases {child : Element} {counterpart : Option Element}
    (h : (child, counterpart) ∈ a.childElements.zip (counterparts selectors a b)) :
    ∃ i, a.childElements[i]? = some child ∧
      (counterpart = none ∧ (matching selectors a b).partner? i = none ∨
        ∃ j partner, counterpart = some partner ∧ (matching selectors a b).partner? i = some j ∧
          b.childElements[j]? = some partner) := by
  obtain ⟨i, hi⟩ := List.mem_iff_getElem?.mp h
  obtain ⟨hchild, hcounterpart⟩ := List.getElem?_zip_eq_some.mp hi
  refine ⟨i, hchild, ?_⟩
  rw [counterparts, List.getElem?_map, Option.map_eq_some_iff] at hcounterpart
  obtain ⟨partner?, hpartner, rfl⟩ := hcounterpart
  cases partner? with
  | none => exact .inl ⟨rfl, by rw [Matching.partner?, hpartner]; rfl⟩
  | some j =>
    have hlt : j < b.childElements.length :=
      (Matching.pairing_ofChildren selectors a.childElements b.childElements).2.lt_count j
        (List.reduceOption_mem_iff.mpr (List.mem_of_getElem? hpartner))
    have hj : b.childElements[j]? = some b.childElements[j] := List.getElem?_eq_getElem hlt
    exact .inr ⟨j, _, hj, by rw [Matching.partner?, hpartner]; rfl, hj⟩

/-- Every extra child is addressed where it is anchored. -/
theorem exists_anchor {position : Nat}
    (hfree : ∀ c, (matching selectors a b).partner? c ≠ some position) :
    ∃ x, Anchors selectors a b position x ∧
      anchorPath a (matching selectors a b) position = x.path := by
  unfold anchorPath
  cases hanchor : (matching selectors a b).anchor? position with
  | none => exact ⟨a, .parent (Matching.partner?_eq_none_of_anchor? hfree hanchor), rfl⟩
  | some c =>
    have hc := Matching.beside_of_anchor? hfree hanchor
    obtain ⟨t, hpartner⟩ := hc.exists_partner
    have hlt : c < a.childElements.length := by
      rw [← (Matching.pairing_ofChildren selectors a.childElements b.childElements).1]
      have hpair := Matching.mem_pairs.mp (Matching.partner?_eq_some_iff.mp hpartner)
      exact (List.getElem?_eq_some_iff.mp hpair).1
    have hsibling : a.childElements[c]? = some a.childElements[c] := List.getElem?_eq_getElem hlt
    rw [Option.bind_some, hsibling]
    exact ⟨_, .sibling hc hsibling, rfl⟩

/-- Every difference of two elements is one of a compared pair, addressed at a control element. -/
theorem exists_addressed (h : d ∈ control.differences selectors outer test) :
    ∃ tag a b x, Compared selectors outer control test tag a b ∧
      Addressed selectors tag a b d x := by
  induction control using descent generalizing outer test with
  | step control ih =>
    rcases mem_differences.mp h with h | ⟨⟨child, counterpart⟩, hpair, h⟩ | h
    · exact ⟨outer, control, test, control, .self, .own h⟩
    · obtain ⟨i, hi, ⟨rfl, hnone⟩ | ⟨j, partner, rfl, hpartner, hj⟩⟩ := counterpart_cases hpair
      · obtain rfl := List.mem_singleton.mp h
        exact ⟨outer, control, test, child, .self, .missing hi hnone⟩
      · obtain ⟨tag, a, b, x, hcompared, haddressed⟩ := ih child (List.mem_of_getElem? hi) h
        exact ⟨tag, a, b, x, hcompared.of_partner hpartner hi hj, haddressed⟩
    · obtain ⟨position, hposition, child, hchild, rfl⟩ := mem_extraDifferences.mp h
      have hfree := Matching.partner?_ne_of_unmatched hposition
      obtain ⟨x, hanchor, hpath⟩ := exists_anchor hfree
      rw [hpath]
      exact ⟨outer, control, test, x, .self, .extra hchild hfree hanchor⟩

end Element

end XmlCompare
