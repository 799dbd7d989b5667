import Mathlib.Data.List.Count
import XmlCompare.Proofs.Compare.Interchange

/-!
# As many pairs as there can be

If a selector accepts all children with equal keys, and up to it no selector accepts children whose
keys differ, then of the children with some key one side has been used up behind it: a control child
that is left alone has seen all test children with its key taken, and they are taken by control
children with that key. So there are as many pairs with a key as there are children with it on the
side that has fewer of them, and no other pairing has more.
-/

set_option autoImplicit false

namespace XmlCompare.Matching

section Keys

variable {κ : Type} [DecidableEq κ] {key : Element → κ} {k : κ} {control test : List Element}
  {pairs : List (Nat × Nat)}

/-- The positions of the children with a key. -/
def positions (key : Element → κ) (k : κ) (children : List Element) : List Nat :=
  children.findIdxs fun e => key e = k

/-- The positions of a key are those of the children that have it. -/
theorem mem_positions {children : List Element} {i : Nat} :
    i ∈ positions key k children ↔ ∃ e, children[i]? = some e ∧ key e = k := by
  simp only [positions, List.mem_findIdxs_iff_exists_getElem_pos, decide_eq_true_eq,
    List.getElem?_eq_some_iff]
  constructor
  · rintro ⟨hi, hkey⟩
    exact ⟨_, ⟨hi, rfl⟩, hkey⟩
  · rintro ⟨e, ⟨hi, rfl⟩, hkey⟩
    exact ⟨hi, hkey⟩

/-- A key has as many positions as there are children that have it. -/
theorem length_positions (key : Element → κ) (k : κ) (children : List Element) :
    (positions key k children).length = children.countP fun e => key e = k :=
  List.length_findIdxs

/-- No position of a key is listed twice. -/
theorem nodup_positions (key : Element → κ) (k : κ) (children : List Element) :
    (positions key k children).Nodup := List.nodup_findIdxs

/-- The pairs in which both children have a key. -/
def withKey (key : Element → κ) (k : κ) (control test : List Element) (pairs : List (Nat × Nat)) :
    List (Nat × Nat) :=
  pairs.filter fun pair => pair.1 ∈ positions key k control ∧ pair.2 ∈ positions key k test

/-- The pairs with a key are those at positions of the key on both sides. -/
theorem mem_withKey {c t : Nat} : (c, t) ∈ withKey key k control test pairs ↔
    (c, t) ∈ pairs ∧ c ∈ positions key k control ∧ t ∈ positions key k test := by
  rw [withKey, List.mem_filter, decide_eq_true_eq]

/-- Pairs of positions in which nobody is paired twice. -/
structure OneToOne (pairs : List (Nat × Nat)) : Prop where
  nodup_fst : (pairs.map Prod.fst).Nodup
  nodup_snd : (pairs.map Prod.snd).Nodup

/-- Nobody is paired twice, and only children with equal keys are paired. -/
structure PairsUp (key : Element → κ) (control test : List Element) (pairs : List (Nat × Nat)) :
    Prop extends OneToOne pairs where
  agree {c t : Nat} : (c, t) ∈ pairs →
    ∃ a b, control[c]? = some a ∧ test[t]? = some b ∧ key a = key b

/-! ## Counting -/

/-- Pairs with a key use up control children that have it, each once. -/
theorem subperm_fst_withKey (key : Element → κ) (k : κ) (control test : List Element)
    (h : OneToOne pairs) :
    ((withKey key k control test pairs).map Prod.fst).Subperm (positions key k control) := by
  refine List.subperm_of_subset (h.nodup_fst.sublist (List.filter_sublist.map _)) ?_
  intro c hc
  obtain ⟨⟨c, t⟩, hpair, rfl⟩ := List.mem_map.mp hc
  exact (mem_withKey.mp hpair).2.1

/-- Pairs with a key use up test children that have it, each once. -/
theorem subperm_snd_withKey (key : Element → κ) (k : κ) (control test : List Element)
    (h : OneToOne pairs) :
    ((withKey key k control test pairs).map Prod.snd).Subperm (positions key k test) := by
  refine List.subperm_of_subset (h.nodup_snd.sublist (List.filter_sublist.map _)) ?_
  intro t ht
  obtain ⟨⟨c, t⟩, hpair, rfl⟩ := List.mem_map.mp ht
  exact (mem_withKey.mp hpair).2.2

/-- There are no more pairs with a key than children that have it, on either side. -/
theorem length_withKey_le (h : OneToOne pairs) (k : κ) :
    (withKey key k control test pairs).length ≤
      min (control.countP fun e => key e = k) (test.countP fun e => key e = k) := by
  have hfst := (subperm_fst_withKey key k control test h).length_le
  have hsnd := (subperm_snd_withKey key k control test h).length_le
  rw [List.length_map, length_positions] at hfst hsnd
  exact Nat.le_min.mpr ⟨hfst, hsnd⟩

/-- Where there are as many pairs with a key as control children, each of these has its pair. -/
theorem exists_pair_of_length_le (h : OneToOne pairs)
    (hlength : (positions key k control).length ≤ (withKey key k control test pairs).length) :
    ∀ c ∈ positions key k control, ∃ t ∈ positions key k test, (c, t) ∈ pairs := by
  intro c hc
  have hperm := (subperm_fst_withKey key k control test h).perm_of_length_le
    (by rw [List.length_map]; exact hlength)
  obtain ⟨⟨c, t⟩, hpair, rfl⟩ := List.mem_map.mp (hperm.mem_iff.mpr hc)
  exact ⟨t, (mem_withKey.mp hpair).2.2, (mem_withKey.mp hpair).1⟩

/-- Where one side is used up, there are as many pairs with a key as there are children. -/
theorem length_withKey (h : OneToOne pairs)
    (hfull : (∀ c ∈ positions key k control, ∃ t ∈ positions key k test, (c, t) ∈ pairs) ∨
      ∀ t ∈ positions key k test, ∃ c ∈ positions key k control, (c, t) ∈ pairs) :
    (withKey key k control test pairs).length =
      min (control.countP fun e => key e = k) (test.countP fun e => key e = k) := by
  refine Nat.le_antisymm (length_withKey_le h k) ?_
  rw [← length_positions, ← length_positions]
  rcases hfull with hfull | hfull
  · refine Nat.le_trans (Nat.min_le_left _ _) ?_
    rw [← List.length_map Prod.fst]
    refine (List.subperm_of_subset (nodup_positions key k control) fun c hc => ?_).length_le
    obtain ⟨t, ht, hpair⟩ := hfull c hc
    exact List.mem_map.mpr ⟨(c, t), mem_withKey.mpr ⟨hpair, hc, ht⟩, rfl⟩
  · refine Nat.le_trans (Nat.min_le_right _ _) ?_
    rw [← List.length_map Prod.snd]
    refine (List.subperm_of_subset (nodup_positions key k test) fun t ht => ?_).length_le
    obtain ⟨c, hc, hpair⟩ := hfull t ht
    exact List.mem_map.mpr ⟨(c, t), mem_withKey.mpr ⟨hpair, hc, ht⟩, rfl⟩

/-- The keys of the control children of some pairs. -/
def keysOf (key : Element → κ) (control : List Element) (pairs : List (Nat × Nat)) :
    List (Option κ) :=
  pairs.map fun pair => control[pair.1]?.map key

/-- A key is counted among the pairs as often as there are pairs with it. -/
theorem count_keysOf (h : PairsUp key control test pairs) (k : κ) :
    (keysOf key control pairs).count (some k) = (withKey key k control test pairs).length := by
  rw [keysOf, List.count, List.countP_map, withKey, ← List.countP_eq_length_filter]
  apply List.countP_congr
  rintro ⟨c, t⟩ hpair
  obtain ⟨a, b, ha, hb, hkey⟩ := h.agree hpair
  simp [mem_positions, ha, hb, ← hkey]

/-- A pairing with as many pairs of every key as there can be has as many pairs as there can be. -/
theorem length_le_of_withKey {others : List (Nat × Nat)} (h : PairsUp key control test pairs)
    (hfull : ∀ k, (withKey key k control test pairs).length =
      min (control.countP fun e => key e = k) (test.countP fun e => key e = k))
    (hothers : PairsUp key control test others) : others.length ≤ pairs.length := by
  have hsub : (keysOf key control others).Subperm (keysOf key control pairs) := by
    rw [List.subperm_ext_iff]
    intro name hname
    obtain ⟨⟨c, t⟩, hpair, rfl⟩ := List.mem_map.mp hname
    obtain ⟨a, b, ha, -, -⟩ := hothers.agree hpair
    simp only [ha, Option.map_some]
    rw [count_keysOf h, count_keysOf hothers, hfull]
    exact length_withKey_le hothers.toOneToOne (key a)
  simpa [keysOf] using hsub.length_le

/-- In a matching nobody is paired twice. -/
theorem oneToOne_pairs (selectors : List Selector) (control test : List Element) :
    OneToOne (ofChildren selectors control test).pairs where
  nodup_fst := nodup_fst_pairs _
  nodup_snd := by
    rw [map_snd_pairs]
    exact (pairing_ofChildren selectors control test).2.nodup

/-! ## What a selector leaves -/

variable {accepts : Selector} {selectors : List Selector} {j : Nat}

/-- If a selector accepts all children with equal keys, and up to it only such children are
accepted, then behind it the children with a key on one side are used up. -/
theorem used_up_of_selector (hselector : selectors[j]? = some accepts)
    (haccepts : ∀ a b, key a = key b → accepts a b = true)
    (hearlier : ∀ i ≤ j, ∀ earlier, selectors[i]? = some earlier →
      ∀ a b, earlier a b = true → key a = key b) (k : κ) :
    (∀ c ∈ positions key k control, ∃ t ∈ positions key k test, ∃ i ≤ j,
      PairedBy selectors control test i c t) ∨
    ∀ t ∈ positions key k test, ∃ c ∈ positions key k control, ∃ i ≤ j,
      PairedBy selectors control test i c t := by
  -- What one of these selectors has paired has equal keys.
  have hagree : ∀ {i c t}, i ≤ j → PairedBy selectors control test i c t →
      (c ∈ positions key k control ↔ t ∈ positions key k test) := by
    intro i c t hi hpaired
    obtain ⟨earlier, a, b, hearlierSelector, ha, hb, hab⟩ := hpaired.accepted
    simp [mem_positions, ha, hb, hearlier i hi earlier hearlierSelector a b hab]
  by_cases hall : ∀ c ∈ positions key k control,
      (afterFirst selectors control test (j + 1)).partner? c ≠ none
  · refine .inl fun c hc => ?_
    obtain ⟨t, hpartner⟩ := Option.ne_none_iff_exists'.mp (hall c hc)
    obtain ⟨i, hi, hpaired⟩ := exists_pairedBy_of_afterFirst hpartner
    have hi := Nat.le_of_lt_succ hi
    exact ⟨t, (hagree hi hpaired).mp hc, i, hi, hpaired⟩
  · refine .inr fun t ht => ?_
    simp only [ne_eq, not_forall, not_not] at hall
    obtain ⟨c, hc, hnone⟩ := hall
    obtain ⟨a, ha, hka⟩ := mem_positions.mp hc
    obtain ⟨b, hb, hkb⟩ := mem_positions.mp ht
    obtain ⟨i, hi, other, -, hpaired⟩ := exists_pairedBy_of_accepted hselector ha hb
      (haccepts a b (hka.trans hkb.symm)) hnone
    exact ⟨other, (hagree hi hpaired).mpr ht, i, hi, hpaired⟩

/-- Then there are as many pairs with a key as there are children with it on the side that has fewer
of them. -/
theorem length_withKey_of_selector (hselector : selectors[j]? = some accepts)
    (haccepts : ∀ a b, key a = key b → accepts a b = true)
    (hearlier : ∀ i ≤ j, ∀ earlier, selectors[i]? = some earlier →
      ∀ a b, earlier a b = true → key a = key b) (k : κ) :
    (withKey key k control test (ofChildren selectors control test).pairs).length =
      min (control.countP fun e => key e = k) (test.countP fun e => key e = k) := by
  apply length_withKey (oneToOne_pairs selectors control test)
  rcases used_up_of_selector hselector haccepts hearlier k with hfull | hfull
  · refine .inl fun c hc => ?_
    obtain ⟨t, ht, i, -, hpaired⟩ := hfull c hc
    exact ⟨t, ht, partner?_eq_some_iff.mp hpaired.partner?⟩
  · refine .inr fun t ht => ?_
    obtain ⟨c, hc, i, -, hpaired⟩ := hfull t ht
    exact ⟨c, hc, partner?_eq_some_iff.mp hpaired.partner?⟩

end Keys

/-- Of each name with a text there are as many pairs in the standard matching as there can be. -/
theorem length_withNameAndText (control test : List Element) (key : ExpandedName × Option String) :
    (withKey Element.nameAndText key control test
        (ofChildren Selector.standard control test).pairs).length =
      min (control.countP (·.nameAndText = key)) (test.countP (·.nameAndText = key)) := by
  apply length_withKey_of_selector
    (show Selector.standard[0]? = some Selector.byNameAndText from rfl)
  · exact fun a b => (Element.byNameAndText_iff_nameAndText a b).mpr
  · intro i hi earlier hearlier a b hab
    obtain rfl := Nat.le_zero.mp hi
    obtain rfl := Option.some.inj hearlier
    exact (Element.byNameAndText_iff_nameAndText a b).mp hab

/-- In the standard matching nobody is paired twice, and children are paired only with children of
their name. Of each name, and of each name with a text, there are as many pairs as there are
children on the side that has fewer of them. No other pairing by names has more pairs. -/
theorem standard_matching_is_maximum (control test : List Element) :
    PairsUp Element.expanded control test (ofChildren Selector.standard control test).pairs ∧
    (∀ name, (withKey Element.expanded name control test
        (ofChildren Selector.standard control test).pairs).length =
      min (control.countP (·.expanded = name)) (test.countP (·.expanded = name))) ∧
    (∀ key, (withKey Element.nameAndText key control test
        (ofChildren Selector.standard control test).pairs).length =
      min (control.countP (·.nameAndText = key)) (test.countP (·.nameAndText = key))) ∧
    ∀ others, PairsUp Element.expanded control test others →
      others.length ≤ (ofChildren Selector.standard control test).pairs.length := by
  have hname : ∀ accepts ∈ Selector.standard, ∀ a b, accepts a b = true →
      a.expanded = b.expanded := by
    intro accepts hmem a b haccepts
    rcases List.mem_cons.mp hmem with rfl | hmem
    · exact (Selector.byNameAndText_iff.mp haccepts).1
    · obtain rfl := List.mem_singleton.mp hmem
      exact of_decide_eq_true haccepts
  have hpairs : PairsUp Element.expanded control test
      (ofChildren Selector.standard control test).pairs := by
    refine ⟨oneToOne_pairs Selector.standard control test, fun {c t} hpair => ?_⟩
    obtain ⟨accepts, hmem, a, b, ha, hb, haccepts⟩ :=
      exists_accepted (partner?_eq_some_iff.mpr hpair)
    exact ⟨a, b, ha, hb, hname accepts hmem a b haccepts⟩
  have hnames : ∀ name, (withKey Element.expanded name control test
      (ofChildren Selector.standard control test).pairs).length =
        min (control.countP (·.expanded = name)) (test.countP (·.expanded = name)) := by
    apply length_withKey_of_selector (show Selector.standard[1]? = some Selector.byName from rfl)
    · simp [Selector.byName]
    · exact fun i _ earlier hearlier => hname earlier (List.mem_of_getElem? hearlier)
  exact ⟨hpairs, hnames, length_withNameAndText control test,
    fun others => length_le_of_withKey hpairs hnames⟩

end XmlCompare.Matching
