import XmlCompare.Proofs.Compare.Maximum

/-!
# Pairing in sequence

In a pass the search for a partner begins behind the test child that was taken last and wraps
around. So of the test children that are left it comes first to those behind that place. Children of
one name and text are paired first with first, second with second, unless one of them begins its
search behind its own counterpart, but in front of a later one. Where all children that have a
counterpart keep their order, every search begins in front of the counterpart, and nobody is passed
over.
-/

set_option autoImplicit false

namespace XmlCompare.Matching

variable {accepts : Selector} {control test : List Element} {a : Element} {c : Nat}

/-! ## The search -/

/-- A search that begins at `cursor` and wraps around comes to `i` no later than to `j`. -/
def Precedes (cursor i j : Nat) : Prop :=
  (cursor ≤ i ∧ (i ≤ j ∨ j < cursor)) ∨ (j < cursor ∧ i ≤ j)

/-- A search comes to the free children in the order in which it goes around. -/
theorem pairwise_searchOrder {cursor : Nat} {free : List (Element × Nat)}
    (h : free.Pairwise (·.2 < ·.2)) :
    (searchOrder cursor free).Pairwise fun x y => Precedes cursor x.2 y.2 := by
  rw [searchOrder, List.pairwise_append]
  refine ⟨?_, ?_, ?_⟩
  · refine (h.sublist List.filter_sublist).imp_of_mem fun {x y} hx _ hlt => ?_
    have hx := of_decide_eq_true (List.mem_filter.mp hx).2
    exact .inl ⟨hx, .inl (Nat.le_of_lt hlt)⟩
  · refine (h.sublist List.filter_sublist).imp_of_mem fun {x y} _ hy hlt => ?_
    have hy := of_decide_eq_true (List.mem_filter.mp hy).2
    exact .inr ⟨hy, Nat.le_of_lt hlt⟩
  · intro x hx y hy
    have hx := of_decide_eq_true (List.mem_filter.mp hx).2
    have hy := of_decide_eq_true (List.mem_filter.mp hy).2
    exact .inl ⟨hx, .inr hy⟩

/-- What is chosen comes before all else that is accepted. -/
theorem precedes_of_choose {cursor t : Nat} {free : List (Element × Nat)}
    (hsorted : free.Pairwise (·.2 < ·.2)) (h : choose accepts cursor free a = some t) :
    ∀ candidate ∈ free, accepts a candidate.1 = true → Precedes cursor t candidate.2 := by
  intro candidate hmem haccepts
  obtain ⟨chosen, hfind, rfl⟩ := Option.map_eq_some_iff.mp h
  obtain ⟨-, before, behind, hsplit, hbefore⟩ := List.find?_eq_some_iff_append.mp hfind
  have horder : (searchOrder cursor free).Pairwise fun x y => Precedes cursor x.2 y.2 :=
    pairwise_searchOrder hsorted
  have hsearched : candidate ∈ searchOrder cursor free := mem_searchOrder.mpr hmem
  rw [hsplit] at horder hsearched
  rcases List.mem_append.mp hsearched with hearly | hlate
  · have hrejected := hbefore candidate hearly
    rw [haccepts] at hrejected
    cases hrejected
  · rcases List.mem_cons.mp hlate with rfl | hbehind
    · exact (Nat.lt_or_ge candidate.2 cursor).elim (fun hlt => .inr ⟨hlt, Nat.le_refl _⟩)
        fun hge => .inl ⟨hge, .inl (Nat.le_refl _)⟩
    · exact (List.pairwise_cons.mp (List.pairwise_append.mp horder).2.1).1 candidate hbehind

/-! ## The first pass -/

/-- Where a search begins that began at `cursor` before some children got their partners: behind the
one that was taken last. -/
def cursorBehind (cursor : Nat) (partners : List (Option Nat)) : Nat :=
  partners.reduceOption.getLast?.elim cursor (· + 1)

/-- Without partners the search begins where it began. -/
theorem cursorBehind_nil (cursor : Nat) : cursorBehind cursor [] = cursor := rfl

/-- A child without partner does not move the search. -/
theorem cursorBehind_cons_none (cursor : Nat) (partners : List (Option Nat)) :
    cursorBehind cursor (none :: partners) = cursorBehind cursor partners := rfl

/-- A partner moves the search behind it. -/
theorem cursorBehind_cons_some (cursor i : Nat) (partners : List (Option Nat)) :
    cursorBehind cursor (some i :: partners) = cursorBehind (i + 1) partners := by
  rw [cursorBehind, List.reduceOption_cons_of_some, List.getLast?_cons, cursorBehind]
  cases partners.reduceOption.getLast? <;> rfl

/-- The test children that some partners leave free. -/
def leftBy (free : List (Element × Nat)) (partners : List (Option Nat)) : List (Element × Nat) :=
  free.filter fun candidate => !partners.contains (some candidate.2)

/-- Without partners all children stay free. -/
theorem leftBy_nil (free : List (Element × Nat)) : leftBy free [] = free :=
  List.filter_eq_self.mpr fun _ _ => rfl

/-- A child without partner leaves all free children free. -/
theorem leftBy_cons_none (free : List (Element × Nat)) (partners : List (Option Nat)) :
    leftBy free (none :: partners) = leftBy free partners := by
  apply List.filter_congr
  intro candidate _
  simp

/-- A partner is free no longer. -/
theorem leftBy_cons_some (free : List (Element × Nat)) (i : Nat) (partners : List (Option Nat)) :
    leftBy free (some i :: partners) = leftBy (free.filter (·.2 ≠ i)) partners := by
  rw [leftBy, leftBy, List.filter_filter]
  apply List.filter_congr
  intro candidate _
  by_cases hi : candidate.2 = i <;> simp [hi]

/-- In a pass over children without partners a child chooses among what those before have left. -/
theorem getElem?_pass {cursor c : Nat} {free : List (Element × Nat)} {children : List Element}
    {after : List (Option Nat)}
    (hafter : pass accepts cursor free (children.map fun e => (e, none)) = after)
    (ha : children[c]? = some a) :
    after[c]? = some (choose accepts (cursorBehind cursor (after.take c))
      (leftBy free (after.take c)) a) := by
  induction children generalizing cursor free c after with
  | nil => cases ha
  | cons child rest ih =>
    rw [List.map_cons, pass] at hafter
    cases c with
    | zero =>
      obtain rfl : child = a := Option.some.inj ha
      rw [List.take_zero, leftBy_nil, cursorBehind_nil]
      cases hchoose : choose accepts cursor free child with
      | none =>
        rw [hchoose] at hafter
        exact hafter ▸ rfl
      | some i =>
        rw [hchoose] at hafter
        exact hafter ▸ rfl
    | succ c =>
      cases hchoose : choose accepts cursor free child with
      | none =>
        rw [hchoose] at hafter
        obtain rfl := hafter
        rw [List.getElem?_cons_succ, List.take_succ_cons, cursorBehind_cons_none, leftBy_cons_none]
        exact ih rfl ha
      | some i =>
        rw [hchoose] at hafter
        obtain rfl := hafter
        rw [List.getElem?_cons_succ, List.take_succ_cons, cursorBehind_cons_some, leftBy_cons_some]
        exact ih rfl ha

/-- Where a control child begins its search, in the pass that made a matching. -/
def searchStart (m : Matching) (c : Nat) : Nat := cursorBehind 0 (m.partners.take c)

/-- A test child is among the first partners if it is the partner of an early child. -/
theorem mem_take_partners {m : Matching} {c t : Nat} :
    some t ∈ m.partners.take c ↔ ∃ d < c, m.partner? d = some t := by
  rw [List.mem_iff_getElem?]
  refine exists_congr fun d => ?_
  rw [partner?_eq_some_iff, mem_pairs, List.getElem?_take]
  split
  · simp [*]
  · simp [*]

/-- A search begins no later than at a place behind all partners of the children before. -/
theorem searchStart_le {m : Matching} {c t : Nat}
    (h : ∀ d < c, ∀ u, m.partner? d = some u → u < t) : m.searchStart c ≤ t := by
  unfold searchStart cursorBehind
  cases hlast : (m.partners.take c).reduceOption.getLast? with
  | none => exact Nat.zero_le t
  | some u =>
    have hmem := List.reduceOption_mem_iff.mp (List.mem_of_getLast? hlast)
    obtain ⟨d, hd, hpartner⟩ := mem_take_partners.mp hmem
    exact h d hd u hpartner

/-- What is left to a control child: no child before has taken it. -/
theorem mem_leftBy_take {m : Matching} {b : Element} {c t : Nat} :
    (b, t) ∈ leftBy test.zipIdx (m.partners.take c) ↔
      test[t]? = some b ∧ ∀ d < c, m.partner? d ≠ some t := by
  rw [leftBy, List.mem_filter, List.mem_zipIdx_iff_getElem?, Bool.not_eq_true',
    List.contains_eq_mem, decide_eq_false_iff_not, mem_take_partners]
  simp

/-- In the matching of one selector a control child gets the first child in search order that is
accepted and left to it. -/
theorem partner?_of_single (accepts : Selector) (test : List Element) (ha : control[c]? = some a) :
    (ofChildren [accepts] control test).partner? c =
      choose accepts ((ofChildren [accepts] control test).searchStart c)
        (leftBy test.zipIdx ((ofChildren [accepts] control test).partners.take c)) a := by
  have hafter : pass accepts 0 test.zipIdx (control.map fun e => (e, none)) =
      (ofChildren [accepts] control test).partners := (refine_none control test accepts).symm
  rw [partner?, getElem?_pass hafter ha]
  rfl

/-- Of what is accepted and left to it, a child gets what comes first. -/
theorem exists_precedes {b : Element} {t : Nat} (ha : control[c]? = some a)
    (hb : test[t]? = some b) (haccepts : accepts a b = true)
    (hleft : ∀ d < c, (ofChildren [accepts] control test).partner? d ≠ some t) :
    ∃ chosen, (ofChildren [accepts] control test).partner? c = some chosen ∧
      Precedes ((ofChildren [accepts] control test).searchStart c) chosen t := by
  have hmem := mem_leftBy_take.mpr ⟨hb, hleft⟩
  have hpartner := partner?_of_single accepts test ha
  cases hchoose : (ofChildren [accepts] control test).partner? c with
  | none =>
    rw [hchoose] at hpartner
    rw [choose_eq_none_iff.mp hpartner.symm _ hmem] at haccepts
    cases haccepts
  | some chosen =>
    rw [hchoose] at hpartner
    have hsorted := pairwise_zipIdx test
    have hleast := precedes_of_choose (hsorted.sublist List.filter_sublist) hpartner.symm
    exact ⟨chosen, rfl, hleast _ hmem haccepts⟩

/-! ## Lanes -/

/-- Control and test positions in order. A child at one of them is accepted only with a child at one
of the others, and children at the same place in the two lists are accepted. -/
structure Lanes (accepts : Selector) (control test : List Element) (cs ts : List Nat) : Prop where
  sorted_control : cs.Pairwise (· < ·)
  sorted_test : ts.Pairwise (· < ·)
  mem_iff {c t : Nat} {a b : Element} : control[c]? = some a → test[t]? = some b →
    accepts a b = true → (c ∈ cs ↔ t ∈ ts)
  accepted {i c t : Nat} : cs[i]? = some c → ts[i]? = some t →
    ∃ a b, control[c]? = some a ∧ test[t]? = some b ∧ accepts a b = true

/-- In an increasing list, what stands earlier is smaller. -/
theorem lt_iff_of_sorted {l : List Nat} (h : l.Pairwise (· < ·)) {i j x y : Nat}
    (hx : l[i]? = some x) (hy : l[j]? = some y) : i < j ↔ x < y := by
  obtain ⟨hi, rfl⟩ := List.getElem?_eq_some_iff.mp hx
  obtain ⟨hj, rfl⟩ := List.getElem?_eq_some_iff.mp hy
  have hlt := List.pairwise_iff_getElem.mp h
  constructor
  · exact hlt i j hi hj
  · intro hxy
    by_contra hge
    rcases Nat.lt_or_eq_of_le (Nat.not_lt.mp hge) with hji | rfl
    · exact Nat.lt_asymm hxy (hlt j i hj hi hji)
    · exact Nat.lt_irrefl _ hxy

/-- Children at the same place in two lists of positions are partners. -/
def InSequence (m : Matching) (cs ts : List Nat) : Prop :=
  ∀ i c t : Nat, cs[i]? = some c → ts[i]? = some t → m.partner? c = some t

/-- A child begins its search behind the one at the same place, but not behind all later ones. -/
def Overtakes (m : Matching) (cs ts : List Nat) : Prop :=
  ∃ i c t : Nat, cs[i]? = some c ∧ ts[i]? = some t ∧ t < m.searchStart c ∧
    ∃ later ∈ ts, m.searchStart c ≤ later

variable {cs ts : List Nat}

/-- If the children before have got their counterparts, a child gets its own, unless its search
begins behind that one, but in front of a later one. -/
theorem Lanes.partner?_of_before (h : Lanes accepts control test cs ts) {i t : Nat}
    (hc : cs[i]? = some c) (ht : ts[i]? = some t)
    (hbefore : ∀ j < i, ∀ d u, cs[j]? = some d → ts[j]? = some u →
      (ofChildren [accepts] control test).partner? d = some u)
    (hstart : ¬ (t < (ofChildren [accepts] control test).searchStart c ∧
      ∃ later ∈ ts, (ofChildren [accepts] control test).searchStart c ≤ later)) :
    (ofChildren [accepts] control test).partner? c = some t := by
  obtain ⟨a, b, ha, hb, hab⟩ := h.accepted hc ht
  -- Children before have counterparts before, so what they have got is known.
  have hcounterpart : ∀ j < i, ∃ d u, cs[j]? = some d ∧ ts[j]? = some u ∧
      (ofChildren [accepts] control test).partner? d = some u := by
    intro j hj
    have hjc := Nat.lt_trans hj (List.getElem?_eq_some_iff.mp hc).1
    have hjt := Nat.lt_trans hj (List.getElem?_eq_some_iff.mp ht).1
    exact ⟨_, _, List.getElem?_eq_getElem hjc, List.getElem?_eq_getElem hjt,
      hbefore j hj _ _ (List.getElem?_eq_getElem hjc) (List.getElem?_eq_getElem hjt)⟩
  have hleft : ∀ d < c, (ofChildren [accepts] control test).partner? d ≠ some t := by
    intro d hd hpartner
    obtain ⟨a', b', ha', hb', hab'⟩ := accepted_of_single hpartner
    obtain ⟨j, hj⟩ := List.mem_iff_getElem?.mp
      ((h.mem_iff ha' hb' hab').mpr (List.mem_of_getElem? ht))
    have hji := (lt_iff_of_sorted h.sorted_control hj hc).mpr hd
    obtain ⟨d', u, hd', hu, hpartner'⟩ := hcounterpart j hji
    obtain rfl : d' = d := Option.some.inj (hd'.symm.trans hj)
    obtain rfl : u = t := Option.some.inj (hpartner'.symm.trans hpartner)
    exact Nat.lt_irrefl u ((lt_iff_of_sorted h.sorted_test hu ht).mp hji)
  obtain ⟨chosen, hpartner, hprecedes⟩ := exists_precedes ha hb hab hleft
  obtain ⟨a', b', ha', hb', hab'⟩ := accepted_of_single hpartner
  have hmem : chosen ∈ ts := (h.mem_iff ha' hb' hab').mp (List.mem_of_getElem? hc)
  have hge : t ≤ chosen := by
    by_contra hlt
    obtain ⟨j, hj⟩ := List.mem_iff_getElem?.mp hmem
    have hji := (lt_iff_of_sorted h.sorted_test hj ht).mpr (Nat.not_le.mp hlt)
    obtain ⟨d, u, hd, hu, hpartner'⟩ := hcounterpart j hji
    obtain rfl : u = chosen := Option.some.inj (hu.symm.trans hj)
    obtain rfl := eq_of_partner? hpartner hpartner'
    exact Nat.lt_irrefl c ((lt_iff_of_sorted h.sorted_control hd hc).mp hji)
  have hle : chosen ≤ t := by
    by_contra hgt
    unfold Precedes at hprecedes
    exact hstart ⟨by omega, chosen, hmem, by omega⟩
  rw [hpartner, Nat.le_antisymm hle hge]

/-- Where all children of a lane are accepted with each other, they are paired in sequence exactly
if none begins its search behind its own counterpart, but in front of a later one. -/
theorem Lanes.inSequence_iff (h : Lanes accepts control test cs ts)
    (hlength : cs.length = ts.length)
    (hall : ∀ c ∈ cs, ∀ t ∈ ts, ∀ a b, control[c]? = some a → test[t]? = some b →
      accepts a b = true) : InSequence (ofChildren [accepts] control test) cs ts ↔
        ¬ Overtakes (ofChildren [accepts] control test) cs ts := by
  constructor
  · rintro hpartners ⟨i, c, t, hc, ht, hlt, later, hlater, hle⟩
    obtain ⟨j, hj⟩ := List.mem_iff_getElem?.mp hlater
    obtain ⟨d, hd⟩ : ∃ d, cs[j]? = some d :=
      ⟨_, List.getElem?_eq_getElem (hlength ▸ (List.getElem?_eq_some_iff.mp hj).1)⟩
    have hcd : c < d := (lt_iff_of_sorted h.sorted_control hc hd).mp
      ((lt_iff_of_sorted h.sorted_test ht hj).mpr (Nat.lt_of_lt_of_le hlt hle))
    obtain ⟨a, -, ha, -, -⟩ := h.accepted hc ht
    obtain ⟨-, b, -, hb, -⟩ := h.accepted hd hj
    -- The later one is left to this child, since a later child has got it.
    have hleft : ∀ e < c, (ofChildren [accepts] control test).partner? e ≠ some later := by
      intro e he hpartner
      obtain rfl := eq_of_partner? hpartner (hpartners j d later hd hj)
      exact Nat.lt_asymm hcd he
    obtain ⟨chosen, hpartner, hprecedes⟩ := exists_precedes ha hb
      (hall c (List.mem_of_getElem? hc) later hlater a b ha hb) hleft
    obtain rfl : chosen = t := Option.some.inj (hpartner.symm.trans (hpartners i c t hc ht))
    unfold Precedes at hprecedes
    omega
  · intro hstart i
    induction i using Nat.strongRecOn with
    | ind i ih =>
      exact fun c t hc ht => h.partner?_of_before hc ht ih fun hover =>
        hstart ⟨i, c, t, hc, ht, hover⟩

/-- Where a lane holds all children that are accepted with any, they are paired in sequence. -/
theorem Lanes.inSequence_of_all (h : Lanes accepts control test cs ts)
    (hall : ∀ (c t : Nat) (a b : Element), control[c]? = some a → test[t]? = some b →
      accepts a b = true → c ∈ cs) :
    InSequence (ofChildren [accepts] control test) cs ts := by
  intro i c t hc ht
  induction i using Nat.strongRecOn generalizing c t with
  | ind i ih =>
    refine h.partner?_of_before hc ht (fun j hj d u => ih j hj d u) ?_
    rintro ⟨hlt, -⟩
    refine Nat.not_le.mpr hlt (searchStart_le fun d hd u hpartner => ?_)
    obtain ⟨a, b, ha, hb, hab⟩ := accepted_of_single hpartner
    obtain ⟨j, hj⟩ := List.mem_iff_getElem?.mp (hall d u a b ha hb hab)
    have hji := (lt_iff_of_sorted h.sorted_control hj hc).mpr hd
    have hu := List.getElem?_eq_getElem
      (Nat.lt_trans hji (List.getElem?_eq_some_iff.mp ht).1)
    obtain rfl := Option.some.inj (hpartner.symm.trans (ih j hji d _ hj hu))
    exact (lt_iff_of_sorted h.sorted_test hu ht).mp hji

/-! ## Children with equal keys -/

section Keys

variable {κ : Type} [DecidableEq κ] {key : Element → κ} {k : κ}

/-- The positions of one key on both sides are lanes. -/
theorem lanes_positions (hkey : ∀ a b, accepts a b = true ↔ key a = key b) (k : κ) :
    Lanes accepts control test (positions key k control) (positions key k test) where
  sorted_control := List.pairwise_findIdxs
  sorted_test := List.pairwise_findIdxs
  mem_iff {c t a b} ha hb hab := by
    simp [mem_positions, ha, hb, (hkey a b).mp hab]
  accepted {i c t} hc ht := by
    obtain ⟨a, ha, hka⟩ := mem_positions.mp (List.mem_of_getElem? hc)
    obtain ⟨b, hb, hkb⟩ := mem_positions.mp (List.mem_of_getElem? ht)
    exact ⟨a, b, ha, hb, (hkey a b).mpr (hka.trans hkb.symm)⟩

/-- The positions of the children whose key occurs among the others. -/
def sharedPositions (key : Element → κ) (children others : List Element) : List Nat :=
  (children.map key).findIdxs fun k => k ∈ others.map key

/-- Their keys, in order. -/
def sharedKeys (key : Element → κ) (children others : List Element) : List κ :=
  (children.map key).filter fun k => k ∈ others.map key

/-- A child is at a shared position if its key occurs on the other side. -/
theorem mem_sharedPositions {children others : List Element} {i : Nat} {e : Element}
    (he : children[i]? = some e) :
    i ∈ sharedPositions key children others ↔ key e ∈ others.map key := by
  obtain ⟨hi, rfl⟩ := List.getElem?_eq_some_iff.mp he
  simp [sharedPositions, hi]

/-- At a shared position stands a child with the key that is listed there. -/
theorem getElem?_sharedPositions {children others : List Element} {i c : Nat}
    (h : (sharedPositions key children others)[i]? = some c) :
    ∃ e, children[c]? = some e ∧ (sharedKeys key children others)[i]? = some (key e) := by
  obtain ⟨hi, rfl⟩ := List.getElem?_eq_some_iff.mp h
  have hlength : i < (sharedKeys key children others).length := by
    rw [sharedKeys, ← List.countP_eq_length_filter, ← List.length_findIdxs]
    exact hi
  have hc : (sharedPositions key children others)[i] < children.length := by
    have hlt := List.getElem_findIdxs_lt hi
    rw [List.length_map, Nat.add_zero] at hlt
    exact hlt
  refine ⟨_, List.getElem?_eq_getElem hc, ?_⟩
  rw [List.getElem?_eq_getElem hlength]
  simp only [sharedKeys, List.getElem_filter_eq_getElem_getElem_findIdxs, List.getElem_map]
  rfl

/-- The shared positions are lanes if the shared keys come in the same order. -/
theorem lanes_sharedPositions (hkey : ∀ a b, accepts a b = true ↔ key a = key b)
    (horder : sharedKeys key control test = sharedKeys key test control) :
    Lanes accepts control test (sharedPositions key control test)
      (sharedPositions key test control) where
  sorted_control := List.pairwise_findIdxs
  sorted_test := List.pairwise_findIdxs
  mem_iff {c t a b} ha hb hab := by
    have hab := (hkey a b).mp hab
    rw [mem_sharedPositions ha, mem_sharedPositions hb]
    exact iff_of_true (List.mem_map.mpr ⟨b, List.mem_of_getElem? hb, hab.symm⟩)
      (List.mem_map.mpr ⟨a, List.mem_of_getElem? ha, hab⟩)
  accepted {i c t} hc ht := by
    obtain ⟨a, ha, hka⟩ := getElem?_sharedPositions hc
    obtain ⟨b, hb, hkb⟩ := getElem?_sharedPositions ht
    rw [horder, hkb] at hka
    exact ⟨a, b, ha, hb, (hkey a b).mpr (Option.some.inj hka).symm⟩

/-- Of children that it accepts, the first selector makes all the pairs there are at last. -/
theorem partner?_iff_of_single {selectors : List Selector} {b : Element} {t : Nat}
    (ha : control[c]? = some a) (hb : test[t]? = some b) (haccepts : accepts a b = true) :
    (ofChildren (accepts :: selectors) control test).partner? c = some t ↔
      (ofChildren [accepts] control test).partner? c = some t := by
  have hfirst : afterFirst (accepts :: selectors) control test 1 =
      ofChildren [accepts] control test := rfl
  have hlast : afterFirst (accepts :: selectors) control test (accepts :: selectors).length =
      ofChildren (accepts :: selectors) control test := afterFirst_of_length_le (Nat.le_refl _)
  have hkept : ∀ {u}, (ofChildren [accepts] control test).partner? c = some u →
      (ofChildren (accepts :: selectors) control test).partner? c = some u := by
    intro u hu
    rw [← hlast]
    exact partner?_afterFirst_mono (Nat.le_add_left _ _) (hfirst ▸ hu)
  refine ⟨fun hpartner => ?_, hkept⟩
  cases hsingle : (ofChildren [accepts] control test).partner? c with
  | some u => rw [← hpartner, hkept hsingle]
  | none =>
    -- What is accepted for a child that stays alone is taken by another one for good.
    obtain ⟨i, -, other, hne, hpaired⟩ := exists_pairedBy_of_accepted
      (show (accepts :: selectors)[0]? = some accepts from rfl) ha hb haccepts (hfirst ▸ hsingle)
    exact absurd (eq_of_partner? hpaired.partner? hpartner) hne

/-- Whether children in lanes are partners in sequence depends on the first selector only. -/
theorem Lanes.inSequence_iff_of_single (h : Lanes accepts control test cs ts)
    (selectors : List Selector) :
    InSequence (ofChildren (accepts :: selectors) control test) cs ts ↔
      InSequence (ofChildren [accepts] control test) cs ts := by
  refine forall_congr' fun i => forall₂_congr fun c t => forall₂_congr fun hc ht => ?_
  obtain ⟨a, b, ha, hb, hab⟩ := h.accepted hc ht
  exact partner?_iff_of_single ha hb hab

end Keys

/-- For the standard matching and a name with a text that occurs equally often on both sides: every
control child with it gets a test child with it for a partner. They are paired first with first,
second with second and so on, exactly if in the pass by names and texts none of them begins its
search behind its own counterpart, but in front of a later one. If the children that occur on both
sides come in the same order, all of them are paired in sequence. -/
theorem siblings_pair_in_sequence (control test : List Element) :
    (∀ key, control.countP (·.nameAndText = key) = test.countP (·.nameAndText = key) →
      (∀ c ∈ positions Element.nameAndText key control,
        ∃ t ∈ positions Element.nameAndText key test,
          (ofChildren Selector.standard control test).partner? c = some t) ∧
      (InSequence (ofChildren Selector.standard control test)
          (positions Element.nameAndText key control) (positions Element.nameAndText key test) ↔
        ¬ Overtakes (ofChildren [Selector.byNameAndText] control test)
          (positions Element.nameAndText key control) (positions Element.nameAndText key test))) ∧
    (sharedKeys Element.nameAndText control test = sharedKeys Element.nameAndText test control →
      InSequence (ofChildren Selector.standard control test)
        (sharedPositions Element.nameAndText control test)
        (sharedPositions Element.nameAndText test control)) := by
  have hkey := Element.byNameAndText_iff_nameAndText
  constructor
  · intro key hcount
    have hlanes : Lanes Selector.byNameAndText control test
        (positions Element.nameAndText key control) (positions Element.nameAndText key test) :=
      lanes_positions hkey key
    constructor
    · intro c hc
      have hlength := length_withNameAndText control test key
      rw [← hcount, Nat.min_self, ← length_positions] at hlength
      obtain ⟨t, ht, hpair⟩ := exists_pair_of_length_le
        (oneToOne_pairs Selector.standard control test) (Nat.le_of_eq hlength.symm) c hc
      exact ⟨t, ht, partner?_eq_some_iff.mpr hpair⟩
    · rw [Selector.standard, hlanes.inSequence_iff_of_single]
      refine hlanes.inSequence_iff ?_ ?_
      · rw [length_positions, length_positions, hcount]
      · intro c hc t ht a b ha hb
        obtain ⟨a', ha', hka⟩ := mem_positions.mp hc
        obtain ⟨b', hb', hkb⟩ := mem_positions.mp ht
        obtain rfl := Option.some.inj (ha.symm.trans ha')
        obtain rfl := Option.some.inj (hb.symm.trans hb')
        exact (hkey a b).mpr (hka.trans hkb.symm)
  · intro horder
    have hlanes := lanes_sharedPositions hkey horder
    rw [Selector.standard, hlanes.inSequence_iff_of_single]
    refine hlanes.inSequence_of_all fun c t a b ha hb hab => ?_
    rw [mem_sharedPositions ha]
    exact List.mem_map.mpr ⟨b, List.mem_of_getElem? hb, ((hkey a b).mp hab).symm⟩

/-- An empty item of a list on one line. -/
def emptyItem (name : String) (ordinal : Nat) : Element :=
  .mk ⟨name, .bare name, ⟨[⟨"r", 1⟩, ⟨name, ordinal⟩]⟩, .between 1 1, .empty, .empty⟩ []

/-- Two items of one name with another one in front of them. -/
def itemInFront : List Element := [emptyItem "x" 1, emptyItem "a" 1, emptyItem "a" 2]

/-- Two items of one name with another one between them. -/
def itemBetween : List Element := [emptyItem "a" 1, emptyItem "x" 1, emptyItem "a" 2]

/-- Two items of one name with another one behind them. -/
def itemBehind : List Element := [emptyItem "a" 1, emptyItem "a" 2, emptyItem "x" 1]

/-- An item between two others has moved behind them. The second of the two begins its search behind
all test children, and so comes to the first one again, which is taken, and to its own. -/
theorem in_sequence_of_moved_item :
    InSequence (ofChildren Selector.standard itemBetween itemBehind)
      (positions Element.nameAndText (.bare "a", none) itemBetween)
      (positions Element.nameAndText (.bare "a", none) itemBehind) := by
  have hcontrol : positions Element.nameAndText (.bare "a", none) itemBetween = [0, 2] := by
    decide
  have htest : positions Element.nameAndText (.bare "a", none) itemBehind = [0, 1] := by
    decide
  have hfirst : (ofChildren [Selector.byNameAndText] itemBetween itemBehind).searchStart 0 = 0 := by
    decide
  have hsecond :
      (ofChildren [Selector.byNameAndText] itemBetween itemBehind).searchStart 2 = 3 := by
    decide
  have hcount : itemBetween.countP (·.nameAndText = (.bare "a", none)) =
      itemBehind.countP (·.nameAndText = (.bare "a", none)) := by decide
  refine ((siblings_pair_in_sequence itemBetween itemBehind).1 _ hcount).2.mpr ?_
  rw [hcontrol, htest]
  rintro ⟨i, c, t, hc, ht, hlt, later, hlater, hle⟩
  rcases i with _ | _ | i
  · cases hc
    rw [hfirst] at hlt
    exact Nat.not_lt_zero t hlt
  · cases hc
    rw [hsecond] at hle
    simp only [List.mem_cons, List.not_mem_nil, or_false] at hlater
    omega
  · simp at hc

/-- An item in front of two others has moved between them. The first of the two begins its search
behind that item, and so gets the second one. -/
theorem out_of_sequence : ¬ ∀ (control test : List Element) (key : ExpandedName × Option String),
    control.countP (·.nameAndText = key) = test.countP (·.nameAndText = key) →
      InSequence (ofChildren Selector.standard control test)
        (positions Element.nameAndText key control)
        (positions Element.nameAndText key test) := by
  intro h
  have hcount : itemInFront.countP (·.nameAndText = (.bare "a", none)) =
      itemBetween.countP (·.nameAndText = (.bare "a", none)) := by decide
  have hpartner := h itemInFront itemBetween (.bare "a", none) hcount 0 1 0 (by decide)
    (by decide)
  have hother : (ofChildren Selector.standard itemInFront itemBetween).partner? 1 = some 2 := by
    decide
  cases hother.symm.trans hpartner

end XmlCompare.Matching
