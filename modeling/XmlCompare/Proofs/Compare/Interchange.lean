import XmlCompare.Proofs.Compare.Deletion
import XmlCompare.Proofs.Compare.Priority

/-!
# Interchangeable siblings

A selector that accepts children with equal keys takes, with every control child, one test child of
the same key away. So of the control children with a key as many stay alone as there are more of
them than of free test children with it, in whatever order either side stands. If each key occurs
equally often on both sides then nobody stays alone.

Which of several siblings with one name and one text a control child gets is another matter. It does
not show where such siblings are similar, since what is similar to one of them is similar to all.
-/

set_option autoImplicit false

namespace XmlCompare

namespace Matching

/-- Taking a position away takes one free child away. -/
theorem perm_cons_filter {free : List (Element × Nat)} (hnodup : (free.map Prod.snd).Nodup)
    {test : Element} {i : Nat} (h : (test, i) ∈ free) :
    free.Perm ((test, i) :: free.filter (·.2 ≠ i)) := by
  obtain ⟨before, after, rfl⟩ := List.append_of_mem h
  have hne : ∀ candidate ∈ before ++ after, candidate.2 ≠ i := by
    intro candidate hmem heq
    rw [List.map_append, List.map_cons, List.nodup_middle, List.nodup_cons] at hnodup
    apply hnodup.1
    rw [← List.map_append]
    exact List.mem_map.mpr ⟨candidate, hmem, heq⟩
  have hkept : (before ++ (test, i) :: after).filter (fun candidate => decide (candidate.2 ≠ i)) =
      before ++ after := by
    rw [List.filter_append, List.filter_cons_of_neg (by simp), ← List.filter_append,
      List.filter_eq_self]
    intro candidate hmem
    exact decide_eq_true (hne candidate hmem)
  rw [hkept]
  exact List.perm_middle

section Keys

variable {κ : Type} [DecidableEq κ] {key : Element → κ} {accepts : Selector}

/-- Of the children with a key that have no partner, a pass leaves as many alone as there are more
of them than of free test children with that key. -/
theorem countP_unpaired_pass
    (hkey : ∀ control test, accepts control test = true ↔ key control = key test) (k : κ)
    (cursor : Nat) (free : List (Element × Nat)) (children : List (Element × Option Nat))
    (hnodup : (free.map Prod.snd).Nodup) :
    ((children.map Prod.fst).zip (pass accepts cursor free children)).countP
        (fun child => key child.1 = k ∧ child.2 = none) =
      children.countP (fun child => key child.1 = k ∧ child.2 = none) -
        free.countP (fun candidate => key candidate.1 = k) := by
  fun_induction pass accepts cursor free children with
  | case1 => simp
  | case2 cursor free control i rest ih => simpa [List.countP_cons] using ih hnodup
  | case3 cursor free control rest i hchoose ih =>
    obtain ⟨test, hmem, haccepts⟩ := mem_of_choose hchoose
    have hcount := (perm_cons_filter hnodup hmem).countP_eq
      (fun candidate => decide (key candidate.1 = k))
    have hrest := ih (hnodup.sublist (List.filter_sublist.map Prod.snd))
    simp only [List.map_cons, List.zip_cons_cons, List.countP_cons] at hrest hcount ⊢
    rw [hrest, hcount, (hkey control test).mp haccepts]
    by_cases hk : key test = k
    · simp only [hk, true_and, reduceCtorEq, and_true, decide_false, decide_true,
        Bool.false_eq_true, if_false, if_true]
      omega
    · simp [hk]
  | case4 cursor free control rest hchoose ih =>
    have hrest := ih hnodup
    simp only [List.map_cons, List.zip_cons_cons, List.countP_cons] at hrest ⊢
    rw [hrest]
    by_cases hk : key control = k
    · -- Nothing free has the key of this child.
      have hnone : free.countP (fun candidate => decide (key candidate.1 = k)) = 0 := by
        rw [List.countP_eq_zero]
        intro candidate hmem
        have hfalse := choose_eq_none_iff.mp hchoose candidate hmem
        rw [← Bool.not_eq_true, hkey, hk] at hfalse
        simpa using Ne.symm hfalse
      simp [hk, hnone]
    · simp [hk]

variable {control test : List Element}

/-- If the keys on both sides are the same up to order, the first pass leaves nobody alone. -/
theorem refine_of_perm
    (hkey : ∀ control test, accepts control test = true ↔ key control = key test)
    (hperm : (control.map key).Perm (test.map key)) :
    ∀ partner ∈ refine control test (control.map fun _ => none) accepts, partner ≠ none := by
  rw [refine_none]
  rintro partner hmem rfl
  have hfst : (control.map fun c => (c, (none : Option Nat))).map Prod.fst = control := by
    simp [List.map_map, Function.comp_def]
  have hlength : control.length =
      (pass accepts 0 test.zipIdx (control.map fun c => (c, none))).length := by
    rw [length_pass, List.length_map]
  rw [← List.map_snd_zip (Nat.le_of_eq hlength.symm)] at hmem
  obtain ⟨⟨c, partner⟩, hchild, rfl⟩ := List.mem_map.mp hmem
  -- The child that is left alone is one with its key, but there are enough test children with it.
  have hcount := countP_unpaired_pass hkey (key c) 0 test.zipIdx (control.map fun c => (c, none))
    (by rw [List.zipIdx_map_snd]; exact List.nodup_range')
  have htest : test.zipIdx.countP (fun candidate => key candidate.1 = key c) =
      test.countP (fun e => key e = key c) := by
    have hmap := List.countP_map (p := fun e => decide (key e = key c)) (f := Prod.fst)
      (l := test.zipIdx)
    rw [List.zipIdx_map_fst] at hmap
    exact hmap.symm
  have hkeys : control.countP (fun e => key e = key c) = test.countP (fun e => key e = key c) := by
    have hcounts := hperm.countP_eq fun k => decide (k = key c)
    rwa [List.countP_map, List.countP_map] at hcounts
  rw [hfst, htest, List.countP_map, ← hkeys] at hcount
  simp only [Function.comp_def, and_true, Nat.sub_self] at hcount
  have hnot := List.countP_eq_zero.mp hcount _ hchild
  simp at hnot

/-- If the keys on both sides are the same up to order, then the first selector alone makes the
matching: every child on either side has a partner, and partners have equal keys. -/
theorem ofChildren_of_perm
    (hkey : ∀ control test, accepts control test = true ↔ key control = key test)
    (hperm : (control.map key).Perm (test.map key)) (selectors : List Selector) :
    (ofChildren (accepts :: selectors) control test).unmatchedTest = [] ∧
      ∀ child ∈ control.zip (ofChildren (accepts :: selectors) control test).partners,
        ∃ i b, child.2 = some i ∧ test[i]? = some b ∧ key child.1 = key b := by
  have hpaired := refine_of_perm hkey hperm
  have hlength : (refine control test (control.map fun _ => none) accepts).length =
      control.length := by
    rw [refine_none, length_pass, List.length_map]
  have hpartners : (ofChildren (accepts :: selectors) control test).partners =
      refine control test (control.map fun _ => none) accepts :=
    foldl_refine_of_paired hlength hpaired selectors
  have hpairing := (pairing_ofChildren (accepts :: selectors) control test).2
  rw [hpartners] at hpairing
  constructor
  · rw [List.eq_nil_iff_forall_not_mem]
    intro i hmem
    obtain ⟨hi, hnot⟩ := mem_unmatchedTest.mp hmem
    rw [hpartners] at hnot
    apply hnot
    apply mem_of_paired hpairing hpaired _ i hi
    rw [hlength]
    simpa using hperm.length_eq
  · rintro ⟨c, partner⟩ hchild
    rw [hpartners] at hchild
    cases partner with
    | none => exact absurd rfl (hpaired none (List.of_mem_zip hchild).2)
    | some i =>
      obtain ⟨position, hposition⟩ := List.mem_iff_getElem?.mp hchild
      obtain ⟨hc, hpartner⟩ := List.getElem?_zip_eq_some.mp hposition
      have hsingle : (ofChildren [accepts] control test).partner? position = some i :=
        partner?_eq_some_iff.mpr (mem_pairs.mpr hpartner)
      obtain ⟨a, b, ha, hb, haccepts⟩ := accepted_of_single hsingle
      obtain rfl : c = a := Option.some.inj (hc.symm.trans ha)
      exact ⟨i, b, rfl, hb, (hkey c b).mp haccepts⟩

end Keys

end Matching

namespace Element

variable {control test : Element}

/-- Everywhere in a tree, siblings with the same name and text are similar. -/
def Interchangeable (e : Element) : Prop :=
  ∀ p ∈ e.all, ∀ a ∈ p.childElements, ∀ b ∈ p.childElements,
    a.expanded = b.expanded → a.textContent = b.textContent → a.Similar b

/-- What a selector by names and texts looks at. -/
def nameAndText (e : Element) : ExpandedName × Option String := (e.expanded, e.textContent)

/-- To be accepted by name and text is to have the same name and text. -/
theorem byNameAndText_iff_nameAndText (control test : Element) :
    Selector.byNameAndText control test = true ↔ control.nameAndText = test.nameAndText := by
  rw [Selector.byNameAndText_iff, nameAndText, nameAndText, Prod.mk.injEq]

/-- Similar siblings in another order have the same names and texts in another order. -/
theorem perm_nameAndText {as bs : List Element} (h : Correspond Similar as bs) :
    (as.map nameAndText).Perm (bs.map nameAndText) := by
  obtain ⟨cs, hcs, hperm⟩ := h
  have hsame : as.map nameAndText = cs.map nameAndText := by
    rw [← List.forall₂_eq_eq_eq, List.forall₂_map_left_iff, List.forall₂_map_right_iff]
    apply hcs.imp
    intro a c hsimilar
    have halike := (similar_iff.mp hsimilar).1
    exact Prod.ext halike.expanded halike.text
  rw [hsame]
  exact hperm.map nameAndText

/-- Each of some siblings is similar to one of those they correspond to. -/
theorem exists_similar_of_mem {as bs : List Element} (h : Correspond Similar as bs) {b : Element}
    (hb : b ∈ bs) : ∃ a ∈ as, a.Similar b := by
  obtain ⟨cs, hcs, hperm⟩ := h
  obtain ⟨i, hi, rfl⟩ := List.getElem_of_mem (hperm.mem_iff.mpr hb)
  have hi' : i < as.length := hcs.length_eq ▸ hi
  exact ⟨as[i], List.getElem_mem hi', hcs.get hi' hi⟩

/-- Between similar trees nothing differs if siblings with one name and text are similar. -/
theorem differences_of_similar (hinter : control.Interchangeable) (h : control.Similar test)
    (parent : String) : control.differences Selector.standard parent test = [] := by
  induction control using descent generalizing parent test with
  | step control ih =>
    obtain ⟨halike, hchildren⟩ := similar_iff.mp h
    obtain ⟨hextra, hpartners⟩ := Matching.ofChildren_of_perm byNameAndText_iff_nameAndText
      (perm_nameAndText hchildren) [Selector.byName]
    have hcount : countDifferences parent control test = [] := by
      apply countDifferences_eq_nil_iff.mpr
      simpa using (perm_nameAndText hchildren).length_eq
    have hpairs : ∀ pair ∈ control.childElements.zip
        (counterparts Selector.standard control test),
        pairDifferences Selector.standard control.name pair = [] := by
      rintro ⟨c, counterpart⟩ hpair
      rw [counterparts, List.zip_map_right] at hpair
      obtain ⟨⟨c', partner⟩, hchild, heq⟩ := List.mem_map.mp hpair
      obtain ⟨i, b, rfl, hb, hkey⟩ := hpartners _ hchild
      obtain ⟨rfl, rfl⟩ : c' = c ∧ some b = counterpart := by simpa [hb] using heq
      have hc : c' ∈ control.childElements := (List.of_mem_zip hchild).1
      -- The partner is the counterpart of a sibling that is similar to this child.
      obtain ⟨a, ha, hab⟩ := exists_similar_of_mem hchildren (List.mem_of_getElem? hb)
      have hkey' : c'.nameAndText = a.nameAndText := by
        have halike' := (similar_iff.mp hab).1
        exact hkey.trans (Prod.ext halike'.expanded halike'.text).symm
      have hca : c'.Similar a := hinter control (self_mem_all control) c' hc a ha
        (congrArg Prod.fst hkey') (congrArg Prod.snd hkey')
      apply ih c' hc _ (hca.trans hab)
      intro p hp
      exact hinter p (mem_all_trans (child_mem_all hc) hp)
    have hnone : extraDifferences control test (matching Selector.standard control test) = [] := by
      rw [extraDifferences, show (matching Selector.standard control test).unmatchedTest = [] from
        hextra]
      rfl
    rw [differences_eq, ownDifferences_of_alike halike, hcount, hnone,
      List.flatMap_eq_nil_iff.mpr hpairs]
    rfl

end Element

end XmlCompare
