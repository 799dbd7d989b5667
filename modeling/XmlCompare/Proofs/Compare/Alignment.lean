import XmlCompare.Proofs.Compare.Parts

/-!
# Aligned siblings

An alignment of control and test siblings is a list of slots. In a slot there is a child of either
side, or of one side only. If a selector accepts the two children of every shared slot, and accepts
no child that is alone with anything on the other side, then a pass of it finds the alignment: the
search goes on behind the test child that was taken last, and so it meets the children of the next
shared slot first, however many test children have been left behind.

If moreover nobody on the control side is left alone, or nobody on the test side, then the selectors
after the first one have nothing to do. So the differences of two elements whose children are
aligned are their own, those of the slots, and the test children that are alone.
-/

set_option autoImplicit false

namespace XmlCompare

/-- One place in an alignment of control and test siblings. -/
inductive Slot
  /-- Both sides have a child here. -/
  | shared (control test : Element)
  /-- Only the control side has a child here. -/
  | missing (control : Element)
  /-- Only the test side has a child here. -/
  | extra (test : Element)

namespace Slot

/-- The control child in a slot. -/
def control? : Slot → Option Element
  | shared c _ => some c
  | missing c => some c
  | extra _ => none

/-- The test child in a slot. -/
def test? : Slot → Option Element
  | shared _ t => some t
  | missing _ => none
  | extra t => some t

/-- The control child of a slot with its counterpart. -/
def couple? : Slot → Option (Element × Option Element)
  | shared c t => some (c, some t)
  | missing c => some (c, none)
  | extra _ => none

/-- The control siblings of an alignment. -/
def controls (slots : List Slot) : List Element := slots.filterMap control?

/-- The test siblings of an alignment. -/
def tests (slots : List Slot) : List Element := slots.filterMap test?

/-- The partners that an alignment gives to its control siblings, where its first test sibling has
the position `next`. -/
def partnersFrom : Nat → List Slot → List (Option Nat)
  | _, [] => []
  | next, shared _ _ :: rest => some next :: partnersFrom (next + 1) rest
  | next, missing _ :: rest => none :: partnersFrom next rest
  | next, extra _ :: rest => partnersFrom (next + 1) rest

/-- The test siblings of an alignment that are nobody's partner, each with its position. -/
def extrasFrom : Nat → List Slot → List (Element × Nat)
  | _, [] => []
  | next, shared _ _ :: rest => extrasFrom (next + 1) rest
  | next, missing _ :: rest => extrasFrom next rest
  | next, extra t :: rest => (t, next) :: extrasFrom (next + 1) rest

/-- A selector settles an alignment: it accepts what shares a slot, and what is alone in a slot it
accepts with nothing on the other side. -/
structure Settled (accepts : Selector) (slots : List Slot) : Prop where
  shared : ∀ {c t}, .shared c t ∈ slots → accepts c t = true
  missing : ∀ {c}, .missing c ∈ slots → ∀ t ∈ tests slots, accepts c t = false
  extra : ∀ {t}, .extra t ∈ slots → ∀ c ∈ controls slots, accepts c t = false

variable {accepts : Selector} {slots : List Slot}

/-- The control children of two runs of slots follow each other. -/
theorem controls_append (first second : List Slot) :
    controls (first ++ second) = controls first ++ controls second := List.filterMap_append

/-- The test children of two runs of slots follow each other. -/
theorem tests_append (first second : List Slot) :
    tests (first ++ second) = tests first ++ tests second := List.filterMap_append

/-- A control child of the later slots is one of all slots. -/
theorem mem_controls_cons {slot : Slot} {rest : List Slot} {c : Element} (h : c ∈ controls rest) :
    c ∈ controls (slot :: rest) := by
  obtain ⟨s, hs, hc⟩ := List.mem_filterMap.mp h
  exact List.mem_filterMap.mpr ⟨s, List.mem_cons_of_mem _ hs, hc⟩

/-- A test child of the later slots is one of all slots. -/
theorem mem_tests_cons {slot : Slot} {rest : List Slot} {t : Element} (h : t ∈ tests rest) :
    t ∈ tests (slot :: rest) := by
  obtain ⟨s, hs, ht⟩ := List.mem_filterMap.mp h
  exact List.mem_filterMap.mpr ⟨s, List.mem_cons_of_mem _ hs, ht⟩

/-- The control child of a shared slot is among the control children. -/
theorem mem_controls_of_shared {c t : Element} (h : shared c t ∈ slots) : c ∈ controls slots :=
  List.mem_filterMap.mpr ⟨_, h, rfl⟩

/-- Settled slots stay settled without the first one. -/
theorem Settled.tail {slot : Slot} {rest : List Slot} (h : Settled accepts (slot :: rest)) :
    Settled accepts rest where
  shared hmem := h.shared (List.mem_cons_of_mem _ hmem)
  missing hmem t ht := h.missing (List.mem_cons_of_mem _ hmem) t (mem_tests_cons ht)
  extra hmem c hc := h.extra (List.mem_cons_of_mem _ hmem) c (mem_controls_cons hc)

/-- Siblings that are related one by one are aligned in shared slots. -/
theorem exists_slots_of_forall₂ {related : Element → Element → Prop} {as bs : List Element}
    (h : List.Forall₂ related as bs) : ∃ slots, controls slots = as ∧ tests slots = bs ∧
      ∀ slot ∈ slots, ∃ a b, slot = shared a b ∧ related a b := by
  induction h with
  | nil => exact ⟨[], rfl, rfl, fun slot hslot => by cases hslot⟩
  | @cons a b as bs hab _ ih =>
    obtain ⟨slots, rfl, rfl, hslots⟩ := ih
    refine ⟨shared a b :: slots, rfl, rfl, ?_⟩
    intro slot hslot
    rcases List.mem_cons.mp hslot with rfl | hslot
    · exact ⟨a, b, rfl, hab⟩
    · exact hslots slot hslot

/-- Slots that are all shared, by children that are accepted, are settled. -/
theorem settled_of_shared (h : ∀ slot ∈ slots, ∃ a b, slot = shared a b ∧ accepts a b = true) :
    Settled accepts slots where
  shared hmem := by
    obtain ⟨a, b, heq, haccepts⟩ := h _ hmem
    cases heq
    exact haccepts
  missing hmem := by
    obtain ⟨a, b, heq, -⟩ := h _ hmem
    cases heq
  extra hmem := by
    obtain ⟨a, b, heq, -⟩ := h _ hmem
    cases heq

/-- In shared slots nobody is alone. -/
theorem alone_not_mem (h : ∀ slot ∈ slots, ∃ a b, slot = shared a b) :
    (∀ c, missing c ∉ slots) ∧ ∀ t, extra t ∉ slots := by
  constructor
  · intro c hmem
    obtain ⟨a, b, heq⟩ := h _ hmem
    cases heq
  · intro t hmem
    obtain ⟨a, b, heq⟩ := h _ hmem
    cases heq

/-- An alignment that is settled stays so between shared slots whose children are accepted, if what
is alone in it is not accepted with any of them. -/
theorem Settled.between {before middle after : List Slot} (hmiddle : Settled accepts middle)
    (hothers : ∀ slot ∈ before ++ after, ∃ a b, slot = .shared a b ∧ accepts a b = true ∧
      (∀ c, .missing c ∈ middle → accepts c b = false) ∧
      ∀ t, .extra t ∈ middle → accepts a t = false) :
    Settled accepts (before ++ middle ++ after) := by
  have hcases : ∀ slot ∈ before ++ middle ++ after, slot ∈ middle ∨ slot ∈ before ++ after := by
    intro slot hslot
    simp only [List.mem_append] at hslot ⊢
    tauto
  constructor
  · intro c t hmem
    rcases hcases _ hmem with hmem | hmem
    · exact hmiddle.shared hmem
    · obtain ⟨a, b, heq, haccepts, -⟩ := hothers _ hmem
      cases heq
      exact haccepts
  · intro c hmem t ht
    rcases hcases _ hmem with hmem | hmem
    · obtain ⟨slot, hslot, heq⟩ := List.mem_filterMap.mp ht
      rcases hcases slot hslot with hslot | hslot
      · exact hmiddle.missing hmem t (List.mem_filterMap.mpr ⟨slot, hslot, heq⟩)
      · obtain ⟨a, b, rfl, -, hreject, -⟩ := hothers slot hslot
        cases heq
        exact hreject c hmem
    · obtain ⟨a, b, heq, -⟩ := hothers _ hmem
      cases heq
  · intro t hmem c hc
    rcases hcases _ hmem with hmem | hmem
    · obtain ⟨slot, hslot, heq⟩ := List.mem_filterMap.mp hc
      rcases hcases slot hslot with hslot | hslot
      · exact hmiddle.extra hmem c (List.mem_filterMap.mpr ⟨slot, hslot, heq⟩)
      · obtain ⟨a, b, rfl, -, -, hreject⟩ := hothers slot hslot
        cases heq
        exact hreject t hmem
    · obtain ⟨a, b, heq, -⟩ := hothers _ hmem
      cases heq

/-! ## A pass over aligned siblings -/

/-- A search passes over the test children left behind and takes the first one not yet reached. -/
theorem choose_eq_some {cursor i : Nat} {skipped rest : List (Element × Nat)}
    {control test : Element} (hskipped : ∀ candidate ∈ skipped, accepts control candidate.1 = false)
    (hcursor : cursor ≤ i) (htest : accepts control test = true) :
    Matching.choose accepts cursor (skipped ++ (test, i) :: rest) control = some i := by
  have hnone : (skipped.filter (cursor ≤ ·.2)).find?
      (fun candidate => accepts control candidate.1) = none := by
    rw [List.find?_eq_none]
    intro candidate hmem
    rw [hskipped candidate (List.mem_filter.mp hmem).1]
    decide
  have hhere : ((test, i) :: rest).filter (cursor ≤ ·.2) =
      (test, i) :: rest.filter (cursor ≤ ·.2) := List.filter_cons_of_pos (decide_eq_true hcursor)
  rw [Matching.choose, Matching.searchOrder, List.filter_append, hhere, List.append_assoc,
    List.find?_append, hnone, Option.none_or, List.cons_append, List.find?_cons, htest]
  rfl

/-- A pass over aligned siblings finds the alignment. Of the test siblings before the position
`next` some are still free; no control sibling is accepted with them. -/
theorem pass_eq_partnersFrom (h : Settled accepts slots) {cursor next : Nat}
    {skipped : List (Element × Nat)} (hcursor : cursor ≤ next)
    (hbefore : ∀ candidate ∈ skipped, candidate.2 < next)
    (hskipped : ∀ candidate ∈ skipped, ∀ c ∈ controls slots, accepts c candidate.1 = false) :
    Matching.pass accepts cursor (skipped ++ (tests slots).zipIdx next)
      ((controls slots).map fun c => (c, none)) = partnersFrom next slots := by
  induction slots generalizing cursor next skipped with
  | nil => rfl
  | cons slot rest ih =>
    have hrest : ∀ candidate ∈ skipped, ∀ c ∈ controls rest, accepts c candidate.1 = false :=
      fun candidate hmem c hc => hskipped candidate hmem c (mem_controls_cons hc)
    cases slot with
    | shared c t =>
      have hchoose : Matching.choose accepts cursor
          (skipped ++ (t, next) :: (tests rest).zipIdx (next + 1)) c = some next := by
        apply choose_eq_some
        · intro candidate hmem
          exact hskipped candidate hmem c List.mem_cons_self
        · exact hcursor
        · exact h.shared List.mem_cons_self
      have hfree : (skipped ++ (t, next) :: (tests rest).zipIdx (next + 1)).filter
          (fun candidate => decide (candidate.2 ≠ next)) =
            skipped ++ (tests rest).zipIdx (next + 1) := by
        rw [List.filter_append, List.filter_cons_of_neg (by simp), List.filter_eq_self.mpr,
          List.filter_eq_self.mpr]
        · intro candidate hmem
          have hle := List.le_snd_of_mem_zipIdx hmem
          exact decide_eq_true (by omega)
        · intro candidate hmem
          have hlt := hbefore candidate hmem
          exact decide_eq_true (by omega)
      show Matching.pass accepts cursor (skipped ++ (t, next) :: (tests rest).zipIdx (next + 1))
        ((c, none) :: (controls rest).map fun c => (c, none)) = some next :: _
      rw [Matching.pass, hchoose]
      show some next :: Matching.pass accepts (next + 1) (List.filter _ _) _ = _
      rw [hfree, ih h.tail (Nat.le_refl _) _ hrest]
      intro candidate hmem
      exact Nat.lt_succ_of_lt (hbefore candidate hmem)
    | missing c =>
      have hchoose : Matching.choose accepts cursor (skipped ++ (tests rest).zipIdx next) c =
          none := by
        rw [Matching.choose_eq_none_iff]
        intro candidate hmem
        rcases List.mem_append.mp hmem with hmem | hmem
        · exact hskipped candidate hmem c List.mem_cons_self
        · exact h.missing List.mem_cons_self _ (List.fst_mem_of_mem_zipIdx hmem)
      show Matching.pass accepts cursor (skipped ++ (tests rest).zipIdx next)
        ((c, none) :: (controls rest).map fun c => (c, none)) = none :: _
      rw [Matching.pass, hchoose]
      show none :: Matching.pass accepts cursor _ _ = _
      rw [ih h.tail hcursor hbefore hrest]
    | extra t =>
      show Matching.pass accepts cursor (skipped ++ (t, next) :: (tests rest).zipIdx (next + 1))
        ((controls rest).map fun c => (c, none)) = partnersFrom (next + 1) rest
      rw [List.append_cons]
      apply ih h.tail (Nat.le_succ_of_le hcursor)
      · intro candidate hmem
        rcases List.mem_append.mp hmem with hmem | hmem
        · exact Nat.lt_succ_of_lt (hbefore candidate hmem)
        · obtain rfl := List.mem_singleton.mp hmem
          exact Nat.lt_succ_self next
      · intro candidate hmem c hc
        rcases List.mem_append.mp hmem with hmem | hmem
        · exact hrest candidate hmem c hc
        · obtain rfl := List.mem_singleton.mp hmem
          exact h.extra List.mem_cons_self c (mem_controls_cons hc)

/-- The partners of later slots come at later positions. -/
theorem le_of_mem_partnersFrom {next i : Nat} (h : some i ∈ partnersFrom next slots) :
    next ≤ i := by
  induction slots generalizing next with
  | nil => cases h
  | cons slot rest ih =>
    cases slot with
    | shared c t =>
      rcases List.mem_cons.mp h with heq | h
      · exact Nat.le_of_eq (Option.some.inj heq).symm
      · exact Nat.le_of_succ_le (ih h)
    | missing c =>
      rcases List.mem_cons.mp h with heq | h
      · cases heq
      · exact ih h
    | extra t => exact Nat.le_of_succ_le (ih h)

/-- The test siblings that are left free are those that are alone in a slot. -/
theorem free_eq_extrasFrom (next : Nat) (slots : List Slot) :
    ((tests slots).zipIdx next).filter
      (fun candidate => !(partnersFrom next slots).contains (some candidate.2)) =
        extrasFrom next slots := by
  induction slots generalizing next with
  | nil => rfl
  | cons slot rest ih =>
    cases slot with
    | shared c t =>
      show List.filter _ ((t, next) :: (tests rest).zipIdx (next + 1)) = extrasFrom (next + 1) rest
      rw [List.filter_cons_of_neg (by simp [partnersFrom]), ← ih]
      apply List.filter_congr
      intro candidate hmem
      have hle := List.le_snd_of_mem_zipIdx hmem
      have hne : candidate.2 ≠ next := by omega
      simp [partnersFrom, hne]
    | missing c =>
      show List.filter _ ((tests rest).zipIdx next) = extrasFrom next rest
      rw [← ih]
      apply List.filter_congr
      intro candidate hmem
      simp [partnersFrom]
    | extra t =>
      have hfree : some next ∉ partnersFrom (next + 1) rest := by
        intro hmem
        have hle := le_of_mem_partnersFrom hmem
        omega
      show List.filter _ ((t, next) :: (tests rest).zipIdx (next + 1)) =
        (t, next) :: extrasFrom (next + 1) rest
      rw [List.filter_cons_of_pos (by simpa [partnersFrom] using hfree), ← ih]
      rfl

/-- Slots without an extra child have no extra positions. -/
theorem extrasFrom_eq_nil (h : ∀ t, .extra t ∉ slots) (next : Nat) :
    extrasFrom next slots = [] := by
  induction slots generalizing next with
  | nil => rfl
  | cons slot rest ih =>
    have hrest : ∀ t, .extra t ∉ rest := fun t hmem => h t (List.mem_cons_of_mem _ hmem)
    cases slot with
    | shared c t => exact ih hrest (next + 1)
    | missing c => exact ih hrest next
    | extra t => exact absurd List.mem_cons_self (h t)

/-- The partners of two runs of slots follow each other, the second run counted on from the
first. -/
theorem partnersFrom_append (next : Nat) (first second : List Slot) :
    partnersFrom next (first ++ second) =
      partnersFrom next first ++ partnersFrom (next + (tests first).length) second := by
  induction first generalizing next with
  | nil => rfl
  | cons slot rest ih =>
    cases slot with
    | shared c t =>
      simpa [partnersFrom, tests, test?, Nat.add_assoc, Nat.add_comm 1] using ih (next + 1)
    | missing c => exact congrArg (none :: ·) (ih next)
    | extra t =>
      simpa [partnersFrom, tests, test?, Nat.add_assoc, Nat.add_comm 1] using ih (next + 1)

/-- The extra positions of two runs of slots follow each other, the second run counted on from the
first. -/
theorem extrasFrom_append (next : Nat) (first second : List Slot) :
    extrasFrom next (first ++ second) =
      extrasFrom next first ++ extrasFrom (next + (tests first).length) second := by
  induction first generalizing next with
  | nil => rfl
  | cons slot rest ih =>
    cases slot with
    | shared c t =>
      simpa [extrasFrom, tests, test?, Nat.add_assoc, Nat.add_comm 1] using ih (next + 1)
    | missing c => exact ih next
    | extra t =>
      simpa [extrasFrom, tests, test?, Nat.add_assoc, Nat.add_comm 1] using ih (next + 1)

/-- Where no slot lacks a test child, every control child has a partner. -/
theorem partnersFrom_ne_none (h : ∀ c, .missing c ∉ slots) (next : Nat) :
    ∀ partner ∈ partnersFrom next slots, partner ≠ none := by
  induction slots generalizing next with
  | nil =>
    intro partner hmem
    cases hmem
  | cons slot rest ih =>
    have hrest : ∀ c, .missing c ∉ rest := fun c hmem => h c (List.mem_cons_of_mem _ hmem)
    cases slot with
    | shared c t => exact List.forall_mem_cons.mpr ⟨Option.some_ne_none next, ih hrest (next + 1)⟩
    | missing c => exact absurd List.mem_cons_self (h c)
    | extra t => exact ih hrest (next + 1)

/-- The first selector that is used finds an alignment that it settles. -/
theorem refine_eq_partnersFrom (h : Settled accepts slots) :
    Matching.refine (controls slots) (tests slots) ((controls slots).map fun _ => none) accepts =
      partnersFrom 0 slots := by
  have hpass : Matching.pass accepts 0 ([] ++ (tests slots).zipIdx)
      ((controls slots).map fun c => (c, none)) = partnersFrom 0 slots := by
    apply pass_eq_partnersFrom h (Nat.le_refl 0)
    · intro candidate hmem
      cases hmem
    · intro candidate hmem
      cases hmem
  rw [Matching.refine_none]
  exact hpass

/-- Without free test children a pass changes nothing. -/
theorem pass_nil (cursor : Nat) (children : List (Element × Option Nat)) :
    Matching.pass accepts cursor [] children = children.map Prod.snd := by
  induction children with
  | nil => rfl
  | cons child rest ih =>
    obtain ⟨control, partner⟩ := child
    cases partner with
    | some i => rw [Matching.pass, ih, List.map_cons]
    | none =>
      have hchoose : Matching.choose accepts cursor [] control = none := rfl
      rw [Matching.pass, hchoose, ih, List.map_cons]

/-- There are as many partners, present or not, as control children. -/
theorem length_partnersFrom (next : Nat) (slots : List Slot) :
    (partnersFrom next slots).length = (controls slots).length := by
  induction slots generalizing next with
  | nil => rfl
  | cons slot rest ih =>
    cases slot with
    | shared c t => exact congrArg (· + 1) (ih (next + 1))
    | missing c => exact congrArg (· + 1) (ih next)
    | extra t => exact ih (next + 1)

/-- The matching that pairs the siblings of every shared slot and leaves the others alone. -/
def matching (slots : List Slot) : Matching :=
  ⟨partnersFrom 0 slots, (extrasFrom 0 slots).map Prod.snd⟩

/-- Partners that follow an alignment make its matching. -/
theorem ofChildren_of_foldl {selectors : List Selector}
    (h : selectors.foldl (Matching.refine (controls slots) (tests slots))
      ((controls slots).map fun _ => none) = partnersFrom 0 slots) :
    Matching.ofChildren selectors (controls slots) (tests slots) = matching slots := by
  have hfree : Matching.freeChildren (tests slots) (partnersFrom 0 slots) = extrasFrom 0 slots :=
    free_eq_extrasFrom 0 slots
  rw [Matching.ofChildren, h, hfree, matching]

/-- Where no test sibling is alone in a slot, the selectors after the first change nothing. -/
theorem ofChildren_of_no_extra (h : Settled accepts slots) (hextra : ∀ t, .extra t ∉ slots)
    (selectors : List Selector) :
    Matching.ofChildren (accepts :: selectors) (controls slots) (tests slots) =
      matching slots := by
  have hfree : Matching.freeChildren (tests slots) (partnersFrom 0 slots) = [] :=
    (free_eq_extrasFrom 0 slots).trans (extrasFrom_eq_nil hextra 0)
  apply ofChildren_of_foldl
  rw [List.foldl_cons, refine_eq_partnersFrom h]
  induction selectors with
  | nil => rfl
  | cons further selectors ih =>
    have hkept : Matching.refine (controls slots) (tests slots) (partnersFrom 0 slots) further =
        partnersFrom 0 slots := by
      rw [Matching.refine, hfree, pass_nil]
      exact List.map_snd_zip (Nat.le_of_eq (length_partnersFrom 0 slots))
    rw [List.foldl_cons, hkept, ih]

/-- The same holds where no control sibling is alone in a slot. -/
theorem ofChildren_of_no_missing (h : Settled accepts slots) (hmissing : ∀ c, .missing c ∉ slots)
    (selectors : List Selector) :
    Matching.ofChildren (accepts :: selectors) (controls slots) (tests slots) =
      matching slots := by
  apply ofChildren_of_foldl
  rw [List.foldl_cons, refine_eq_partnersFrom h]
  exact Matching.foldl_refine_of_paired (length_partnersFrom 0 slots)
    (partnersFrom_ne_none hmissing 0) selectors

/-- The positions that an alignment gives lead to the counterparts in its slots. -/
theorem zip_partnersFrom (earlier : List Element) (slots : List Slot) :
    (controls slots).zip ((partnersFrom earlier.length slots).map
      (·.bind ((earlier ++ tests slots)[·]?))) = slots.filterMap couple? := by
  induction slots generalizing earlier with
  | nil => rfl
  | cons slot rest ih =>
    cases slot with
    | shared c t =>
      have hrest := ih (earlier ++ [t])
      rw [List.append_assoc, List.length_append] at hrest
      have hhere : (earlier ++ t :: tests rest)[earlier.length]? = some t := by simp
      show (c, (earlier ++ t :: tests rest)[earlier.length]?) :: _ = (c, some t) :: _
      rw [hhere]
      exact congrArg ((c, some t) :: ·) hrest
    | missing c => exact congrArg ((c, none) :: ·) (ih earlier)
    | extra t =>
      have hrest := ih (earlier ++ [t])
      rw [List.append_assoc, List.length_append] at hrest
      exact hrest

/-- In shared slots every control sibling has its counterpart. -/
theorem couples_of_shared (h : ∀ slot ∈ slots, ∃ a b, slot = shared a b) :
    slots.filterMap couple? = ((controls slots).zip (tests slots)).map fun pair =>
      (pair.1, some pair.2) := by
  induction slots with
  | nil => rfl
  | cons slot rest ih =>
    obtain ⟨hslot, hrest⟩ := List.forall_mem_cons.mp h
    obtain ⟨a, b, rfl⟩ := hslot
    exact congrArg ((a, some b) :: ·) (ih hrest)

end Slot

/-! ## The differences of aligned children -/

namespace Element

open Slot

variable {control test : Element} {slots : List Slot}

/-- The test children that are alone in a slot are the extra children. -/
theorem extraDifferences_matching (htest : test.childElements = tests slots) :
    extraDifferences control test (Slot.matching slots) = (extrasFrom 0 slots).map fun extra =>
      .extraChild control.name (anchorPath control (Slot.matching slots) extra.2) extra.1 := by
  have hplace : ∀ extra ∈ extrasFrom 0 slots, (tests slots)[extra.2]? = some extra.1 := by
    intro extra hmem
    rw [← free_eq_extrasFrom] at hmem
    exact List.mem_zipIdx_iff_getElem?.mp (List.mem_filter.mp hmem).1
  show ((extrasFrom 0 slots).map Prod.snd).filterMap _ = _
  rw [htest, List.filterMap_map, ← List.filterMap_eq_map]
  apply List.filterMap_congr
  intro extra hmem
  rw [Function.comp_apply, hplace extra hmem]
  rfl

/-- Where the children are matched as they are aligned, the differences are those of the elements
themselves and of the slots, and the children that only the test element has. -/
theorem differences_of_slots {selectors : List Selector} (parent : String)
    (hcontrol : control.childElements = controls slots)
    (htest : test.childElements = tests slots)
    (hmatching : Matching.ofChildren selectors (controls slots) (tests slots) =
      Slot.matching slots) :
    control.differences selectors parent test =
      ownDifferences parent control test ++
        (slots.filterMap couple?).flatMap (pairDifferences selectors control.name) ++
        (extrasFrom 0 slots).map fun extra =>
          .extraChild control.name (anchorPath control (Slot.matching slots) extra.2) extra.1 := by
  have hmatching' : matching selectors control test = Slot.matching slots := by
    rw [matching, hcontrol, htest, hmatching]
  have hzip : control.childElements.zip (counterparts selectors control test) =
      slots.filterMap couple? := by
    rw [counterparts, hmatching', hcontrol, htest]
    exact zip_partnersFrom [] slots
  rw [differences_eq, hzip, hmatching', extraDifferences_matching htest]

/-- Children that the first selector accepts one by one are compared one by one. -/
theorem differences_of_accepted {accepts : Selector} (parent : String) (selectors : List Selector)
    (h : List.Forall₂ (fun a b => accepts a b = true) control.childElements test.childElements) :
    control.differences (accepts :: selectors) parent test =
      ownDifferences parent control test ++
        (control.childElements.zip test.childElements).flatMap fun pair =>
          pair.1.differences (accepts :: selectors) control.name pair.2 := by
  obtain ⟨slots, hcontrol, htest, hslots⟩ := exists_slots_of_forall₂ h
  have hshared : ∀ slot ∈ slots, ∃ a b, slot = shared a b := fun slot hslot =>
    (hslots slot hslot).imp fun _ hb => hb.imp fun _ hab => hab.1
  have hextra := (alone_not_mem hshared).2
  have hmatching := ofChildren_of_no_extra (settled_of_shared hslots) hextra selectors
  rw [differences_of_slots parent hcontrol.symm htest.symm hmatching, couples_of_shared hshared,
    extrasFrom_eq_nil hextra, hcontrol, htest, List.flatMap_map, List.map_nil, List.append_nil]
  rfl

end Element

end XmlCompare
