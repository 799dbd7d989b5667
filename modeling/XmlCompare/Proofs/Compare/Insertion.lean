import XmlCompare.Proofs.Compare.Locality

/-!
# What an insertion comes to

The test tree has one element more than the control tree, at some place among the children of one
element. The search for partners passes it over, since it has another name or text than each of the
siblings there, and goes on behind it: the siblings keep their partners. What is left over is the
new element. It is addressed next to the partner of its left neighbour; at the first place that is
the partner of its right neighbour, and where there are no other children the parent.
-/

set_option autoImplicit false

namespace XmlCompare

namespace Slot

variable {before after : List Slot} {n : Element}

/-- The siblings of shared slots are partners in their order. -/
theorem partnersFrom_of_shared {slots : List Slot} (h : ∀ slot ∈ slots, ∃ a b, slot = shared a b)
    (next : Nat) : partnersFrom next slots = (List.range' next slots.length).map some := by
  induction slots generalizing next with
  | nil => rfl
  | cons slot rest ih =>
    obtain ⟨⟨a, b, rfl⟩, hrest⟩ := List.forall_mem_cons.mp h
    rw [partnersFrom, ih hrest, List.length_cons, List.range'_succ, List.map_cons]

/-- Shared slots have one test child each. -/
theorem length_tests_of_shared {slots : List Slot} (h : ∀ slot ∈ slots, ∃ a b, slot = shared a b) :
    (tests slots).length = slots.length := by
  induction slots with
  | nil => rfl
  | cons slot rest ih =>
    obtain ⟨⟨a, b, rfl⟩, hrest⟩ := List.forall_mem_cons.mp h
    exact congrArg (· + 1) (ih hrest)

/-- Behind the new sibling all partners have moved by one position. -/
theorem mem_pairs_of_insertion (hbefore : ∀ slot ∈ before, ∃ a b, slot = shared a b)
    (hafter : ∀ slot ∈ after, ∃ a b, slot = shared a b) {c t : Nat} :
    (c, t) ∈ (matching (before ++ [extra n] ++ after)).pairs ↔
      c < before.length ∧ t = c ∨
        before.length ≤ c ∧ c < before.length + after.length ∧ t = c + 1 := by
  rw [Matching.mem_pairs, matching, partnersFrom_append, partnersFrom_append,
    partnersFrom_of_shared hbefore, partnersFrom_of_shared hafter]
  simp only [partnersFrom, List.append_nil, tests_append, List.length_append,
    length_tests_of_shared hbefore]
  have hplace : ∀ start count i t : Nat,
      ((List.range' start count).map some)[i]? = some (some t) ↔ i < count ∧ t = start + i := by
    intro start count i t
    by_cases hi : i < count
    · rw [List.getElem?_map, List.getElem?_range' hi]
      simp only [Option.map_some, Option.some.injEq]
      omega
    · rw [List.getElem?_eq_none (by simpa using hi)]
      simp [hi]
  rw [List.getElem?_append, List.length_map, List.length_range']
  split
  · rw [hplace]
    omega
  · rw [hplace]
    simp only [tests, List.filterMap_cons, test?, List.filterMap_nil, List.length_singleton]
    omega

end Slot

namespace Element

open Slot

variable {control test : Element}

/-- Elements that are alike, whose children agree but for one more on the test side: behind `k` of
them stands `n`. -/
structure Grown (k : Nat) (n a b : Element) : Prop where
  alike : a.Alike b
  children : ∃ before after, b.childElements = before ++ n :: after ∧ before.length = k ∧
    List.Forall₂ Agree a.childElements (before ++ after)

/-- The child before the place behind `k` children; if there is none the first child, and without
children the element itself. -/
def neighbour (e : Element) (k : Nat) : Element :=
  ((e.childElements.take k).getLast?.or e.childElements.head?).getD e

variable {n : Element} {ts₁ ts₂ : List Element}

/-- A child with an anchor is addressed at that sibling. -/
theorem anchorPath_of_some {m : Matching} {position c : Nat} {s : Element}
    (hanchor : m.anchor? position = some c) (hs : control.childElements[c]? = some s) :
    anchorPath control m position = s.path := by
  rw [anchorPath, hanchor, Option.bind_some, hs]

/-- The new child is addressed at the neighbour of its place. -/
theorem anchorPath_of_insertion {before after : List Slot}
    (hbefore : ∀ slot ∈ before, ∃ a b, slot = shared a b)
    (hafter : ∀ slot ∈ after, ∃ a b, slot = shared a b)
    (hlength : control.childElements.length = before.length + after.length) :
    anchorPath control (Slot.matching (before ++ [extra n] ++ after)) before.length =
      (control.neighbour before.length).path := by
  have hpairs : ∀ {c t}, (c, t) ∈ (Slot.matching (before ++ [extra n] ++ after)).pairs ↔ _ :=
    mem_pairs_of_insertion hbefore hafter
  cases hk : before.length with
  | succ k =>
    -- The left neighbour of the place is the nearest sibling.
    have hlt : k < control.childElements.length := by omega
    have hanchor : (Slot.matching (before ++ [extra n] ++ after)).anchor? (k + 1) = some k := by
      apply Matching.anchor?_eq_of_before (hpairs.mpr (.inl ⟨by omega, rfl⟩)) (by omega)
      intro c t hmem hbelow habove
      have hcases := hpairs.mp hmem
      omega
    have hneighbour : control.neighbour (k + 1) = control.childElements[k] := by
      rw [neighbour, List.getLast?_take, if_neg (by omega), Nat.add_sub_cancel,
        List.getElem?_eq_getElem hlt]
      rfl
    rw [anchorPath_of_some hanchor (List.getElem?_eq_getElem hlt), hneighbour]
  | zero =>
    by_cases hnil : after.length = 0
    · have hchildren : control.childElements = [] :=
        List.eq_nil_of_length_eq_zero (by omega)
      rw [anchorPath, hchildren, neighbour, hchildren]
      cases (Slot.matching (before ++ [extra n] ++ after)).anchor? 0 <;> rfl
    · -- There is only a right neighbour.
      have hlt : 0 < control.childElements.length := by omega
      have hanchor : (Slot.matching (before ++ [extra n] ++ after)).anchor? 0 = some 0 := by
        apply Matching.anchor?_eq_of_behind (hpairs.mpr (.inr ⟨by omega, by omega, rfl⟩))
          (by omega)
        · intro c t hmem
          exact Nat.zero_le t
        · intro c t hmem hbelow habove
          have hcases := hpairs.mp hmem
          omega
      have hneighbour : control.neighbour 0 = control.childElements[0] := by
        rw [neighbour, List.take_zero, List.getLast?_nil, Option.none_or,
          List.head?_eq_getElem?, List.getElem?_eq_getElem hlt]
        rfl
      rw [anchorPath_of_some hanchor (List.getElem?_eq_getElem hlt), hneighbour]

/-- What is extra on the test side where `n` was inserted behind `k` children of `p`. -/
def insertionDifferences (tag : String) (p : Element) (k : Nat) (n : Element) : List Difference :=
  [.between .childCount (toString p.childElements.length)
      (toString (p.childElements.length + 1)) p.path tag p.name,
    .extraChild p.name (p.neighbour k).path n]

/-- At the level where an element is inserted, the siblings are paired and it is extra. -/
theorem differences_of_inserted_child (halike : control.Alike test)
    (htest : test.childElements = ts₁ ++ n :: ts₂)
    (hchildren : List.Forall₂ Agree control.childElements (ts₁ ++ ts₂))
    (hunlike : ∀ s ∈ control.childElements,
      ¬ (s.expanded = n.expanded ∧ s.textContent = n.textContent)) (parent : String) :
    control.differences Selector.standard parent test =
      insertionDifferences parent control ts₁.length n := by
  obtain ⟨cs₁, cs₂, hsplit, hbefore, hafter⟩ := forall₂_append_left hchildren.flip
  obtain ⟨before, rfl, rfl, hslots₁⟩ := exists_slots_of_forall₂ hbefore.flip
  obtain ⟨after, rfl, rfl, hslots₂⟩ := exists_slots_of_forall₂ hafter.flip
  have hcontrol : control.childElements = controls (before ++ [extra n] ++ after) := by
    rw [hsplit, controls_append, controls_append, List.append_assoc]
    rfl
  have htests : test.childElements = tests (before ++ [extra n] ++ after) := by
    rw [htest, tests_append, tests_append, List.append_assoc]
    rfl
  have halone : Settled Selector.byNameAndText [extra n] := by
    constructor <;> simp [tests, controls, control?]
  have hsettled : Settled Selector.byNameAndText (before ++ [extra n] ++ after) := by
    apply halone.between
    intro slot hslot
    obtain ⟨a, b, rfl, hagree⟩ := List.forall_mem_append.mpr ⟨hslots₁, hslots₂⟩ slot hslot
    refine ⟨a, b, rfl, (agree_iff.mp hagree).1.byNameAndText, by simp, ?_⟩
    intro t ht
    obtain rfl : t = n := by simpa using ht
    have ha : a ∈ control.childElements := by
      rw [hsplit, ← controls_append]
      exact mem_controls_of_shared hslot
    exact Selector.byNameAndText_eq_false_iff.mpr (hunlike a ha)
  have hshared₁ : ∀ slot ∈ before, ∃ a b, slot = shared a b := fun slot hslot =>
    (hslots₁ slot hslot).imp fun a h => h.imp fun b h => h.1
  have hshared₂ : ∀ slot ∈ after, ∃ a b, slot = shared a b := fun slot hslot =>
    (hslots₂ slot hslot).imp fun a h => h.imp fun b h => h.1
  have hmissing : ∀ c, .missing c ∉ before ++ [extra n] ++ after := by
    intro c hmem
    simp only [List.mem_append, List.mem_singleton, reduceCtorEq, or_false] at hmem
    exact hmem.elim ((alone_not_mem hshared₁).1 c) ((alone_not_mem hshared₂).1 c)
  have hlength : control.childElements.length = before.length + after.length := by
    rw [hchildren.length_eq, List.length_append, length_tests_of_shared hshared₁,
      length_tests_of_shared hshared₂]
  have hlength' : test.childElements.length = control.childElements.length + 1 := by
    rw [htest, List.length_append, List.length_cons, hchildren.length_eq, List.length_append]
    rfl
  rw [differences_of_middle parent hcontrol htests (ofChildren_of_no_missing hsettled hmissing _)
    hslots₁ hslots₂, ownDifferences_of_alike halike, countDifferences_of_ne (by omega), hlength',
    length_tests_of_shared hshared₁, insertionDifferences,
    ← anchorPath_of_insertion (n := n) hshared₁ hshared₂ hlength]
  rfl

/-- A tree differs from what agrees with it but for one more element by the number of children and
the extra child. -/
theorem differences_of_grown {p : Element} {k : Nat} (hplaced : control.Placed)
    (hp : p ∈ control.all)
    (hunlike : ∀ s ∈ p.childElements,
      ¬ (s.expanded = n.expanded ∧ s.textContent = n.textContent))
    (h : AgreeExcept p.path (Grown k n) control test) (parent : String) :
    ∃ tag, control.TagAround parent p tag ∧
      control.differences Selector.standard parent test = insertionDifferences tag p k n := by
  obtain ⟨tag, q, haround, ⟨halike, before, after, htest, rfl, hchildren⟩, hdifferences⟩ :=
    differences_of_agreeExcept Grown.alike hplaced hp h parent
  exact ⟨tag, haround,
    hdifferences.trans (differences_of_inserted_child halike htest hchildren hunlike tag)⟩

end Element

end XmlCompare
