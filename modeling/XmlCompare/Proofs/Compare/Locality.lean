import XmlCompare.Proofs.Compare.Attributes

/-!
# Where trees differ at one place

Trees that agree position by position do not differ. If two trees agree but for what is inside one
element of the control tree, then on the way down to it the children are aligned in shared slots,
and everything beside the way agrees; so the differences of the trees are those of this element and
its counterpart. There again the children that agree add nothing to the differences.
-/

set_option autoImplicit false

namespace XmlCompare

/-- Name and text decide for elements of one expanded name and one text. -/
theorem Selector.byNameAndText_iff {control test : Element} : byNameAndText control test = true ↔
    control.expanded = test.expanded ∧ control.textContent = test.textContent := by
  simp [byNameAndText]

/-- Name and text decide against elements that differ in one of them. -/
theorem Selector.byNameAndText_eq_false_iff {control test : Element} :
    byNameAndText control test = false ↔
      ¬ (control.expanded = test.expanded ∧ control.textContent = test.textContent) := by
  rw [← Bool.not_eq_true, byNameAndText_iff]

/-- Elements that are alike have one name and one text. -/
theorem Element.Alike.byNameAndText {control test : Element} (h : control.Alike test) :
    Selector.byNameAndText control test = true :=
  Selector.byNameAndText_iff.mpr ⟨h.expanded, h.text⟩

namespace Element

open Slot

variable {control test : Element} {slots before middle after : List Slot}

/-- Slots shared by children that agree are shared by name and text. -/
theorem shared_byNameAndText (h : ∀ slot ∈ slots, ∃ a b, slot = shared a b ∧ a.Agree b) :
    ∀ slot ∈ slots, ∃ a b, slot = shared a b ∧ Selector.byNameAndText a b = true := by
  intro slot hslot
  obtain ⟨a, b, rfl, hagree⟩ := h slot hslot
  exact ⟨a, b, rfl, (agree_iff.mp hagree).1.byNameAndText⟩

/-- Where all slots are shared there is no extra child. -/
theorem extra_not_mem {related : Element → Element → Prop}
    (h : ∀ slot ∈ slots, ∃ a b, slot = shared a b ∧ related a b) (t : Element) :
    .extra t ∉ slots := by
  intro hmem
  obtain ⟨a, b, heq, -⟩ := h _ hmem
  cases heq

/-- Where nothing differs in any shared slot, nothing differs at all. -/
theorem flatMap_pairDifferences_eq_nil {selectors : List Selector} {parent : String}
    (h : ∀ slot ∈ slots, ∃ a b, slot = shared a b ∧ a.differences selectors parent b = []) :
    (slots.filterMap couple?).flatMap (pairDifferences selectors parent) = [] := by
  rw [List.flatMap_eq_nil_iff]
  intro couple hcouple
  obtain ⟨slot, hslot, heq⟩ := List.mem_filterMap.mp hcouple
  obtain ⟨a, b, rfl, hnil⟩ := h slot hslot
  cases heq
  exact hnil

/-- Trees that agree position by position do not differ. -/
theorem differences_of_agree (h : control.Agree test) (parent : String) :
    control.differences Selector.standard parent test = [] :=
  differences_of_alike (fun _ _ hab => hab) (fun _ _ hab => hab.byNameAndText) [Selector.byName]
    (agree_iff_inStep.mp h) parent

/-- Where the children agree, only the elements themselves may differ. -/
theorem differences_of_children
    (hchildren : List.Forall₂ Agree control.childElements test.childElements) (parent : String) :
    control.differences Selector.standard parent test = ownDifferences parent control test := by
  have haccepted : List.Forall₂ (fun a b => Selector.byNameAndText a b = true)
      control.childElements test.childElements :=
    hchildren.imp fun _ _ hagree => (agree_iff.mp hagree).1.byNameAndText
  have hpairs : (control.childElements.zip test.childElements).flatMap (fun pair =>
      pair.1.differences Selector.standard control.name pair.2) = [] := by
    rw [List.flatMap_eq_nil_iff]
    rintro ⟨a, b⟩ hpair
    exact differences_of_agree (List.forall₂_zip hchildren hpair) control.name
  rw [show control.differences Selector.standard parent test = _ from
    differences_of_accepted parent [Selector.byName] haccepted]
  exact (congrArg (ownDifferences parent control test ++ ·) hpairs).trans (List.append_nil _)

/-- Where the children before and behind some slots agree, only these slots lead to differences. -/
theorem differences_of_middle (parent : String)
    (hcontrol : control.childElements = controls (before ++ middle ++ after))
    (htest : test.childElements = tests (before ++ middle ++ after))
    (hmatching : Matching.ofChildren Selector.standard (controls (before ++ middle ++ after))
      (tests (before ++ middle ++ after)) = Slot.matching (before ++ middle ++ after))
    (hbefore : ∀ slot ∈ before, ∃ a b, slot = shared a b ∧ a.Agree b)
    (hafter : ∀ slot ∈ after, ∃ a b, slot = shared a b ∧ a.Agree b) :
    control.differences Selector.standard parent test = ownDifferences parent control test ++
      (middle.filterMap couple?).flatMap (pairDifferences Selector.standard control.name) ++
      (extrasFrom (tests before).length middle).map fun extra =>
        .extraChild control.name
          (anchorPath control (Slot.matching (before ++ middle ++ after)) extra.2) extra.1 := by
  have hnil : ∀ part : List Slot, (∀ slot ∈ part, ∃ a b, slot = shared a b ∧ a.Agree b) →
      (part.filterMap couple?).flatMap (pairDifferences Selector.standard control.name) = [] := by
    intro part hpart
    apply flatMap_pairDifferences_eq_nil
    intro slot hslot
    obtain ⟨a, b, rfl, hagree⟩ := hpart slot hslot
    exact ⟨a, b, rfl, differences_of_agree hagree control.name⟩
  rw [differences_of_slots parent hcontrol htest hmatching, List.filterMap_append,
    List.filterMap_append, List.flatMap_append, List.flatMap_append, hnil before hbefore,
    hnil after hafter, List.nil_append, List.append_nil, extrasFrom_append, extrasFrom_append,
    extrasFrom_eq_nil (extra_not_mem hbefore), extrasFrom_eq_nil (extra_not_mem hafter),
    List.nil_append, List.append_nil, Nat.zero_add]

/-- What is related to a list in two parts is itself in two parts. -/
theorem forall₂_append_left {related : Element → Element → Prop} {as bs ts : List Element}
    (h : List.Forall₂ related (as ++ bs) ts) :
    ∃ ts₁ ts₂, ts = ts₁ ++ ts₂ ∧ List.Forall₂ related as ts₁ ∧ List.Forall₂ related bs ts₂ :=
  ⟨ts.take as.length, ts.drop as.length, (List.take_append_drop as.length ts).symm,
    (List.forall₂_take_append ts as bs h.flip).flip,
    (List.forall₂_drop_append ts as bs h.flip).flip⟩

/-- Where all children but one agree, the differences are those of that child. -/
theorem differences_of_child {c t : Element} {cs₁ cs₂ ts₁ ts₂ : List Element}
    (halike : control.Alike test) (hchild : c.Alike t)
    (hcontrol : control.childElements = cs₁ ++ c :: cs₂)
    (htest : test.childElements = ts₁ ++ t :: ts₂)
    (hbefore : List.Forall₂ Agree cs₁ ts₁) (hafter : List.Forall₂ Agree cs₂ ts₂)
    (parent : String) : control.differences Selector.standard parent test =
      c.differences Selector.standard control.name t := by
  have hlength : control.childElements.length = test.childElements.length := by
    have hlength₁ := hbefore.length_eq
    have hlength₂ := hafter.length_eq
    rw [hcontrol, htest, List.length_append, List.length_cons, List.length_append, List.length_cons]
    omega
  obtain ⟨slots₁, rfl, rfl, hslots₁⟩ := exists_slots_of_forall₂ hbefore
  obtain ⟨slots₂, rfl, rfl, hslots₂⟩ := exists_slots_of_forall₂ hafter
  have hslots : ∀ slot ∈ slots₁ ++ [shared c t] ++ slots₂, ∃ a b, slot = shared a b ∧
      Selector.byNameAndText a b = true := by
    rw [List.forall_mem_append, List.forall_mem_append, List.forall_mem_singleton]
    exact ⟨⟨shared_byNameAndText hslots₁, c, t, rfl, hchild.byNameAndText⟩,
      shared_byNameAndText hslots₂⟩
  have hmatching := ofChildren_of_no_extra (settled_of_shared hslots) (extra_not_mem hslots)
    [Selector.byName]
  have hcontrol' : control.childElements = controls (slots₁ ++ [shared c t] ++ slots₂) := by
    rw [hcontrol, controls_append, controls_append, List.append_assoc]
    rfl
  have htest' : test.childElements = tests (slots₁ ++ [shared c t] ++ slots₂) := by
    rw [htest, tests_append, tests_append, List.append_assoc]
    rfl
  rw [differences_of_middle parent hcontrol' htest' hmatching hslots₁ hslots₂,
    ownDifferences_of_alike halike, countDifferences_eq_nil_iff.mpr hlength]
  show List.flatMap (pairDifferences Selector.standard control.name) [(c, some t)] ++ [] = _
  rw [List.append_nil, List.flatMap_singleton]
  rfl

/-- The name of what is around `x` inside `e`, where `outer` is the name of what is around `e`. -/
def TagAround (e : Element) (outer : String) (x : Element) (tag : String) : Prop :=
  x = e ∧ tag = outer ∨ ∃ p ∈ e.all, x ∈ p.childElements ∧ tag = p.name

/-- The tag around an element in a child is the tag around it in the whole. -/
theorem TagAround.of_child {e c x : Element} {outer tag : String} (h : c.TagAround e.name x tag)
    (hc : c ∈ e.childElements) : e.TagAround outer x tag := by
  rcases h with ⟨rfl, rfl⟩ | ⟨p, hp, hxp, rfl⟩
  · exact .inr ⟨e, self_mem_all e, hc, rfl⟩
  · exact .inr ⟨p, mem_all_trans (child_mem_all hc) hp, hxp, rfl⟩

/-- Trees that agree but for what stands at a path: that is related to its counterpart in another
way. -/
inductive AgreeExcept (p : Path) (related : Element → Element → Prop) : Element → Element → Prop
  | here {a b : Element} : a.path = p → related a b → AgreeExcept p related a b
  | elsewhere {a b : Element} : a.path ≠ p → a.Alike b →
    List.Forall₂ (AgreeExcept p related) a.childElements b.childElements → AgreeExcept p related a b

variable {p : Path} {related : Element → Element → Prop}

/-- A tree in which nothing has the path agrees everywhere. -/
theorem AgreeExcept.agree (h : AgreeExcept p related control test)
    (hnot : p ∉ control.all.map path) : control.Agree test := by
  induction control using descent generalizing test with
  | step control ih =>
    rcases h with ⟨heq, -⟩ | ⟨-, halike, hchildren⟩
    · exact absurd (List.mem_map.mpr ⟨control, self_mem_all control, heq⟩) hnot
    · refine .intro halike (forall₂_imp_of_mem hchildren ?_)
      intro c hc d hcd
      apply ih c hc hcd
      intro hmem
      obtain ⟨x, hx, hpath⟩ := List.mem_map.mp hmem
      exact hnot (List.mem_map.mpr ⟨x, mem_all_trans (child_mem_all hc) hx, hpath⟩)

/-- The element has a counterpart to which it is related. -/
theorem AgreeExcept.exists_related {x : Element} (hplaced : control.Placed) (hx : x ∈ control.all)
    (h : AgreeExcept x.path related control test) : ∃ y, related x y := by
  induction control using descent generalizing test with
  | step control ih =>
    rcases mem_all_iff.mp hx with rfl | ⟨c, hc, hxc⟩
    · rcases h with ⟨-, hrelated⟩ | ⟨hne, -⟩
      · exact ⟨test, hrelated⟩
      · exact absurd rfl hne
    · rcases h with ⟨heq, -⟩ | ⟨-, -, hchildren⟩
      · exact absurd heq (path_ne_of_mem_child hplaced hc hxc)
      · obtain ⟨cs₁, cs₂, hsplit⟩ := List.append_of_mem hc
        rw [hsplit] at hchildren
        obtain ⟨ts₁, rest, -, -, hrest⟩ := forall₂_append_left hchildren
        obtain ⟨t, ts₂, hct, -, -⟩ := List.forall₂_cons_left_iff.mp hrest
        exact ih c hc (placed_of_child hplaced hc) hxc hct

/-- The differences of trees that agree but for one element are those of this element and its
counterpart, if these two are alike in themselves. -/
theorem differences_of_agreeExcept {x : Element} (halike : ∀ {a b}, related a b → a.Alike b)
    (hplaced : control.Placed) (hx : x ∈ control.all)
    (h : AgreeExcept x.path related control test) (parent : String) :
    ∃ tag y, control.TagAround parent x tag ∧ related x y ∧
      control.differences Selector.standard parent test =
        x.differences Selector.standard tag y := by
  induction control using descent generalizing parent test with
  | step control ih =>
    rcases mem_all_iff.mp hx with rfl | ⟨c, hc, hxc⟩
    · rcases h with ⟨-, hrelated⟩ | ⟨hne, -⟩
      · exact ⟨parent, test, .inl ⟨rfl, rfl⟩, hrelated, rfl⟩
      · exact absurd rfl hne
    · rcases h with ⟨heq, -⟩ | ⟨-, halike', hchildren⟩
      · exact absurd heq (path_ne_of_mem_child hplaced hc hxc)
      · obtain ⟨cs₁, cs₂, hsplit⟩ := List.append_of_mem hc
        rw [hsplit] at hchildren
        obtain ⟨ts₁, rest, htest, hbefore, hrest⟩ := forall₂_append_left hchildren
        obtain ⟨t, ts₂, hct, hafter, rfl⟩ := List.forall₂_cons_left_iff.mp hrest
        obtain ⟨tag, y, haround, hxy, hdifferences⟩ :=
          ih c hc (placed_of_child hplaced hc) hxc hct control.name
        have hagree : ∀ s ∈ cs₁ ++ cs₂, ∀ b, AgreeExcept x.path related s b → s.Agree b :=
          fun s hs b hsb => hsb.agree (not_mem_sibling hplaced hsplit hxc hs)
        have hbefore' := forall₂_imp_of_mem hbefore fun s hs => hagree s (List.mem_append_left _ hs)
        have hafter' := forall₂_imp_of_mem hafter fun s hs => hagree s (List.mem_append_right _ hs)
        have hchild : c.Alike t := by
          rcases hct with ⟨-, hrelated⟩ | ⟨-, hct, -⟩
          · exact halike hrelated
          · exact hct
        refine ⟨tag, y, haround.of_child hc, hxy, ?_⟩
        rw [← hdifferences]
        exact differences_of_child halike' hchild hsplit htest hbefore' hafter' parent

end Element

end XmlCompare
