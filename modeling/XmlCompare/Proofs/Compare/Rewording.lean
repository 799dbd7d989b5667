import XmlCompare.Proofs.Compare.Locality

/-!
# What a changed text comes to

In the test tree one element has another text. By name and text it gets no partner, and nobody else
takes its counterpart, as long as none of its siblings has its name with the old or the new text. So
after the first pass the two are what is left over, and the selector by name brings them together.
Their texts are then all that differs.
-/

set_option autoImplicit false

namespace XmlCompare

namespace Slot

variable {before after : List Slot} {x y : Element}

/-- Where an element and its counterpart are alone, a selector that accepts them brings them
together. -/
theorem refine_of_alone {accepts : Selector} (hbefore : ∀ slot ∈ before, ∃ a b, slot = shared a b)
    (hafter : ∀ slot ∈ after, ∃ a b, slot = shared a b) (haccepts : accepts x y = true) :
    Matching.refine (controls (before ++ [missing x, extra y] ++ after))
        (tests (before ++ [missing x, extra y] ++ after))
        (partnersFrom 0 (before ++ [missing x, extra y] ++ after)) accepts =
      partnersFrom 0 (before ++ [shared x y] ++ after) := by
  have hcontrols : controls (before ++ [missing x, extra y] ++ after) =
      controls before ++ x :: controls after := by
    rw [controls_append, controls_append, List.append_assoc]
    rfl
  have halone : partnersFrom 0 (before ++ [missing x, extra y] ++ after) =
      partnersFrom 0 before ++ none :: partnersFrom ((tests before).length + 1) after := by
    simp [partnersFrom_append, partnersFrom, tests, test?]
  have hshared : partnersFrom 0 (before ++ [shared x y] ++ after) = partnersFrom 0 before ++
      some (tests before).length :: partnersFrom ((tests before).length + 1) after := by
    simp [partnersFrom_append, partnersFrom, tests, test?]
  have hfree : Matching.freeChildren (tests (before ++ [missing x, extra y] ++ after))
      (partnersFrom 0 (before ++ [missing x, extra y] ++ after)) =
        [(y, (tests before).length)] := by
    refine (free_eq_extrasFrom 0 _).trans ?_
    simp [extrasFrom_append, extrasFrom, extrasFrom_eq_nil (alone_not_mem hbefore).2,
      extrasFrom_eq_nil (alone_not_mem hafter).2]
  have hpaired : ∀ child ∈ (controls before).zip (partnersFrom 0 before), child.2 ≠ none :=
    fun child hchild =>
      partnersFrom_ne_none (alone_not_mem hbefore).1 0 _ (List.of_mem_zip hchild).2
  have hchoose : Matching.choose accepts 0 [(y, (tests before).length)] x =
      some (tests before).length :=
    @choose_eq_some accepts 0 _ [] [] x y (by simp) (Nat.zero_le _) haccepts
  have hrest : Matching.pass accepts ((tests before).length + 1) [] ((controls after).zip
      (partnersFrom ((tests before).length + 1) after)) =
        partnersFrom ((tests before).length + 1) after := by
    rw [pass_nil, List.map_snd_zip (Nat.le_of_eq (length_partnersFrom _ after))]
  rw [Matching.refine, hfree, hcontrols, halone, hshared,
    List.zip_append (length_partnersFrom 0 before).symm, List.zip_cons_cons,
    Matching.pass_append_of_paired accepts 0 _ hpaired, Matching.pass, hchoose,
    List.map_snd_zip (Nat.le_of_eq (length_partnersFrom 0 before))]
  simp [hrest]

/-- Two siblings that only the second selector accepts become partners in its pass. -/
theorem ofChildren_of_second {first second : Selector}
    (hsettled : Settled first (before ++ [missing x, extra y] ++ after))
    (hbefore : ∀ slot ∈ before, ∃ a b, slot = shared a b)
    (hafter : ∀ slot ∈ after, ∃ a b, slot = shared a b) (haccepts : second x y = true) :
    Matching.ofChildren [first, second] (controls (before ++ [shared x y] ++ after))
        (tests (before ++ [shared x y] ++ after)) =
      matching (before ++ [shared x y] ++ after) := by
  have hcontrols : controls (before ++ [shared x y] ++ after) =
      controls (before ++ [missing x, extra y] ++ after) := by
    simp only [controls_append]
    rfl
  have htests : tests (before ++ [shared x y] ++ after) =
      tests (before ++ [missing x, extra y] ++ after) := by
    simp only [tests_append]
    rfl
  apply ofChildren_of_foldl
  rw [hcontrols, htests, List.foldl_cons, refine_eq_partnersFrom hsettled, List.foldl_cons,
    refine_of_alone hbefore hafter haccepts, List.foldl_nil]

end Slot

namespace Element

open Slot

variable {control test : Element}

/-- Elements that are alike but for the text, which is another one on the test side, and whose
children agree. -/
structure Reworded (text : Option String) (a b : Element) : Prop where
  expanded : a.expanded = b.expanded
  attributes : a.SameAttributes b
  text : b.textContent = text
  children : List.Forall₂ Agree a.childElements b.childElements

/-- What agrees but for the text of one child agrees but for what is inside the parent. -/
theorem agreeExcept_of_child {p x : Element} {related : Element → Element → Prop}
    (hplaced : control.Placed) (hplacedp : p.Placed) (hx : x ∈ p.childElements)
    (hne : control.path ≠ x.path) (h : AgreeExcept x.path related control test) :
    AgreeExcept p.path (fun a b => a.Alike b ∧
      List.Forall₂ (AgreeExcept x.path related) a.childElements b.childElements) control test := by
  induction control using descent generalizing test with
  | step control ih =>
    rcases h with ⟨heq, -⟩ | ⟨-, halike, hchildren⟩
    · exact absurd heq hne
    · by_cases hpath : control.path = p.path
      · exact .here hpath ⟨halike, hchildren⟩
      · refine .elsewhere hpath halike (forall₂_imp_of_mem hchildren ?_)
        intro s hs b
        have hother : s.path ≠ x.path := fun heq =>
          hpath (parent_path_eq hplaced hplacedp hs hx heq)
        exact ih s hs (placed_of_child hplaced hs) hother

/-- What differs where `x` has another text, below an element called `parent`. -/
def rewordingDifference (parent : String) (x : Element) (text : Option String) : Difference :=
  .between .textValue x.textContent text x.path parent x.name

variable {p q x y : Element} {text : Option String}

/-- A reworded element whose text is another one differs in its text only. -/
theorem differences_of_reworded (h : Reworded text x y) (hne : text ≠ x.textContent)
    (parent : String) :
    x.differences Selector.standard parent y = [rewordingDifference parent x text] := by
  have htext : textDifferences parent x y = [rewordingDifference parent x text] := by
    rw [textDifferences, h.text, if_neg (Ne.symm hne)]
    rfl
  rw [differences_of_children h.children, ownDifferences,
    nameDifferences_eq_nil_iff.mpr h.expanded, attributeDifferences_eq_nil_iff.mpr h.attributes, htext,
    countDifferences_eq_nil_iff.mpr h.children.length_eq]
  rfl

/-- At the level of the changed text all siblings are paired. -/
theorem differences_of_reworded_child {cs₁ cs₂ ts₁ ts₂ : List Element} (halike : p.Alike q)
    (hxy : Reworded text x y) (hne : text ≠ x.textContent)
    (hcontrol : p.childElements = cs₁ ++ x :: cs₂) (htest : q.childElements = ts₁ ++ y :: ts₂)
    (hbefore : List.Forall₂ Agree cs₁ ts₁) (hafter : List.Forall₂ Agree cs₂ ts₂)
    (hunlike : ∀ s ∈ cs₁ ++ cs₂, ¬ (s.expanded = x.expanded ∧
      (s.textContent = x.textContent ∨ s.textContent = text))) (parent : String) :
    p.differences Selector.standard parent q = [rewordingDifference p.name x text] := by
  have hlength : p.childElements.length = q.childElements.length := by
    rw [hcontrol, htest, List.length_append, List.length_append, List.length_cons,
      List.length_cons, hbefore.length_eq, hafter.length_eq]
  obtain ⟨before, rfl, rfl, hslots₁⟩ := exists_slots_of_forall₂ hbefore
  obtain ⟨after, rfl, rfl, hslots₂⟩ := exists_slots_of_forall₂ hafter
  have hcontrol' : p.childElements = controls (before ++ [shared x y] ++ after) := by
    rw [hcontrol, controls_append, controls_append, List.append_assoc]
    rfl
  have htest' : q.childElements = tests (before ++ [shared x y] ++ after) := by
    rw [htest, tests_append, tests_append, List.append_assoc]
    rfl
  have hshared₁ : ∀ slot ∈ before, ∃ a b, slot = shared a b := fun slot hslot =>
    (hslots₁ slot hslot).imp fun a h => h.imp fun b h => h.1
  have hshared₂ : ∀ slot ∈ after, ∃ a b, slot = shared a b := fun slot hslot =>
    (hslots₂ slot hslot).imp fun a h => h.imp fun b h => h.1
  have hreject : Selector.byNameAndText x y = false := by
    rw [Selector.byNameAndText_eq_false_iff, hxy.text]
    rintro ⟨-, htext⟩
    exact hne htext.symm
  have halone : Settled Selector.byNameAndText [missing x, extra y] := by
    constructor <;> simp [tests, controls, control?, test?, hreject]
  have hsettled : Settled Selector.byNameAndText (before ++ [missing x, extra y] ++ after) := by
    apply halone.between
    intro slot hslot
    obtain ⟨a, b, rfl, hagree⟩ := List.forall_mem_append.mpr ⟨hslots₁, hslots₂⟩ slot hslot
    have hab := (agree_iff.mp hagree).1
    have ha : a ∈ controls before ++ controls after := by
      rw [← controls_append]
      exact mem_controls_of_shared hslot
    refine ⟨a, b, rfl, hab.byNameAndText, ?_, ?_⟩
    · intro c hc
      obtain rfl : c = x := by simpa using hc
      rw [Selector.byNameAndText_eq_false_iff]
      rintro ⟨hexpanded, htext⟩
      exact hunlike a ha ⟨hab.expanded.trans hexpanded.symm, .inl (hab.text.trans htext.symm)⟩
    · intro t ht
      obtain rfl : t = y := by simpa using ht
      rw [Selector.byNameAndText_eq_false_iff]
      rintro ⟨hexpanded, htext⟩
      exact hunlike a ha ⟨hexpanded.trans hxy.expanded.symm, .inr (htext.trans hxy.text)⟩
  have hmatching := ofChildren_of_second hsettled hshared₁ hshared₂
    (show Selector.byName x y = true from decide_eq_true hxy.expanded)
  rw [differences_of_middle parent hcontrol' htest' hmatching hslots₁ hslots₂,
    ownDifferences_of_alike halike, countDifferences_eq_nil_iff.mpr hlength]
  show List.flatMap (pairDifferences Selector.standard p.name) [(x, some y)] ++ [] = _
  rw [List.append_nil, List.flatMap_singleton]
  exact differences_of_reworded hxy hne p.name

/-- A tree differs from what agrees with it but for the text of one element by this text. -/
theorem differences_of_rewording (hplaced : control.Placed) (hp : p ∈ control.all)
    (hx : x ∈ p.childElements) (hne : text ≠ x.textContent)
    (hunlike : ∀ s ∈ p.childElements, s ≠ x → ¬ (s.expanded = x.expanded ∧
      (s.textContent = x.textContent ∨ s.textContent = text)))
    (h : AgreeExcept x.path (Reworded text) control test) (parent : String) :
    control.differences Selector.standard parent test = [rewordingDifference p.name x text] := by
  have hplacedp : p.Placed := fun y hy => hplaced y (mem_all_trans hp hy)
  have hroot : control.path ≠ x.path := by
    intro hpath
    have hle := (isPrefix_of_mem_all hplaced hp).length_le
    have hlt := depth_lt_of_child hplacedp hx (self_mem_all x)
    rw [← hpath] at hlt
    exact absurd hle (Nat.not_le.mpr hlt)
  obtain ⟨tag, q, -, ⟨halike, hchildren⟩, hdifferences⟩ := differences_of_agreeExcept
    (fun h => h.1) hplaced hp (agreeExcept_of_child hplaced hplacedp hx hroot h) parent
  rw [hdifferences]
  obtain ⟨cs₁, cs₂, hsplit⟩ := List.append_of_mem hx
  rw [hsplit] at hchildren
  obtain ⟨ts₁, rest, htest, hbefore, hrest⟩ := forall₂_append_left hchildren
  obtain ⟨y, ts₂, hxy, hafter, rfl⟩ := List.forall₂_cons_left_iff.mp hrest
  have hreworded : Reworded text x y := by
    rcases hxy with ⟨-, hxy⟩ | ⟨hother, -⟩
    · exact hxy
    · exact absurd rfl hother
  have hsiblings : ∀ s ∈ cs₁ ++ cs₂, x.path ∉ s.all.map path := fun s hs =>
    not_mem_sibling hplacedp hsplit (self_mem_all x) hs
  have hbefore' := forall₂_imp_of_mem hbefore fun s hs b hsb =>
    hsb.agree (hsiblings s (List.mem_append_left _ hs))
  have hafter' := forall₂_imp_of_mem hafter fun s hs b hsb =>
    hsb.agree (hsiblings s (List.mem_append_right _ hs))
  apply differences_of_reworded_child halike hreworded hne hsplit htest hbefore' hafter'
  intro s hs
  apply hunlike s
  · rw [hsplit, List.mem_append, List.mem_cons]
    rw [List.mem_append] at hs
    exact hs.imp_right .inr
  · rintro rfl
    exact hsiblings s hs (List.mem_map_of_mem (self_mem_all s))

end Element

end XmlCompare
