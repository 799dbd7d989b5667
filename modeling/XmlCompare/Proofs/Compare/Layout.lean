import XmlCompare.Proofs.Compare.InStep
import XmlCompare.Proofs.Compare.Parts

/-!
# What a comparison depends on

Two pairs of trees are compared side by side. If the selectors answer alike for elements that are in
step, then in every pass the same positions are paired, the same children are left over, and each of
them is addressed next to the same sibling. So the differences depend on nothing but what the
elements are written with and where they have their paths; lines, comments, declarations and the
blanks around words have no part in them.
-/

set_option autoImplicit false

namespace XmlCompare

/-! ## Lists side by side -/

section Lists

variable {α β γ δ ε : Type} {r : α → β → Prop} {s : γ → δ → Prop}

/-- Pairs whose parts are related on both sides. -/
def Both (r : α → β → Prop) (s : γ → δ → Prop) (x : α × γ) (y : β × δ) : Prop :=
  r x.1 y.1 ∧ s x.2 y.2

/-- Lists that are related one by one stay so when they are zipped. -/
theorem forall₂_both_zip {as : List α} {bs : List β} {cs : List γ} {ds : List δ}
    (h : List.Forall₂ r as bs) (h' : List.Forall₂ s cs ds) :
    List.Forall₂ (Both r s) (as.zip cs) (bs.zip ds) := by
  induction h generalizing cs ds with
  | nil => exact .nil
  | cons hab _ ih =>
    cases h' with
    | nil => exact .nil
    | cons hcd hrest => exact .cons ⟨hab, hcd⟩ (ih hrest)

/-- Every member of a list is related to one of the other list. -/
theorem exists_mem_of_forall₂ {as : List α} {bs : List β} {a : α} (h : List.Forall₂ r as bs)
    (ha : a ∈ as) : ∃ b ∈ bs, r a b := by
  induction h with
  | nil => cases ha
  | @cons c d as bs hcd _ ih =>
    rcases List.mem_cons.mp ha with rfl | ha
    · exact ⟨d, List.mem_cons_self, hcd⟩
    · obtain ⟨b, hb, hab⟩ := ih ha
      exact ⟨b, List.mem_cons_of_mem d hb, hab⟩

/-- At every position there are related members, or none. -/
theorem rel_getElem? {as : List α} {bs : List β} (h : List.Forall₂ r as bs) (i : Nat) :
    Option.Rel r as[i]? bs[i]? := by
  induction h generalizing i with
  | nil => exact .none
  | cons hab _ ih =>
    cases i with
    | zero => exact .some hab
    | succ i => exact ih i

/-- Tests that answer alike for related members find related members, or none. -/
theorem rel_find? {as : List α} {bs : List β} {p : α → Bool} {q : β → Bool}
    (hpq : ∀ a b, r a b → p a = q b) (h : List.Forall₂ r as bs) :
    Option.Rel r (as.find? p) (bs.find? q) := by
  induction h with
  | nil => exact .none
  | @cons a b as bs hab _ ih =>
    rw [List.find?_cons, List.find?_cons, hpq a b hab]
    cases q b with
    | true => exact .some hab
    | false => exact ih

/-- Functions that agree on related values agree on related options. -/
theorem map_eq_of_rel {x : Option α} {y : Option β} {f : α → ε} {g : β → ε}
    (hfg : ∀ a b, r a b → f a = g b) (h : Option.Rel r x y) : x.map f = y.map g := by
  cases h with
  | none => rfl
  | some hab => exact congrArg some (hfg _ _ hab)

/-- Lists that give the same one by one give the same altogether. -/
theorem flatMap_eq_of_forall₂ {as : List α} {bs : List β} {f : α → List ε} {g : β → List ε}
    (h : List.Forall₂ (fun a b => f a = g b) as bs) : as.flatMap f = bs.flatMap g := by
  induction h with
  | nil => rfl
  | cons hab _ ih => rw [List.flatMap_cons, List.flatMap_cons, hab, ih]

end Lists

variable {related : Element → Element → Prop}

/-- The selector answers alike for elements that are related. -/
def Selector.Respects (related : Element → Element → Prop) (accepts : Selector) : Prop :=
  ∀ a a' b b', related a a' → related b b' → accepts a b = accepts a' b'

namespace Matching

variable {accepts : Selector} {selectors : List Selector}
  {control control' test test' : List Element} {free free' : List (Element × Nat)}

/-- What is kept of the children is decided by their positions. -/
theorem filter_congr (hfree : List.Forall₂ (Both related Eq) free free') (p : Nat → Bool) :
    List.Forall₂ (Both related Eq) (free.filter fun x => p x.2) (free'.filter fun x => p x.2) := by
  refine List.rel_filter ?_ hfree
  rintro x y ⟨-, hposition⟩
  show p x.2 = true ↔ p y.2 = true
  rw [hposition]

/-- Candidates that are related are searched in the same order. -/
theorem searchOrder_congr (hfree : List.Forall₂ (Both related Eq) free free') (cursor : Nat) :
    List.Forall₂ (Both related Eq) (searchOrder cursor free) (searchOrder cursor free') :=
  List.rel_append (filter_congr hfree fun i => cursor ≤ i) (filter_congr hfree fun i => i < cursor)

/-- Related children choose the same position. -/
theorem choose_congr (haccepts : accepts.Respects related) {a a' : Element} (ha : related a a')
    (hfree : List.Forall₂ (Both related Eq) free free') (cursor : Nat) :
    choose accepts cursor free a = choose accepts cursor free' a' :=
  map_eq_of_rel (fun _ _ hxy => hxy.2)
    (rel_find? (fun x y hxy => haccepts a a' x.1 y.1 ha hxy.1) (searchOrder_congr hfree cursor))

/-- A pass over related children, with related children to choose from, gives the same partners. -/
theorem pass_congr (haccepts : accepts.Respects related)
    {children children' : List (Element × Option Nat)}
    (hchildren : List.Forall₂ (Both related Eq) children children')
    (hfree : List.Forall₂ (Both related Eq) free free') (cursor : Nat) :
    pass accepts cursor free children = pass accepts cursor free' children' := by
  induction hchildren generalizing cursor free free' with
  | nil => rfl
  | @cons x y children children' hxy _ ih =>
    obtain ⟨a, partner⟩ := x
    obtain ⟨a', partner'⟩ := y
    obtain ⟨ha, hpartner⟩ := hxy
    obtain rfl : partner = partner' := hpartner
    cases partner with
    | some i => exact congrArg (some i :: ·) (ih hfree cursor)
    | none =>
      have hchoose := choose_congr haccepts ha hfree cursor
      rw [pass, pass, hchoose]
      cases choose accepts cursor free' a' with
      | none => exact congrArg (none :: ·) (ih hfree cursor)
      | some i => exact congrArg (some i :: ·) (ih (filter_congr hfree fun j => j ≠ i) (i + 1))

/-- Children that are related are free at the same positions. -/
theorem freeChildren_congr (htest : List.Forall₂ related test test')
    (partners : List (Option Nat)) :
    List.Forall₂ (Both related Eq) (freeChildren test partners) (freeChildren test' partners) := by
  have hplaced : List.Forall₂ (Both related Eq) test.zipIdx test'.zipIdx := by
    rw [List.zipIdx_eq_zip_range', List.zipIdx_eq_zip_range', htest.length_eq]
    exact forall₂_both_zip htest (List.forall₂_refl _)
  exact filter_congr hplaced fun i => !partners.contains (some i)

/-- A pass of a selector that respects the relation finds the same partners. -/
theorem refine_congr (haccepts : accepts.Respects related)
    (hcontrol : List.Forall₂ related control control') (htest : List.Forall₂ related test test')
    (partners : List (Option Nat)) :
    refine control test partners accepts = refine control' test' partners accepts :=
  pass_congr haccepts (forall₂_both_zip hcontrol (List.forall₂_refl _))
    (freeChildren_congr htest partners) 0

/-- Related siblings are matched by the same positions. -/
theorem ofChildren_congr (hselectors : ∀ accepts ∈ selectors, accepts.Respects related)
    (hcontrol : List.Forall₂ related control control') (htest : List.Forall₂ related test test') :
    ofChildren selectors control test = ofChildren selectors control' test' := by
  have hpartners : ∀ partners, selectors.foldl (refine control test) partners =
      selectors.foldl (refine control' test') partners := by
    induction selectors with
    | nil => exact fun _ => rfl
    | cons accepts selectors ih =>
      intro partners
      rw [List.foldl_cons, List.foldl_cons,
        refine_congr (hselectors accepts List.mem_cons_self) hcontrol htest]
      exact ih (fun accepts haccepts => hselectors accepts (List.mem_cons_of_mem _ haccepts)) _
  have hfree : ∀ partners, (freeChildren test partners).map Prod.snd =
      (freeChildren test' partners).map Prod.snd := by
    intro partners
    rw [← List.forall₂_eq_eq_eq, List.forall₂_map_left_iff, List.forall₂_map_right_iff]
    exact (freeChildren_congr htest partners).imp fun _ _ hxy => hxy.2
  have hnone : control.map (fun _ => (none : Option Nat)) = control'.map fun _ => none := by
    rw [List.map_const', List.map_const', hcontrol.length_eq]
  rw [ofChildren, ofChildren, hnone, hpartners, hfree]

end Matching

namespace Element

/-- Elements that are written the same: their names and attributes, as they are written and
expanded, the order of the attributes, and the text. -/
structure WrittenAlike (a b : Element) : Prop where
  name : a.name = b.name
  expanded : a.expanded = b.expanded
  attributes : a.attributes = b.attributes
  text : a.textContent = b.textContent

variable {selectors : List Selector} {control control' test test' : Element}

/-- What differs about two elements themselves depends on what they are written with, on the path
of the control element and on the numbers of children. -/
theorem ownDifferences_congr (hcontrol : control.WrittenAlike control')
    (htest : test.WrittenAlike test') (hpath : control.path = control'.path)
    (hcount : control.childElements.length = control'.childElements.length)
    (hcount' : test.childElements.length = test'.childElements.length) (parent : String) :
    ownDifferences parent control test = ownDifferences parent control' test' := by
  simp only [ownDifferences, nameDifferences, attributeDifferences, attributeDifference?,
    extraAttribute?, textDifferences, countDifferences, hcontrol.name, hcontrol.expanded,
    hcontrol.attributes, hcontrol.text, htest.name, htest.expanded, htest.attributes, htest.text,
    hpath, hcount, hcount']

/-- An extra child is addressed at the same path among control children with the same paths. -/
theorem anchorPath_congr (hpath : control.path = control'.path)
    (hchildren : List.Forall₂ (fun a b => a.path = b.path) control.childElements
      control'.childElements) (m : Matching) (position : Nat) :
    anchorPath control m position = anchorPath control' m position := by
  unfold anchorPath
  cases m.anchor? position with
  | none => exact hpath
  | some i =>
    have hsibling := rel_getElem? hchildren i
    rw [Option.bind_some, Option.bind_some]
    generalize control.childElements[i]? = x at hsibling ⊢
    generalize control'.childElements[i]? = y at hsibling ⊢
    cases hsibling with
    | none => exact hpath
    | some hsibling => exact hsibling

/-- The children without partner are reported alike where names and paths are the same. -/
theorem extraDifferences_congr (hname : control.name = control'.name)
    (hpath : control.path = control'.path)
    (hchildren : List.Forall₂ (fun a b => a.path = b.path) control.childElements
      control'.childElements)
    (htest : List.Forall₂ (fun a b => a.name = b.name) test.childElements test'.childElements)
    (m : Matching) : extraDifferences control test m = extraDifferences control' test' m := by
  refine List.filterMap_congr fun position _ => ?_
  rw [hname, anchorPath_congr hpath hchildren]
  refine map_eq_of_rel (fun a b hab => ?_) (rel_getElem? htest position)
  rw [Difference.extraChild, Difference.extraChild, hab]

/-- Control children that are in step have counterparts that are in step. -/
theorem counterparts_congr {related : Element → Element → Prop}
    (hmatching : matching selectors control test = matching selectors control' test')
    (htest : List.Forall₂ related test.childElements test'.childElements) :
    List.Forall₂ (Option.Rel related) (counterparts selectors control test)
      (counterparts selectors control' test') := by
  rw [counterparts, counterparts, hmatching, List.forall₂_map_left_iff,
    List.forall₂_map_right_iff, List.forall₂_same]
  intro partner _
  cases partner with
  | none => exact .none
  | some i => exact rel_getElem? htest i

/-- Trees in step that are written the same, with the same paths on the control side, have the same
differences. -/
theorem differences_congr
    (hselectors : ∀ accepts ∈ selectors, accepts.Respects (InStep WrittenAlike))
    (hcontrol : InStep (fun a b => a.WrittenAlike b ∧ a.path = b.path) control control')
    (htest : InStep WrittenAlike test test') (parent : String) :
    control.differences selectors parent test = control'.differences selectors parent test' := by
  induction control using descent generalizing control' test test' parent with
  | step control ih =>
    obtain ⟨⟨hwritten, hpath⟩, hchildren⟩ := inStep_iff.mp hcontrol
    obtain ⟨htestWritten, htestChildren⟩ := inStep_iff.mp htest
    have hmatching : matching selectors control test = matching selectors control' test' :=
      Matching.ofChildren_congr hselectors
        (hchildren.imp fun _ _ hab => hab.imp fun _ _ hxy => hxy.1) htestChildren
    have hown := ownDifferences_congr hwritten htestWritten hpath hchildren.length_eq
      htestChildren.length_eq parent
    have hextra := extraDifferences_congr hwritten.name hpath
      (hchildren.imp fun _ _ hab => (inStep_iff.mp hab).1.2)
      (htestChildren.imp fun _ _ hab => (inStep_iff.mp hab).1.name)
      (matching selectors control test)
    have hpairs : (control.childElements.zip (counterparts selectors control test)).flatMap
        (pairDifferences selectors control.name) =
          (control'.childElements.zip (counterparts selectors control' test')).flatMap
            (pairDifferences selectors control'.name) := by
      have hzip := forall₂_both_zip hchildren (counterparts_congr hmatching htestChildren)
      refine flatMap_eq_of_forall₂ (forall₂_imp_of_mem hzip ?_)
      rintro ⟨a, counterpart⟩ hpair ⟨a', counterpart'⟩ ⟨ha, hcounterpart⟩
      cases hcounterpart with
      | some hb =>
        rw [hwritten.name]
        exact ih a (List.of_mem_zip hpair).1 ha hb control'.name
      | none =>
        obtain ⟨haWritten, haPath⟩ := (inStep_iff.mp ha).1
        simp only [pairDifferences, Difference.missingChild, hwritten.name, haWritten.name, haPath]
    rw [differences_eq, differences_eq, hown, hpairs, hextra, hmatching]

end Element

end XmlCompare
