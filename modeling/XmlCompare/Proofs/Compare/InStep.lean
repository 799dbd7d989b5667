import XmlCompare.Proofs.Compare.Likeness
import XmlCompare.Proofs.Document.Numbering

/-!
# Trees in step

Two trees are in step when they have the same shape and the elements at every position are related.
What the relation asks of two elements is a parameter, so trees that agree are those in step under
`Alike`. Listed in document order, the elements of two such trees are related one by one.

An element has its path from its own name and the names of its siblings, and of a name only the
local part counts. So trees in step whose names have the same local parts have the same paths.
-/

set_option autoImplicit false

namespace XmlCompare.Element

/-- Trees of one shape whose elements are related position by position. -/
inductive InStep (related : Element → Element → Prop) : Element → Element → Prop
  | intro {a b : Element} : related a b →
    List.Forall₂ (InStep related) a.childElements b.childElements → InStep related a b

variable {related related' : Element → Element → Prop} {a b : Element}

/-- Two trees are in step if their roots are related and their children are in step one by one. -/
theorem inStep_iff : InStep related a b ↔
    related a b ∧ List.Forall₂ (InStep related) a.childElements b.childElements := by
  constructor
  · rintro ⟨hrelated, hchildren⟩
    exact ⟨hrelated, hchildren⟩
  · rintro ⟨hrelated, hchildren⟩
    exact .intro hrelated hchildren

/-- A relation may be replaced by one that follows from it for the elements of the first tree. -/
theorem InStep.imp_of_mem (h : InStep related a b)
    (himp : ∀ x ∈ a.all, ∀ y, related x y → related' x y) : InStep related' a b := by
  induction a using descent generalizing b with
  | step a ih =>
    obtain ⟨hrelated, hchildren⟩ := inStep_iff.mp h
    refine .intro (himp a (self_mem_all a) b hrelated) (forall₂_imp_of_mem hchildren fun c hc d hcd =>
      ih c hc hcd fun x hx => himp x (mem_all_trans (child_mem_all hc) hx))

/-- A relation may be replaced by one that follows from it. -/
theorem InStep.imp (himp : ∀ x y, related x y → related' x y) (h : InStep related a b) :
    InStep related' a b :=
  h.imp_of_mem fun x _ => himp x

/-- A tree is in step with itself if its elements are related to themselves. -/
theorem inStep_self (h : ∀ x ∈ a.all, related x x) : InStep related a a := by
  induction a using descent with
  | step a ih =>
    refine .intro (h a (self_mem_all a)) (List.forall₂_same.mpr fun c hc => ih c hc ?_)
    intro x hx
    exact h x (mem_all_trans (child_mem_all hc) hx)

/-- To agree is to be alike in step. -/
theorem agree_iff_inStep : a.Agree b ↔ InStep Alike a b := by
  induction a using descent generalizing b with
  | step a ih =>
    rw [agree_iff, inStep_iff]
    refine and_congr_right fun _ => ?_
    constructor
    · exact fun h => forall₂_imp_of_mem h fun c hc d => (ih c hc).mp
    · exact fun h => forall₂_imp_of_mem h fun c hc d => (ih c hc).mpr

/-- Trees that agree do so in either direction. -/
theorem Agree.symm (h : a.Agree b) : b.Agree a :=
  h.euclidean (agree_iff_inStep.mpr (inStep_self fun x _ => Alike.refl x))

/-- In document order the elements of trees in step are in step one by one. -/
theorem InStep.all (h : InStep related a b) : List.Forall₂ (InStep related) a.all b.all := by
  induction a using descent generalizing b with
  | step a ih =>
    rw [all_eq a, all_eq b]
    refine .cons h ?_
    have hchildren := forall₂_imp_of_mem (inStep_iff.mp h).2 fun c hc d => ih c hc
    rw [List.flatMap_def, List.flatMap_def]
    apply List.rel_flatten
    exact List.forall₂_map_left_iff.mpr (List.forall₂_map_right_iff.mpr hchildren)

/-- The elements of two trees in step are related one by one, in the order of start tags. -/
theorem InStep.elements (h : InStep related a b) : List.Forall₂ related a.all b.all :=
  h.all.imp fun _ _ hxy => (inStep_iff.mp hxy).1

/-- The pairs of elements of trees in step: the two trees, and the pairs in their children. -/
theorem InStep.zip_all (h : InStep related a b) : a.all.zip b.all =
    (a, b) :: (a.childElements.zip b.childElements).flatMap fun pair =>
      pair.1.all.zip pair.2.all := by
  rw [all_eq a, all_eq b, List.zip_cons_cons]
  congr 1
  have hchildren := (inStep_iff.mp h).2
  generalize a.childElements = as at hchildren ⊢
  generalize b.childElements = bs at hchildren ⊢
  induction hchildren with
  | nil => rfl
  | cons hpair _ ih =>
    rw [List.flatMap_cons, List.flatMap_cons, List.zip_append hpair.all.length_eq, ih,
      List.zip_cons_cons, List.flatMap_cons]

/-! ## Paths -/

/-- Elements whose names have the same local part. -/
def SameLocalPart (a b : Element) : Prop := Name.localPart a.name = Name.localPart b.name

/-- The ordinal of a child counts the local parts of the names before it. -/
theorem ordinalAfter_eq {as bs : List Element} (h : List.Forall₂ SameLocalPart as bs)
    {name name' : String} (hname : Name.localPart name = Name.localPart name') :
    ordinalAfter as name = ordinalAfter bs name' := by
  have hparts : as.map (fun e => Name.localPart e.name) =
      bs.map fun e => Name.localPart e.name := by
    rw [← List.forall₂_eq_eq_eq, List.forall₂_map_left_iff, List.forall₂_map_right_iff]
    exact h
  have hcount := congrArg (List.countP (· = Name.localPart name)) hparts
  rw [List.countP_map, List.countP_map] at hcount
  rw [ordinalAfter, ordinalAfter, ← hname]
  exact congrArg (· + 1) hcount

/-- Numbered siblings with the same local parts of names have the same paths. -/
theorem paths_of_sameLocalPart {parent : Path} {as bs : List Element} (ha : Numbered parent as)
    (hb : Numbered parent bs) (h : List.Forall₂ SameLocalPart as bs) :
    List.Forall₂ (fun x y => x.path = y.path) as bs := by
  -- The siblings before those that are left have been gone over; they count in the ordinals.
  suffices hsuffix : ∀ {before before' : List Element}, List.Forall₂ SameLocalPart before before' →
      Numbered parent (before ++ as) → Numbered parent (before' ++ bs) →
        List.Forall₂ (fun x y => x.path = y.path) as bs from hsuffix .nil ha hb
  clear ha hb
  induction h with
  | nil => exact fun _ _ _ => .nil
  | @cons x y as bs hxy _ ih =>
    intro before before' hbefore ha hb
    refine .cons ?_ (ih (List.rel_append hbefore (.cons hxy .nil)) ?_ ?_)
    · rw [ha before x as rfl, hb before' y bs rfl, Path.child_inj]
      exact ⟨hxy, ordinalAfter_eq hbefore hxy⟩
    · rwa [List.append_assoc]
    · rwa [List.append_assoc]

/-- Numbered trees in step have the same paths if their names have the same local parts. -/
theorem InStep.and_paths (hname : ∀ x y, related x y → SameLocalPart x y)
    (h : InStep related a b) (ha : a.Placed) (hb : b.Placed) (hpath : a.path = b.path) :
    InStep (fun x y => related x y ∧ x.path = y.path) a b := by
  induction a using descent generalizing b with
  | step a ih =>
    obtain ⟨hrelated, hchildren⟩ := inStep_iff.mp h
    have hnumbered := ha a (self_mem_all a)
    rw [hpath] at hnumbered
    have hpaths := paths_of_sameLocalPart hnumbered (hb b (self_mem_all b))
      (hchildren.imp fun x y hxy => hname x y (inStep_iff.mp hxy).1)
    refine .intro ⟨hrelated, hpath⟩ (List.forall₂_iff_zip.mpr ⟨hchildren.length_eq, ?_⟩)
    intro x y hxy
    obtain ⟨hx, hy⟩ := List.of_mem_zip hxy
    exact ih x hx (List.forall₂_zip hchildren hxy) (placed_of_child ha hx) (placed_of_child hb hy)
      (List.forall₂_zip hpaths hxy)

end XmlCompare.Element

/-- The trees of two documents have the same paths if they are in step and related elements have the
same names. -/
theorem XmlCompare.Document.and_paths {related : Element → Element → Prop} {c c' : Document}
    (hc : c.Placed) (hc' : c'.Placed) (hname : ∀ x y, related x y → x.name = y.name)
    (h : c.root.InStep related c'.root) :
    c.root.InStep (fun x y => related x y ∧ x.path = y.path) c'.root := by
  refine h.and_paths ?_ hc.inner hc'.inner ?_
  · intro x y hxy
    rw [Element.SameLocalPart, hname x y hxy]
  · rw [hc.root, hc'.root, hname _ _ (Element.inStep_iff.mp h).1]
