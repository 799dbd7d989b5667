import Mathlib.Logic.Relation
import XmlCompare.Document.Element

/-!
# Descending into a tree

A statement about all elements is proved by descent: it has to be shown of an element whose child
elements have it. `Element.all` lists what is reached from an element by going from parent to
child any number of times, so every listed element but the first is a child of another one.
-/

set_option autoImplicit false

namespace XmlCompare.Element

/-- What every element inherits from its child elements holds of all elements. -/
theorem descent {P : Element → Prop} (step : ∀ e, (∀ c ∈ e.childElements, P c) → P e)
    (e : Element) : P e := by
  -- Nodes and lists of nodes take part in the recursion: what is known of them concerns the
  -- elements among them.
  refine @Element.rec P (fun node => ∀ c, node.element? = some c → P c)
    (fun nodes => ∀ c ∈ nodes.filterMap Node.element?, P c) ?_ ?_ ?_ ?_ ?_ ?_ e
  · intro heading children ih
    exact step _ ih
  · rintro e he c ⟨⟩
    exact he
  · rintro content c ⟨⟩
  · rintro content c ⟨⟩
  · intro c hc
    cases hc
  · intro node rest hnode hrest c hc
    rcases List.mem_filterMap.mp hc with ⟨n, hn, hnc⟩
    rcases List.mem_cons.mp hn with rfl | hn
    · exact hnode c hnc
    · exact hrest c (List.mem_filterMap.mpr ⟨n, hn, hnc⟩)

/-- An element is the parent of another one. -/
def IsParent (p c : Element) : Prop := c ∈ p.childElements

/-- An element is among the elements of its tree. -/
theorem self_mem_all (e : Element) : e ∈ e.all := by
  rw [all_eq]
  exact List.mem_cons_self

/-- The elements of a tree are its root and those of the trees below the root. -/
theorem mem_all_iff {e x : Element} : x ∈ e.all ↔ x = e ∨ ∃ c ∈ e.childElements, x ∈ c.all := by
  rw [all_eq, List.mem_cons, List.mem_flatMap]

/-- A child is among the elements of the tree. -/
theorem child_mem_all {e c : Element} (h : c ∈ e.childElements) : c ∈ e.all :=
  mem_all_iff.mpr (.inr ⟨c, h, self_mem_all c⟩)

/-- Descending twice is descending. -/
theorem mem_all_trans {e x y : Element} (hx : x ∈ e.all) (hy : y ∈ x.all) : y ∈ e.all := by
  induction e using descent with
  | step e ih =>
    rcases mem_all_iff.mp hx with rfl | ⟨c, hc, hxc⟩
    · exact hy
    · exact mem_all_iff.mpr (.inr ⟨c, hc, ih c hc hxc⟩)

/-- What is inside an element is listed in the same order when the element itself is inside another
one. -/
theorem all_sublist {e x : Element} (hx : x ∈ e.all) : x.all.Sublist e.all := by
  induction e using descent with
  | step e ih =>
    rcases mem_all_iff.mp hx with rfl | ⟨c, hc, hxc⟩
    · exact List.Sublist.refl _
    · have hchild : c.all.Sublist (e.childElements.flatMap all) :=
        List.sublist_flatten_of_mem (List.mem_map_of_mem hc)
      rw [all_eq e]
      exact ((ih c hc hxc).trans hchild).cons e

/-- The listed elements are those that are reached from parent to child. -/
theorem mem_all_iff_reaches {e x : Element} : x ∈ e.all ↔ Relation.ReflTransGen IsParent e x := by
  constructor
  · intro h
    induction e using descent with
    | step e ih =>
      rcases mem_all_iff.mp h with rfl | ⟨c, hc, hxc⟩
      · exact .refl
      · exact .head hc (ih c hc hxc)
  · intro h
    induction h with
    | refl => exact self_mem_all e
    | tail _ hstep ih => exact mem_all_trans ih (child_mem_all hstep)

/-- Every listed element but the first has its parent in the list. -/
theorem exists_parent_of_mem_all {e x : Element} (h : x ∈ e.all) :
    x = e ∨ ∃ p ∈ e.all, x ∈ p.childElements := by
  rcases (mem_all_iff_reaches.mp h).cases_tail with rfl | ⟨p, hp, hpx⟩
  · exact .inl rfl
  · exact .inr ⟨p, mem_all_iff_reaches.mpr hp, hpx⟩

end XmlCompare.Element
