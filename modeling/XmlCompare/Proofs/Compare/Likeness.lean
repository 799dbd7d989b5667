import Mathlib.Data.List.Forall2
import Mathlib.Data.List.Perm.Basic
import XmlCompare.Proofs.Document.Descent

/-!
# Likeness of trees

Two elements are alike in themselves when they have the same expanded name, the same text and the
same attributes, whatever the order of the attributes and the abbreviations in their names. Trees
`Agree` when this holds position by position; they are `Similar` when it holds after the siblings
have been put in another order, everywhere in the tree.

Each of these relations can be followed by itself. For `Similar` the second order of siblings is
carried over to the first.
-/

set_option autoImplicit false

namespace XmlCompare.Element

/-- The same attributes: under every expanded name the same value, or none on either side. -/
def SameAttributes (a b : Element) : Prop :=
  ∀ name, (a.attributes.get? name).map Attribute.value =
    (b.attributes.get? name).map Attribute.value

/-- Elements that are alike apart from their child elements. -/
structure Alike (a b : Element) : Prop where
  expanded : a.expanded = b.expanded
  attributes : a.SameAttributes b
  text : a.textContent = b.textContent

/-- A one-to-one correspondence of related elements: the second list can be put in an order in
which every element is related to the one at its place in the first. -/
def Correspond (related : Element → Element → Prop) (as bs : List Element) : Prop :=
  ∃ cs, List.Forall₂ related as cs ∧ cs.Perm bs

/-- Trees that are alike position by position. -/
inductive Agree : Element → Element → Prop
  | intro {a b : Element} : a.Alike b → List.Forall₂ Agree a.childElements b.childElements →
    Agree a b

/-- Trees that are alike up to the order of siblings. -/
inductive Similar : Element → Element → Prop
  | intro {a b : Element} {cs : List Element} : a.Alike b →
    List.Forall₂ Similar a.childElements cs → cs.Perm b.childElements → Similar a b

variable {a b c : Element}

/-- Two elements are similar if they are alike and their children can be paired into similar
ones. -/
theorem similar_iff :
    a.Similar b ↔ a.Alike b ∧ Correspond Similar a.childElements b.childElements := by
  constructor
  · rintro ⟨halike, hchildren, hperm⟩
    exact ⟨halike, _, hchildren, hperm⟩
  · rintro ⟨halike, cs, hchildren, hperm⟩
    exact .intro halike hchildren hperm

/-- Two elements agree if they are alike and their children agree one by one. -/
theorem agree_iff :
    a.Agree b ↔ a.Alike b ∧ List.Forall₂ Agree a.childElements b.childElements := by
  constructor
  · rintro ⟨halike, hchildren⟩
    exact ⟨halike, hchildren⟩
  · rintro ⟨halike, hchildren⟩
    exact .intro halike hchildren

/-- An element is like itself. -/
theorem Alike.refl (a : Element) : a.Alike a := ⟨rfl, fun _ => rfl, rfl⟩

/-- Likeness goes both ways. -/
theorem Alike.symm (h : a.Alike b) : b.Alike a :=
  ⟨h.expanded.symm, fun name => (h.attributes name).symm, h.text.symm⟩

/-- Likeness carries over. -/
theorem Alike.trans (h : a.Alike b) (h' : b.Alike c) : a.Alike c :=
  ⟨h.expanded.trans h'.expanded, fun name => (h.attributes name).trans (h'.attributes name),
    h.text.trans h'.text⟩

/-- Trees that agree with one tree agree with each other. -/
theorem Agree.euclidean (h : a.Agree b) (h' : a.Agree c) : b.Agree c := by
  induction a using descent generalizing b c with
  | step a ih =>
    obtain ⟨halike, hbs⟩ := agree_iff.mp h
    obtain ⟨halike', hcs⟩ := agree_iff.mp h'
    refine .intro (halike.symm.trans halike') ?_
    generalize a.childElements = as at hbs hcs ih
    generalize b.childElements = bs at hbs ⊢
    generalize c.childElements = cs at hcs ⊢
    induction hbs generalizing cs with
    | nil =>
      obtain rfl := List.forall₂_nil_left_iff.mp hcs
      exact .nil
    | cons hb _ ihs =>
      obtain ⟨c, cs, hc, hrest, rfl⟩ := List.forall₂_cons_left_iff.mp hcs
      refine .cons (ih _ List.mem_cons_self hb hc) (ihs ?_ cs hrest)
      intro x hx
      exact ih x (List.mem_cons_of_mem _ hx)

/-- An element is similar to itself. -/
theorem Similar.refl (a : Element) : a.Similar a := by
  induction a using descent with
  | step a ih => exact .intro (Alike.refl a) (List.forall₂_same.mpr ih) (.refl _)

/-- A relation between lists may be replaced by one that follows from it for the elements of the
first list. -/
theorem forall₂_imp_of_mem {α β : Type} {related related' : α → β → Prop} {as : List α}
    {bs : List β} (h : List.Forall₂ related as bs)
    (himp : ∀ a ∈ as, ∀ b, related a b → related' a b) : List.Forall₂ related' as bs := by
  have hboth := (List.forall₂_and_left as bs).mpr ⟨himp, h⟩
  exact hboth.imp fun _ b hab => hab.1 b hab.2

/-- A relation that carries over at the elements of a list carries over from that list. -/
theorem forall₂_trans_of_mem {related : Element → Element → Prop} {as bs cs : List Element}
    (htrans : ∀ a ∈ as, ∀ b c, related a b → related b c → related a c)
    (h : List.Forall₂ related as bs) (h' : List.Forall₂ related bs cs) :
    List.Forall₂ related as cs := by
  induction h generalizing cs with
  | nil => exact h'
  | cons hab _ ih =>
    obtain ⟨c, cs, hbc, hrest, rfl⟩ := List.forall₂_cons_left_iff.mp h'
    refine .cons (htrans _ List.mem_cons_self _ _ hab hbc) (ih ?_ hrest)
    intro a ha
    exact htrans a (List.mem_cons_of_mem _ ha)

/-- Similarity carries over. -/
theorem Similar.trans (h : a.Similar b) (h' : b.Similar c) : a.Similar c := by
  induction a using descent generalizing b c with
  | step a ih =>
    obtain ⟨halike, bs, hbs, hperm⟩ := similar_iff.mp h
    obtain ⟨halike', cs, hcs, hperm'⟩ := similar_iff.mp h'
    -- The children of `c` are put in the order of those of `b` beside the children of `a`.
    obtain ⟨ds, hds, hperm''⟩ := List.perm_comp_forall₂ hperm hcs
    refine similar_iff.mpr ⟨halike.trans halike', ds, ?_, hperm''.trans hperm'⟩
    exact forall₂_trans_of_mem (fun x hx y z hxy hyz => ih x hx hxy hyz) hbs hds

end XmlCompare.Element
