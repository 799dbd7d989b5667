import Mathlib.Data.List.Induction
import Mathlib.Data.List.Nodup
import XmlCompare.Proofs.Document.Descent

/-!
# Numbered siblings

The ordinal in the path of an element counts the siblings of its local name that come before it.
Where that holds everywhere in a tree, no two elements of the tree share a path: siblings differ
in the last step, and what is inside an element has the path of the element before its own.
-/

set_option autoImplicit false

namespace XmlCompare

namespace Element

/-- The ordinal that a child of this name gets when some siblings come before it. -/
def ordinalAfter (earlier : List Element) (name : String) : Nat :=
  earlier.countP (fun e => Name.localPart e.name = Name.localPart name) + 1

/-- Every one of some siblings has the path that its name and the siblings before it give it. -/
def Numbered (parent : Path) (siblings : List Element) : Prop :=
  ∀ before e after, siblings = before ++ e :: after →
    e.path = parent.child e.name (ordinalAfter before e.name)

/-- Everywhere in a tree the children are numbered. -/
def Placed (e : Element) : Prop := ∀ x ∈ e.all, Numbered x.path x.childElements

/-- An empty list of siblings is numbered. -/
theorem numbered_nil (parent : Path) : Numbered parent [] := by
  intro before e after h
  simp at h

/-- Numbering goes on at the end: a further sibling does not change the paths of those before. -/
theorem numbered_append_singleton {parent : Path} {siblings : List Element} {e : Element}
    (h : Numbered parent siblings)
    (he : e.path = parent.child e.name (ordinalAfter siblings e.name)) :
    Numbered parent (siblings ++ [e]) := by
  intro before x after hsplit
  rcases List.eq_nil_or_concat after with rfl | ⟨after, last, rfl⟩
  · obtain ⟨rfl, hx⟩ := List.append_inj' hsplit rfl
    obtain rfl : e = x := by simpa using hx
    exact he
  · have hsplit' : siblings ++ [e] = (before ++ x :: after) ++ [last] := by
      simpa using hsplit
    exact h before x after (List.append_inj' hsplit' rfl).1

/-- A sibling that comes later has another path. -/
theorem path_ne_of_ordinalAfter {parent : Path} {earlier : List Element} {a : Element}
    (h : Numbered parent earlier) (ha : a ∈ earlier) (name : String) :
    a.path ≠ parent.child name (ordinalAfter earlier name) := by
  obtain ⟨before, after, rfl⟩ := List.append_of_mem ha
  rw [h before a after rfl, Ne, Path.child_inj]
  rintro ⟨hname, hord⟩
  simp [ordinalAfter, List.countP_append, hname] at hord

/-- The first of some numbered siblings are numbered. -/
theorem numbered_of_append {parent : Path} {siblings rest : List Element}
    (h : Numbered parent (siblings ++ rest)) : Numbered parent siblings := by
  rintro before e after rfl
  exact h before e (after ++ rest) (by simp)

/-- Numbered siblings have different paths. -/
theorem pairwise_path_ne {parent : Path} {siblings : List Element} (h : Numbered parent siblings) :
    siblings.Pairwise fun a b => a.path ≠ b.path := by
  induction siblings using List.reverseRecOn with
  | nil => exact .nil
  | append_singleton siblings e ih =>
    have hinit := numbered_of_append h
    have he := h siblings e [] rfl
    refine List.pairwise_append.mpr ⟨ih hinit, List.pairwise_singleton _ e, ?_⟩
    intro a ha b hb
    obtain rfl := List.mem_singleton.mp hb
    rw [he]
    exact path_ne_of_ordinalAfter hinit ha b.name

/-- A numbered child has one step more than its parent. -/
theorem path_of_mem {parent : Path} {siblings : List Element} (h : Numbered parent siblings)
    {c : Element} (hc : c ∈ siblings) : ∃ ordinal, c.path = parent.child c.name ordinal := by
  obtain ⟨before, after, rfl⟩ := List.append_of_mem hc
  exact ⟨_, h before c after rfl⟩

/-- What is placed has placed children. -/
theorem placed_of_child {e c : Element} (h : e.Placed) (hc : c ∈ e.childElements) : c.Placed :=
  fun x hx => h x (mem_all_trans (child_mem_all hc) hx)

/-- What is inside an element has a path that goes on from the path of the element. -/
theorem isPrefix_of_mem_all {e x : Element} (h : e.Placed) (hx : x ∈ e.all) :
    e.path.steps <+: x.path.steps := by
  induction e using descent with
  | step e ih =>
    rcases mem_all_iff.mp hx with rfl | ⟨c, hc, hxc⟩
    · exact List.prefix_rfl
    · obtain ⟨ordinal, hpath⟩ := path_of_mem (h e (self_mem_all e)) hc
      have hstep : e.path.steps <+: c.path.steps := by
        rw [hpath, Path.steps_child]
        exact List.prefix_append _ _
      exact hstep.trans (ih c hc (placed_of_child h hc) hxc)

/-- A child stands one step below its parent. -/
theorem depth_of_child {e c : Element} (h : e.Placed) (hc : c ∈ e.childElements) :
    c.path.depth = e.path.depth + 1 := by
  obtain ⟨ordinal, hpath⟩ := path_of_mem (h e (self_mem_all e)) hc
  rw [hpath, Path.depth_child]

/-- Inside a child the paths are longer than that of the parent. -/
theorem depth_lt_of_child {e c x : Element} (h : e.Placed) (hc : c ∈ e.childElements)
    (hx : x ∈ c.all) : e.path.depth < x.path.depth := by
  have hle := (isPrefix_of_mem_all (placed_of_child h hc) hx).length_le
  have hdepth := depth_of_child h hc
  simp only [Path.depth] at hdepth hle ⊢
  omega

/-- What is inside a child has no path that goes on from a path inside a sibling. -/
theorem not_isPrefix_of_children {e a b x y : Element} (h : e.Placed) (ha : a ∈ e.childElements)
    (hb : b ∈ e.childElements) (hne : a.path ≠ b.path) (hx : x ∈ a.all) (hy : y ∈ b.all) :
    ¬ x.path.steps <+: y.path.steps := by
  intro hxy
  have hay := (isPrefix_of_mem_all (placed_of_child h ha) hx).trans hxy
  have hby := isPrefix_of_mem_all (placed_of_child h hb) hy
  have hlen : a.path.depth = b.path.depth := (depth_of_child h ha).trans (depth_of_child h hb).symm
  have hsteps := (List.prefix_of_prefix_length_le hay hby (Nat.le_of_eq hlen)).eq_of_length hlen
  exact hne (congrArg Path.mk hsteps)

/-- Inside different siblings there are different paths. -/
theorem disjoint_paths_of_children {e a b : Element} (h : e.Placed) (ha : a ∈ e.childElements)
    (hb : b ∈ e.childElements) (hne : a.path ≠ b.path) :
    List.Disjoint (a.all.map path) (b.all.map path) := by
  intro p hpa hpb
  obtain ⟨x, hx, rfl⟩ := List.mem_map.mp hpa
  obtain ⟨y, hy, hyx⟩ := List.mem_map.mp hpb
  exact not_isPrefix_of_children h ha hb hne hx hy (hyx ▸ List.prefix_rfl)

/-- What is inside a child has not the path of the parent. -/
theorem path_ne_of_mem_child {e c x : Element} (h : e.Placed) (hc : c ∈ e.childElements)
    (hx : x ∈ c.all) : e.path ≠ x.path := by
  intro hpath
  have hlt := depth_lt_of_child h hc hx
  rw [hpath] at hlt
  exact Nat.lt_irrefl _ hlt

/-- Next to a numbered sibling stand siblings of other paths. -/
theorem path_ne_of_sibling {parent : Path} {before after : List Element} {e : Element}
    (h : Numbered parent (before ++ e :: after)) {s : Element} (hs : s ∈ before ++ after) :
    s.path ≠ e.path := by
  have hpairwise := pairwise_path_ne h
  rw [List.pairwise_append, List.pairwise_cons] at hpairwise
  obtain ⟨-, ⟨hafter, -⟩, hbefore⟩ := hpairwise
  rcases List.mem_append.mp hs with hs | hs
  · exact hbefore s hs e List.mem_cons_self
  · exact (hafter s hs).symm

/-- Children at different places have different paths. -/
theorem eq_of_getElem?_path {e a b : Element} {i j : Nat} (h : e.Placed)
    (ha : e.childElements[i]? = some a) (hb : e.childElements[j]? = some b)
    (hpath : a.path = b.path) : i = j := by
  have hnodup : (e.childElements.map path).Nodup :=
    List.pairwise_map.mpr (pairwise_path_ne (h e (self_mem_all e)))
  have hlt : i < (e.childElements.map path).length := by
    rw [List.length_map]
    exact (List.getElem?_eq_some_iff.mp ha).1
  apply (List.getElem?_inj hlt hnodup).mp
  rw [List.getElem?_map, List.getElem?_map, ha, hb, Option.map_some, Option.map_some, hpath]

/-- What is inside a child is inside none of its siblings. -/
theorem not_mem_sibling {e c x s : Element} {before after : List Element} (h : e.Placed)
    (hsplit : e.childElements = before ++ c :: after) (hx : x ∈ c.all) (hs : s ∈ before ++ after) :
    x.path ∉ s.all.map path := by
  have hc : c ∈ e.childElements := by simp [hsplit]
  have hs' : s ∈ e.childElements := by
    rw [hsplit]
    rcases List.mem_append.mp hs with hs | hs <;> simp [hs]
  have hnumbered := h e (self_mem_all e)
  rw [hsplit] at hnumbered
  have hdisjoint := disjoint_paths_of_children h hs' hc (path_ne_of_sibling hnumbered hs)
  exact fun hmem => hdisjoint hmem (List.mem_map_of_mem hx)

/-- Without its last step, the path of a child is that of its parent. -/
theorem parent?_of_child {e c : Element} (h : e.Placed) (hc : c ∈ e.childElements) :
    c.path.parent? = some e.path := by
  obtain ⟨ordinal, hpath⟩ := path_of_mem (h e (self_mem_all e)) hc
  rw [hpath, Path.parent?_child]

/-- Children with one path have parents with one path. -/
theorem parent_path_eq {p q x y : Element} (hp : p.Placed) (hq : q.Placed)
    (hx : x ∈ p.childElements) (hy : y ∈ q.childElements) (hpath : x.path = y.path) :
    p.path = q.path := by
  have hparents := congrArg Path.parent? hpath
  rw [parent?_of_child hp hx, parent?_of_child hq hy] at hparents
  exact Option.some.inj hparents

/-- In a numbered tree no two elements share a path. -/
theorem nodup_paths {e : Element} (h : e.Placed) : (e.all.map path).Nodup := by
  induction e using descent with
  | step e ih =>
    rw [all_eq, List.map_cons, List.map_flatMap, List.nodup_cons, List.nodup_flatMap]
    refine ⟨?_, fun c hc => ih c hc (placed_of_child h hc), ?_⟩
    · intro hmem
      obtain ⟨c, hc, hpath⟩ := List.mem_flatMap.mp hmem
      obtain ⟨x, hx, hxe⟩ := List.mem_map.mp hpath
      have hlt := depth_lt_of_child h hc hx
      rw [hxe] at hlt
      exact Nat.lt_irrefl _ hlt
    · refine (pairwise_path_ne (h e (self_mem_all e))).imp_of_mem ?_
      intro a b ha hb hne
      exact disjoint_paths_of_children h ha hb hne

end Element

/-- A document whose root has the first path and whose elements are numbered. -/
structure Document.Placed (d : Document) : Prop where
  root : d.root.path = Path.document.child d.root.name 1
  inner : d.root.Placed

namespace Document

/-- The root of a placed document has the path of a root. -/
theorem isDocumentElement_root {d : Document} (h : d.Placed) :
    d.root.path.isDocumentElement = true := by
  rw [h.root]
  rfl

/-- Only the root stands at a path of the document element. -/
theorem isDocumentElement_of_child {d : Document} (h : d.Placed) {p c : Element}
    (hp : p ∈ d.root.all) (hc : c ∈ p.childElements) : c.path.isDocumentElement = false := by
  have hroot : d.root.path.depth = 1 := by rw [h.root, Path.depth_child, Path.depth_document]
  have hle := (Element.isPrefix_of_mem_all h.inner hp).length_le
  obtain ⟨ordinal, hpath⟩ := Element.path_of_mem (h.inner p hp) hc
  have hdepth : c.path.depth = p.path.depth + 1 := by rw [hpath, Path.depth_child]
  rw [← Bool.not_eq_true]
  intro htrue
  have hone := Path.depth_eq_one_of_isDocumentElement htrue
  simp only [Path.depth] at hroot hle hdepth hone
  omega

end Document

end XmlCompare
