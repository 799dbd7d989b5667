import Mathlib.Data.List.Nodup
import Mathlib.Logic.Relation
import XmlCompare.Proofs.Document.Succession

/-!
# The order in which an index is listed

An index is listed by first line, then by depth, then by path. Since no two entries share a path,
this leaves nothing open, and the listing does not depend on the order in which the entries are
kept. Start lines never fall along the start tags of a document, and an element is deeper than those
around it, so the listing departs from the order of the document only among the elements that begin
on one line, and never so far that an element comes before one that it is in.
-/

set_option autoImplicit false

namespace XmlCompare

/-! ## Comparing paths and entries -/

/-- What is compared by a part of it is ordered as the parts are. -/
theorem transCmp_of_part {α β : Type} (part : α → β) (cmp : β → β → Ordering) [Std.TransCmp cmp] :
    Std.TransCmp fun a b => cmp (part a) (part b) where
  eq_swap := Std.OrientedCmp.eq_swap
  isLE_trans := Std.TransCmp.isLE_trans

instance : Std.TransCmp Step.compare :=
  inferInstanceAs (Std.TransCmp (compareLex (compareOn Step.name) (compareOn Step.ordinal)))

instance : Std.LawfulEqCmp Step.compare where
  eq_of_compare {a b} h := by
    obtain ⟨hname, hordinal⟩ := Ordering.then_eq_eq.mp h
    cases a; cases b
    exact congrArg₂ Step.mk (Std.LawfulEqCmp.eq_of_compare hname)
      (Std.LawfulEqCmp.eq_of_compare hordinal)

instance : Std.TransCmp Path.compare :=
  transCmp_of_part Path.steps (List.compareLex Step.compare)

/-- Only equal paths are not told apart. -/
theorem Path.eq_of_compare {p q : Path} (h : p.compare q = .eq) : p = q := by
  have hsteps : p.steps = q.steps := Std.LawfulEqCmp.eq_of_compare h
  cases p; cases q
  exact congrArg Path.mk hsteps

namespace PositionIndex

instance : Std.TransCmp compareEntries :=
  have := transCmp_of_part (fun e : Path × LineRange => e.1) Path.compare
  inferInstanceAs (Std.TransCmp (compareLex (compareOn fun e : Path × LineRange => e.2.first)
    (compareLex (compareOn fun e : Path × LineRange => e.1.depth)
      fun a b : Path × LineRange => Path.compare a.1 b.1)))

variable {index : PositionIndex} {listing : List (Path × LineRange)} {a b c : Path × LineRange}

/-- An entry may stand before another one: the condition by which entries are sorted. -/
def mayPrecede (a b : Path × LineRange) : Bool := (compareEntries a b).isLE

/-- What may precede one entry may precede what that one may precede. -/
theorem mayPrecede_trans (a b c : Path × LineRange) (hab : mayPrecede a b = true)
    (hbc : mayPrecede b c = true) : mayPrecede a c = true :=
  Std.TransCmp.isLE_trans hab hbc

/-- Of two entries one may precede the other. -/
theorem mayPrecede_total (a b : Path × LineRange) : (mayPrecede a b || mayPrecede b a) = true := by
  have hswap : compareEntries b a = (compareEntries a b).swap := Std.OrientedCmp.eq_swap
  rw [mayPrecede, mayPrecede, hswap]
  cases compareEntries a b <;> rfl

/-- Two entries that are in order both ways have one path. -/
theorem path_eq_of_mayPrecede (hab : mayPrecede a b = true) (hba : mayPrecede b a = true) :
    a.1 = b.1 := by
  have heq : compareEntries a b = .eq := Std.OrientedCmp.isLE_antisymm hab hba
  obtain ⟨-, hrest⟩ := Ordering.then_eq_eq.mp heq
  exact Path.eq_of_compare (Ordering.then_eq_eq.mp hrest).2

/-- An entry on an earlier line may precede. -/
theorem mayPrecede_of_line_lt (h : a.2.first < b.2.first) : mayPrecede a b = true := by
  rw [mayPrecede, compareEntries, Nat.compare_eq_lt.mpr h]
  rfl

/-- On one line or on a later one, what is deeper comes behind. -/
theorem mayPrecede_of_depth_lt (hline : a.2.first ≤ b.2.first) (hdepth : a.1.depth < b.1.depth) :
    mayPrecede a b = true := by
  rcases Nat.lt_or_eq_of_le hline with hlt | heq
  · exact mayPrecede_of_line_lt hlt
  · rw [mayPrecede, compareEntries, Nat.compare_eq_eq.mpr heq, Nat.compare_eq_lt.mpr hdepth]
    rfl

/-- However the entries of an index are arranged, sorting them gives the listing of the index. -/
theorem sorted_eq_of_perm (h : listing.Perm index.entries.entries) :
    index.sorted = listing.mergeSort mayPrecede := by
  have hperm : index.sorted.Perm (listing.mergeSort mayPrecede) :=
    ((List.mergeSort_perm _ _).trans h.symm).trans (List.mergeSort_perm _ _).symm
  refine hperm.eq_of_pairwise ?_ (List.pairwise_mergeSort mayPrecede_trans mayPrecede_total _)
    (List.pairwise_mergeSort mayPrecede_trans mayPrecede_total _)
  intro a b ha hb hab hba
  -- No two entries have one path, so the lines are the same as well.
  have hmem : a ∈ index.entries.entries := (List.mergeSort_perm _ _).mem_iff.mp ha
  have hmem' : b ∈ index.entries.entries :=
    h.mem_iff.mp ((List.mergeSort_perm _ _).mem_iff.mp hb)
  have hpath := path_eq_of_mayPrecede hab hba
  have hget := (index.entries.mem_entries_iff a.1 a.2).mp hmem
  have hget' := (index.entries.mem_entries_iff b.1 b.2).mp hmem'
  rw [hpath] at hget
  exact Prod.ext hpath (Option.some.inj (hget.symm.trans hget'))

end PositionIndex

/-! ## Where elements stand in the listing -/

namespace Element

open PositionIndex (mayPrecede mayPrecede_trans mayPrecede_total mayPrecede_of_line_lt
  mayPrecede_of_depth_lt)

variable {root x y : Element}

/-- An element is listed before those inside it, which are deeper and begin no earlier. -/
theorem mayPrecede_of_inside (hplaced : root.Placed) (horderly : root.Orderly) (hx : x ∈ root.all)
    (hinside : Relation.TransGen IsParent x y) :
    mayPrecede x.entry y.entry = true ∧ [x, y].Sublist root.all := by
  obtain ⟨c, hc, hcy⟩ := Relation.TransGen.head'_iff.mp hinside
  have hy : y ∈ c.all := mem_all_iff_reaches.mpr hcy
  have hplaced' : x.Placed := fun z hz => hplaced z (mem_all_trans hx hz)
  have horderly' : x.Orderly := fun z hz => horderly z (mem_all_trans hx hz)
  have hline := (horderly'.within (mem_all_trans (child_mem_all hc) hy)).1
  refine ⟨mayPrecede_of_depth_lt hline (depth_lt_of_child hplaced' hc hy), ?_⟩
  refine List.Sublist.trans ?_ (all_sublist hx)
  rw [all_eq, List.cons_sublist_cons, List.singleton_sublist]
  exact List.mem_flatMap.mpr ⟨c, hc, hy⟩

/-- Two elements that are in order in the document and by their lines are so in the listing. -/
theorem sublist_sorted {index : PositionIndex} (hperm : index.entries.entries.Perm
    (root.all.map entry)) (horder : mayPrecede x.entry y.entry = true)
    (hsub : [x, y].Sublist root.all) : [x.entry, y.entry].Sublist index.sorted := by
  rw [PositionIndex.sorted_eq_of_perm hperm.symm]
  exact List.pair_sublist_mergeSort mayPrecede_trans mayPrecede_total horder (hsub.map entry)

end Element

/-- Where there is an index there is a document, and the index lists its elements. -/
theorem Document.parse_of_build {text : String} {index : PositionIndex}
    (h : PositionIndex.build text = .ok index) : ∃ d, parse text = .ok d ∧
      d.Placed ∧ List.Forall₂ (Element.ReadFrom text) (startTags text) d.elements ∧
      index.entries.entries.Perm (d.elements.map Element.entry) := by
  cases hparse : parse text with
  | error error =>
    rw [build_of_parse_error hparse] at h
    cases h
  | ok d =>
    obtain ⟨hplaced, htags, found, hbuild, hperm⟩ := index_of_parse hparse
    obtain rfl : found = index := Except.ok.inj (hbuild.symm.trans h)
    rw [← elements_eq] at htags hperm
    exact ⟨d, rfl, hplaced, htags, hperm⟩

/-- For every text that has an index: its listing holds the entries of the index, and an index with
the same entries in whatever order is listed in the same way. Every element comes behind all those
that it is in. Of two elements that begin on different lines the one whose start tag comes first in
the text is listed first; if no two elements begin on one line, the listing is in the order of the
start tags. -/
theorem listing_follows_document (text : String) (index : PositionIndex)
    (hbuild : PositionIndex.build text = .ok index) :
    ∃ d, Document.parse text = .ok d ∧
      List.Forall₂ (Element.ReadFrom text) (startTags text) d.elements ∧
      index.sorted.Perm index.entries.entries ∧
      (∀ index' : PositionIndex, index'.entries.entries.Perm index.entries.entries →
        index'.sorted = index.sorted) ∧
      (∀ x ∈ d.elements, ∀ y, Relation.TransGen Element.IsParent x y →
        [x.entry, y.entry].Sublist index.sorted) ∧
      (d.elements.Pairwise fun x y => x.lines.first ≠ y.lines.first →
        [x.entry, y.entry].Sublist index.sorted) ∧
      ((d.elements.map fun x => x.lines.first).Nodup →
        index.sorted = d.elements.map Element.entry) := by
  obtain ⟨d, hparse, hplaced, htags, hperm⟩ := Document.parse_of_build hbuild
  have horderly := Document.orderly_of_parse hparse
  have hlines := horderly.pairwise_all
  rw [← Document.elements_eq] at hlines
  refine ⟨d, hparse, htags, List.mergeSort_perm _ _, fun index' hsame => ?_, fun x hx y hinside => ?_,
    ?_, fun hdistinct => ?_⟩
  · rw [PositionIndex.sorted_eq_of_perm hsame]
    rfl
  · rw [Document.elements_eq] at hx hperm
    obtain ⟨horder, hsub⟩ := Element.mayPrecede_of_inside hplaced.inner horderly hx hinside
    exact Element.sublist_sorted hperm horder hsub
  · rw [List.pairwise_iff_forall_sublist] at hlines ⊢
    intro x y hsub hne
    have hlt := Nat.lt_of_le_of_ne (hlines hsub).1 hne
    rw [Document.elements_eq] at hsub hperm
    exact Element.sublist_sorted hperm (PositionIndex.mayPrecede_of_line_lt hlt) hsub
  · rw [PositionIndex.sorted_eq_of_perm hperm.symm]
    refine List.mergeSort_of_pairwise (List.pairwise_map.mpr ?_)
    refine (hlines.and (List.pairwise_map.mp hdistinct)).imp fun hxy => ?_
    exact PositionIndex.mayPrecede_of_line_lt (Nat.lt_of_le_of_ne hxy.1.1 hxy.2)

/-- Three items on one line, one of them inside the first. -/
def itemsOnOneLine : PositionIndex :=
  ⟨.ofList [(⟨[⟨"r", 1⟩, ⟨"a", 1⟩, ⟨"b", 1⟩]⟩, .between 2 2), (⟨[⟨"r", 1⟩, ⟨"a", 1⟩]⟩, .between 2 2),
    (⟨[⟨"r", 1⟩, ⟨"c", 1⟩]⟩, .between 2 2), (⟨[⟨"r", 1⟩]⟩, .between 1 3)]⟩

/-- The item inside the first one is listed behind the last one, whose start tag comes later. -/
theorem listing_of_items_on_one_line :
    PositionIndex.build "<r>\n<a><b/></a><c/>\n</r>" = .ok itemsOnOneLine ∧
    itemsOnOneLine.sorted.map (fun entry => entry.1.text) =
      ["/r[1]", "/r[1]/a[1]", "/r[1]/c[1]", "/r[1]/a[1]/b[1]"] ∧
    ∃ d, Document.parse "<r>\n<a><b/></a><c/>\n</r>" = .ok d ∧
      (∀ x ∈ d.elements, ∀ y, Relation.TransGen Element.IsParent x y →
        [x.entry, y.entry].Sublist itemsOnOneLine.sorted) ∧
      (d.elements.Pairwise fun x y => x.lines.first ≠ y.lines.first →
        [x.entry, y.entry].Sublist itemsOnOneLine.sorted) := by
  have hbuild : PositionIndex.build "<r>\n<a><b/></a><c/>\n</r>" = .ok itemsOnOneLine := by
    decide
  -- By line, then by depth, then by path: the item inside the first one is the deepest.
  have hperm : [(⟨[⟨"r", 1⟩]⟩, .between 1 3), (⟨[⟨"r", 1⟩, ⟨"a", 1⟩]⟩, .between 2 2),
      (⟨[⟨"r", 1⟩, ⟨"c", 1⟩]⟩, .between 2 2),
      (⟨[⟨"r", 1⟩, ⟨"a", 1⟩, ⟨"b", 1⟩]⟩, .between 2 2)].Perm itemsOnOneLine.entries.entries := by
    decide
  have htexts : itemsOnOneLine.sorted.map (fun entry => entry.1.text) =
      ["/r[1]", "/r[1]/a[1]", "/r[1]/c[1]", "/r[1]/a[1]/b[1]"] := by
    rw [PositionIndex.sorted_eq_of_perm hperm, List.mergeSort_of_pairwise (by decide)]
    decide
  obtain ⟨d, hparse, -, -, -, hinside, hlines, -⟩ := listing_follows_document _ _ hbuild
  exact ⟨hbuild, htexts, d, hparse, hinside, hlines⟩

end XmlCompare
