import Mathlib.Algebra.BigOperators.Group.List.Basic
import XmlCompare.Proofs.Document.Succession

/-!
# How large an ordinal can be

An ordinal counts elements, every element is read from a tag of its own, and a tag takes up some of
the text. So no ordinal is larger than the text it was read from.
-/

set_option autoImplicit false

namespace XmlCompare

open Markup.Token (Piece)
open Markup.Token.Piece (place join)

/-- There are no more pieces than bytes. -/
theorem Markup.Token.Piece.length_le_byteSize_join {pieces : List Piece}
    (h : ∀ p ∈ pieces, p.Spelled) : pieces.length ≤ Text.byteSize (join pieces) := by
  induction pieces with
  | nil => exact Nat.zero_le _
  | cons p pieces ih =>
    obtain ⟨hp, hpieces⟩ := List.forall_mem_cons.mp h
    have hpos := hp.byteSize_pos
    have hle := ih hpieces
    rw [join_cons, Text.byteSize_append, List.length_cons]
    omega

/-- A text without its mark has no more bytes. -/
theorem Text.byteSize_dropByteOrderMark_le (cs : List Char) :
    byteSize (Markup.Token.dropByteOrderMark cs) ≤ byteSize cs := by
  unfold Markup.Token.dropByteOrderMark
  split
  · exact Nat.le_refl _
  · split
    · rw [byteSize]
      omega
    · exact Nat.le_refl _

namespace Element

/-- There are fewer children of an element than elements in it. -/
theorem length_childElements_lt (e : Element) : e.childElements.length < e.all.length := by
  have hpos : ∀ n ∈ e.childElements.map fun c => c.all.length, 1 ≤ n := by
    intro n hn
    obtain ⟨c, -, rfl⟩ := List.mem_map.mp hn
    exact List.length_pos_of_mem (self_mem_all c)
  have hsum := List.length_le_sum_of_one_le _ hpos
  rw [List.length_map] at hsum
  rw [all_eq, List.length_cons, List.length_flatMap]
  exact Nat.lt_succ_of_le hsum

/-- In a numbered tree the ordinals are positive and not larger than the number of elements, if
that is so of the path of the root. -/
theorem ordinal_of_mem_all {e x : Element} {limit : Nat} (h : e.Placed)
    (hlimit : e.all.length ≤ limit)
    (hordinals : ∀ s ∈ e.path.steps, 1 ≤ s.ordinal ∧ s.ordinal ≤ limit) (hx : x ∈ e.all) :
    ∀ s ∈ x.path.steps, 1 ≤ s.ordinal ∧ s.ordinal ≤ limit := by
  induction e using descent with
  | step e ih =>
    rcases mem_all_iff.mp hx with rfl | ⟨c, hc, hxc⟩
    · exact hordinals
    · have hinside := (all_sublist (child_mem_all hc)).length_le
      refine ih c hc (placed_of_child h hc) (hinside.trans hlimit) ?_ hxc
      obtain ⟨before, after, hsiblings⟩ := List.append_of_mem hc
      rw [h e (self_mem_all e) before c after hsiblings, Path.steps_child]
      -- The ordinal of a child counts some of the children before it, and the child.
      have hcount : ordinalAfter before c.name ≤ before.length + 1 :=
        Nat.succ_le_succ List.countP_le_length
      have hchildren := length_childElements_lt e
      rw [hsiblings, List.length_append, List.length_cons] at hchildren
      intro s hs
      rcases List.mem_append.mp hs with hs | hs
      · exact hordinals s hs
      · obtain rfl := List.mem_singleton.mp hs
        exact ⟨Nat.succ_pos _, hcount.trans (by omega)⟩

end Element

namespace Document

variable {text : String} {d : Document}

/-- A text has no more elements than bytes. -/
theorem length_elements_le (h : parse text = .ok d) :
    d.root.all.length ≤ Text.byteSize text.toList := by
  obtain ⟨events, hevents, -⟩ := parse_eq_ok_iff.mp h
  obtain ⟨hfault, -⟩ := Event.toExcept_ofTokens_eq_ok_iff.mp hevents
  obtain ⟨pieces, hchain, hjoin, hitems⟩ := Markup.Token.exists_pieces hfault
  obtain ⟨-, htags, -⟩ := index_of_parse h
  calc d.root.all.length
      = (startTags text).length := htags.length_eq.symm
    _ ≤ (Markup.Token.readAll text).items.length := List.length_filter_le _ _
    _ = pieces.length := by rw [hitems, ← List.length_map, Piece.map_token_place, List.length_map]
    _ ≤ Text.byteSize (join pieces) := Piece.length_le_byteSize_join hchain.spelled
    _ ≤ Text.byteSize text.toList := by
      rw [hjoin]
      exact Text.byteSize_dropByteOrderMark_le _

/-- The ordinals in the paths of a document are positive and not larger than its text. -/
theorem ordinal_le_byteSize (h : parse text = .ok d) {e : Element} (he : e ∈ d.elements) {s : Step}
    (hs : s ∈ e.path.steps) : 1 ≤ s.ordinal ∧ s.ordinal ≤ Text.byteSize text.toList := by
  obtain ⟨hplaced, -⟩ := index_of_parse h
  have hlength := length_elements_le h
  rw [elements_eq] at he
  refine Element.ordinal_of_mem_all hplaced.inner hlength ?_ he s hs
  intro s hs
  have hpos := List.length_pos_of_mem (Element.self_mem_all d.root)
  rw [hplaced.root, Path.steps_child] at hs
  obtain rfl := List.mem_singleton.mp hs
  exact ⟨Nat.le_refl 1, (Nat.succ_le_of_lt hpos).trans hlength⟩

end Document

end XmlCompare
