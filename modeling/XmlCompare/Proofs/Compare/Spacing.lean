import Mathlib.Algebra.Order.BigOperators.Group.List
import Mathlib.Algebra.Order.Ring.Nat
import XmlCompare.Proofs.Compare.InStep
import XmlCompare.Proofs.Document.Outline

/-!
# Texts that run together

The text of an element is made of the texts directly inside it, without anything between them. If
two of these meet without a blank, the last word of the one and the first word of the other are one
word. When the element is printed and read again, every text is a line of its own: the words are
those of the texts one by one. So where texts run together there are more words afterwards, and
since no comparison takes trees with different numbers of words for the same, it finds out.
-/

set_option autoImplicit false

namespace XmlCompare

open Text (words)

namespace Node.Outline

/-- The words of a text; the other nodes have none. -/
def words : Outline → List (List Char)
  | element => []
  | text content => Text.words content.toList
  | comment _ => []

end Node.Outline

namespace Element

variable {a b : Element}

/-- The words of the texts one by one show in the outline. -/
theorem flatMap_words_texts (e : Element) : (e.texts.flatMap fun t => words t.toList) =
    (e.children.map Node.outline).flatMap Node.Outline.words := by
  rw [texts]
  induction e.children with
  | nil => rfl
  | cons node rest ih =>
    cases node with
    | element x => exact ih
    | comment content => exact ih
    | text content =>
      have hwords : words (Text.trimmed content).toList = words content.toList := by
        rw [Text.toList_trimmed, Text.words_trim]
      simp [Node.text?, Node.outline, Node.Outline.words, hwords, ih]

/-- Two elements have the same text exactly if they have the same words. -/
theorem textContent_eq_iff : a.textContent = b.textContent ↔
    words (String.join a.texts).toList = words (String.join b.texts).toList :=
  Text.normalized_eq_iff

/-- The number of words in the text of an element. -/
def wordCount (e : Element) : Nat := (words (String.join e.texts).toList).length

/-- Elements that are alike have the same number of words. -/
theorem Alike.wordCount (h : a.Alike b) : a.wordCount = b.wordCount :=
  congrArg List.length (textContent_eq_iff.mp h.text)

/-- Elements that are equal but for the blanks around texts are alike if no word depends on
these. -/
theorem EqualTrimmed.alike (h : a.EqualTrimmed b) (ha : a.Spaced) (hb : b.Spaced) : a.Alike b where
  expanded := h.expanded
  attributes := fun name => by rw [h.attributes]
  text := by
    rw [textContent_eq_iff, ha, hb, flatMap_words_texts, flatMap_words_texts, h.outline]

/-- An element in which texts run together has fewer words than it has when it is printed and read
again. -/
theorem Reprinted.wordCount_lt (h : a.Reprinted b) (ha : ¬ a.Spaced) :
    a.wordCount < b.wordCount := by
  have hlt := (Text.words_join_or a.texts).resolve_left ha
  rw [flatMap_words_texts, h.1.outline, ← flatMap_words_texts, ← h.2] at hlt
  exact hlt

/-- An element has no fewer words when it is printed and read again. -/
theorem Reprinted.wordCount_le (h : a.Reprinted b) : a.wordCount ≤ b.wordCount := by
  by_cases ha : a.Spaced
  · exact (h.1.alike ha h.2).wordCount.le
  · exact (h.wordCount_lt ha).le

/-! ## Trees -/

/-- A sum over the elements of a tree, by children. -/
theorem sum_all (f : Element → Nat) (e : Element) :
    (e.all.map f).sum = f e + (e.childElements.map fun c => (c.all.map f).sum).sum := by
  rw [all_eq, List.map_cons, List.sum_cons, List.map_flatMap, List.flatMap_def, List.sum_flatten,
    List.map_map]
  rfl

/-- Similar trees have the same number of words. -/
theorem Similar.sum_wordCount (h : a.Similar b) :
    (a.all.map wordCount).sum = (b.all.map wordCount).sum := by
  induction a using descent generalizing b with
  | step a ih =>
    obtain ⟨halike, cs, hchildren, hperm⟩ := similar_iff.mp h
    have hsums : List.Forall₂ (fun x y => (x.all.map wordCount).sum = (y.all.map wordCount).sum)
        a.childElements cs := forall₂_imp_of_mem hchildren fun c hc d => ih c hc
    have hmap : (a.childElements.map fun c => (c.all.map wordCount).sum) =
        cs.map fun c => (c.all.map wordCount).sum := by
      rw [← List.forall₂_eq_eq_eq, List.forall₂_map_left_iff, List.forall₂_map_right_iff]
      exact hsums
    rw [sum_all, sum_all, halike.wordCount, hmap, (hperm.map _).sum_eq]

/-- A tree in which no texts run together agrees with what it is when it is printed and read
again. -/
theorem InStep.agree_of_spaced (h : a.InStep Reprinted b) (hspaced : ∀ x ∈ a.all, x.Spaced) :
    a.Agree b :=
  agree_iff_inStep.mpr (h.imp_of_mem fun x hx _ hxy => hxy.1.alike (hspaced x hx) hxy.2)

/-- If a tree is similar to what it is when it is printed and read again, no texts in it run
together. -/
theorem InStep.spaced_of_similar (h : a.InStep Reprinted b) (hsimilar : a.Similar b) :
    ∀ x ∈ a.all, x.Spaced := by
  intro x hx
  by_contra hnot
  have hpairs := h.elements
  have hleft := List.map_fst_zip hpairs.length_eq.le
  have hright := List.map_snd_zip hpairs.length_eq.ge
  obtain ⟨pair, hpair, rfl⟩ := List.mem_map.mp (hleft ▸ hx)
  have hlt : ((a.all.zip b.all).map (wordCount ∘ Prod.fst)).sum <
      ((a.all.zip b.all).map (wordCount ∘ Prod.snd)).sum := by
    refine List.sum_lt_sum _ _ (fun pair hpair => ?_) ⟨pair, hpair, ?_⟩
    · exact (List.forall₂_zip hpairs hpair).wordCount_le
    · exact (List.forall₂_zip hpairs hpair).wordCount_lt hnot
  rw [← List.map_map, hleft, ← List.map_map, hright, hsimilar.sum_wordCount] at hlt
  exact lt_irrefl _ hlt

end Element

end XmlCompare
