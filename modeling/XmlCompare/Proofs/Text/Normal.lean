import XmlCompare.Proofs.Text.Words

/-!
# Normal forms

The words of a text are what stands between its blanks, and there is only one way to read them off.
A normal form keeps them and nothing else: two texts have one normal form exactly if they have the
same words, and a normal form is its own. Where two texts are put together with a blank between
them, their normal forms are put together with a space.
-/

set_option autoImplicit false

namespace XmlCompare.Text

variable {cs : List Char} {ws : List (List Char)}

/-- A text in which some words are set apart by blanks. -/
inductive HasWords : List (List Char) → List Char → Prop
  | blank {cs : List Char} : (∀ c ∈ cs, isBlank c = true) → HasWords [] cs
  | word {blanks w rest : List Char} {ws : List (List Char)} : (∀ c ∈ blanks, isBlank c = true) →
    w ≠ [] → (∀ c ∈ w, isBlank c = false) → (∀ c ∈ rest.head?, isBlank c = true) →
    HasWords ws rest → HasWords (w :: ws) (blanks ++ w ++ rest)

/-- There are no words among blanks. -/
theorem words_of_blank (h : ∀ c ∈ cs, isBlank c = true) : words cs = [] := by
  simpa [words] using words_blank_append [] h

/-- A word goes on to the first blank. -/
theorem words_word_append {w rest : List Char} (hne : w ≠ []) (hw : ∀ c ∈ w, isBlank c = false)
    (hrest : ∀ c ∈ rest.head?, isBlank c = true) : words (w ++ rest) = w :: words rest := by
  cases rest with
  | nil =>
    rw [List.append_nil, words_of_unbroken hw, if_neg hne]
    rfl
  | cons c rest =>
    have hc : isBlank c = true := hrest c rfl
    rw [words_append_cons w rest hc, words_cons rest hc, words_of_unbroken hw, if_neg hne]
    rfl

/-- The words that are set apart in a text are its words. -/
theorem HasWords.words_eq (h : HasWords ws cs) : words cs = ws := by
  induction h with
  | blank hblank => exact words_of_blank hblank
  | word hblanks hne hw hrest _ ih =>
    rw [List.append_assoc, words_blank_append _ hblanks, words_word_append hne hw hrest, ih]

/-- A blank in front sets the same words apart. -/
theorem HasWords.cons_blank {c : Char} (hc : isBlank c = true) (h : HasWords ws cs) :
    HasWords ws (c :: cs) := by
  cases h with
  | blank hblank => exact .blank (List.forall_mem_cons.mpr ⟨hc, hblank⟩)
  | word hblanks hne hw hrest hmore =>
    exact .word (List.forall_mem_cons.mpr ⟨hc, hblanks⟩) hne hw hrest hmore

/-- A character that is not blank goes before the first word, or is a word if a blank follows. -/
theorem HasWords.cons_of_not_blank {c : Char} (hc : isBlank c = false) (h : HasWords ws cs) :
    ∃ ws', HasWords ws' (c :: cs) := by
  have hone : ∀ d ∈ [c], isBlank d = false := by simpa using hc
  have hnone : ∀ d ∈ ([] : List Char), isBlank d = true := by simp
  cases h with
  | blank hblank =>
    have hhead : ∀ d ∈ cs.head?, isBlank d = true := fun d hd => hblank d (List.mem_of_head? hd)
    exact ⟨_, .word hnone (List.cons_ne_nil c []) hone hhead (.blank hblank)⟩
  | @word blanks w rest ws hblanks hne hw hrest hmore =>
    cases blanks with
    | nil =>
      have hlonger : ∀ d ∈ c :: w, isBlank d = false := List.forall_mem_cons.mpr ⟨hc, hw⟩
      exact ⟨_, .word hnone (List.cons_ne_nil c w) hlonger hrest hmore⟩
    | cons b blanks =>
      have hhead : ∀ d ∈ (b :: blanks ++ w ++ rest).head?, isBlank d = true := by
        simpa using (List.forall_mem_cons.mp hblanks).1
      exact ⟨_, .word hnone (List.cons_ne_nil c []) hone hhead (.word hblanks hne hw hrest hmore)⟩

/-- Every text is some words set apart by blanks. -/
theorem exists_hasWords (cs : List Char) : ∃ ws, HasWords ws cs := by
  induction cs with
  | nil => exact ⟨[], .blank (by simp)⟩
  | cons c cs ih =>
    obtain ⟨ws, h⟩ := ih
    cases hc : isBlank c with
    | true => exact ⟨ws, h.cons_blank hc⟩
    | false => exact h.cons_of_not_blank hc

/-- The words of a text are the only ones that are set apart in it. -/
theorem words_eq_iff : words cs = ws ↔ HasWords ws cs := by
  constructor
  · rintro rfl
    obtain ⟨ws, h⟩ := exists_hasWords cs
    rwa [h.words_eq]
  · exact HasWords.words_eq

/-! ## What is normal -/

/-- Nothing is left of characters exactly if there is no word among them. -/
theorem normalize_eq_none_iff : normalize cs = none ↔ words cs = [] := by
  unfold normalize
  split <;> simp_all

/-- Nothing is left of a text exactly if it has no words. -/
theorem normalized_eq_none_iff {s : String} : normalized s = none ↔ words s.toList = [] := by
  rw [normalized, Option.map_eq_none_iff, normalize_eq_none_iff]

/-- A normal form is made of the words of the text. -/
theorem words_of_normalized {s n : String} (h : normalized s = some n) :
    words n.toList = words s.toList := by
  obtain ⟨cs, hcs, rfl⟩ := Option.map_eq_some_iff.mp h
  unfold normalize at hcs
  split at hcs
  · cases hcs
  · obtain rfl := Option.some.inj hcs
    rw [String.toList_ofList]
    exact words_intercalate fun _ => isBlank_of_mem_word

/-- A normalised text is normalised already. -/
theorem normalized_normalized {s n : String} (h : normalized s = some n) :
    normalized n = some n := by
  rw [← h, normalized_eq_iff]
  exact words_of_normalized h

/-- Words with spaces between them, and others behind them. -/
theorem intercalate_append_of_ne_nil {first second : List (List Char)} (hfirst : first ≠ [])
    (hsecond : second ≠ []) : [' '].intercalate (first ++ second) =
      [' '].intercalate first ++ ' ' :: [' '].intercalate second := by
  induction first with
  | nil => exact absurd rfl hfirst
  | cons w first ih =>
    by_cases hnil : first = []
    · simp [hnil, List.intercalate_cons_of_ne_nil hsecond]
    · have hmore : first ++ second ≠ [] := List.append_ne_nil_of_left_ne_nil hnil second
      rw [List.cons_append, List.intercalate_cons_of_ne_nil hmore, ih hnil,
        List.intercalate_cons_of_ne_nil hnil]
      simp

/-- The normal forms of two texts with a blank between them are put together with a space. -/
theorem normalize_append_cons (a b : List Char) {c : Char} (hc : isBlank c = true) :
    normalize (a ++ c :: b) =
      Option.merge (fun x y => x ++ ' ' :: y) (normalize a) (normalize b) := by
  rw [normalize, normalize, normalize, words_append_cons a b hc]
  cases ha : words a with
  | nil => cases words b <;> rfl
  | cons w ws =>
    cases hb : words b with
    | nil => simp
    | cons w' ws' =>
      simp only [List.cons_append, Option.merge_some_some, Option.some.injEq]
      exact intercalate_append_of_ne_nil (List.cons_ne_nil w ws) (List.cons_ne_nil w' ws')

/-- A text with a blank in it is normalised part by part, with one space between what is left of
both. -/
theorem normalized_append_blank (a b : String) {w : Char} (hw : isBlank w = true) :
    normalized (a ++ String.singleton w ++ b) =
      Option.merge (fun x y => x ++ " " ++ y) (normalized a) (normalized b) := by
  have hlist : (a ++ String.singleton w ++ b).toList = a.toList ++ w :: b.toList := by simp
  rw [normalized, normalized, normalized, hlist, normalize_append_cons _ _ hw]
  cases normalize a.toList with
  | none => cases normalize b.toList <;> rfl
  | some x =>
    cases normalize b.toList with
    | none => rfl
    | some y =>
      simp only [Option.merge_some_some, Option.map_some, Option.some.injEq]
      rw [← String.toList_inj]
      simp

/-- For all texts. The words of a text are those that are set apart by blanks in it, and no others.
Two texts have the same normal form exactly if they have the same words; there is none exactly if
there is no word, and one that there is is its own normal form. Where two texts are put together
with any blank between them, their normal forms are put together with a space, or the only one is
left as it is. -/
theorem normal_forms_are_canonical (a b : String) :
    (∀ ws, words a.toList = ws ↔ HasWords ws a.toList) ∧
      (normalized a = normalized b ↔ words a.toList = words b.toList) ∧
      (normalized a = none ↔ words a.toList = []) ∧
      (∀ n, normalized a = some n → normalized n = some n) ∧
      ∀ w, isBlank w = true → normalized (a ++ String.singleton w ++ b) =
        Option.merge (fun x y => x ++ " " ++ y) (normalized a) (normalized b) :=
  ⟨fun _ => words_eq_iff, normalized_eq_iff, normalized_eq_none_iff, fun _ => normalized_normalized,
    fun _ => normalized_append_blank a b⟩

example : normalized "\u2003one\t\n two\u00a0" = some "one two" := by decide

end XmlCompare.Text
