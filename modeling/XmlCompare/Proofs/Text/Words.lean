import Mathlib.Data.List.Induction
import Mathlib.Data.List.TakeWhile
import XmlCompare.Text.Blank

/-!
# Words and blanks

A text has the words of its parts where the parts are set off by a blank, and blanks have no words.
So how many blanks stand between two parts does not matter, as long as there is one; where there is
none, two words may become one, and there are fewer. A normal form begins and ends with a word;
there is nothing to trim from it, and nothing from a numeral.
-/

set_option autoImplicit false

namespace XmlCompare.Text

variable {a b blanks cs : List Char}

/-- A blank separates the words before it from those behind it. -/
theorem words_append_cons (a b : List Char) {c : Char} (hc : isBlank c = true) :
    words (a ++ c :: b) = words a ++ words b := by
  rw [words, List.splitOnP_append_cons a b hc, List.filter_append]
  rfl

/-- A blank at the start adds no word. -/
theorem words_cons (cs : List Char) {c : Char} (hc : isBlank c = true) :
    words (c :: cs) = words cs :=
  words_append_cons [] cs hc

/-- Blanks at the start add no word. -/
theorem words_blank_append (b : List Char) (h : ∀ c ∈ blanks, isBlank c = true) :
    words (blanks ++ b) = words b := by
  induction blanks with
  | nil => rfl
  | cons c rest ih =>
    obtain ⟨hc, hrest⟩ := List.forall_mem_cons.mp h
    rw [List.cons_append, words_cons _ hc, ih hrest]

/-- Blanks between two parts of a text only keep their words apart. -/
theorem words_append_blank (a b : List Char) (h : ∀ c ∈ blanks, isBlank c = true)
    (hne : blanks ≠ []) : words (a ++ blanks ++ b) = words a ++ words b := by
  obtain ⟨c, rest, rfl⟩ := List.exists_cons_of_ne_nil hne
  obtain ⟨hc, hrest⟩ := List.forall_mem_cons.mp h
  rw [List.append_assoc, List.cons_append, words_append_cons a _ hc, words_blank_append b hrest]

/-- A piece of a text has no character in it at which the text was cut. -/
theorem not_of_mem_splitOnP {p : Char → Bool} {w : List Char} (h : w ∈ cs.splitOnP p) :
    ∀ c ∈ w, p c = false := by
  induction cs generalizing w with
  | nil =>
    obtain rfl : w = [] := by simpa using h
    simp
  | cons c rest ih =>
    rw [List.splitOnP_cons_eq_if_modifyHead] at h
    split at h
    · rcases List.mem_cons.mp h with rfl | h
      · simp
      · exact ih h
    · rename_i hc
      obtain ⟨first, others, hsplit⟩ := List.exists_cons_of_ne_nil (List.splitOnP_ne_nil p rest)
      rw [hsplit] at h ih
      rcases List.mem_cons.mp h with rfl | h
      · rw [List.forall_mem_cons]
        exact ⟨by simpa using hc, ih List.mem_cons_self⟩
      · exact ih (List.mem_cons_of_mem _ h)

/-- A word is not empty and has no blank in it. -/
theorem isBlank_of_mem_word {w : List Char} (h : w ∈ words cs) :
    w ≠ [] ∧ ∀ c ∈ w, isBlank c = false := by
  obtain ⟨hmem, hne⟩ := List.mem_filter.mp h
  exact ⟨by simpa using hne, not_of_mem_splitOnP hmem⟩

/-- Characters without a blank among them are one word, if there are any. -/
theorem words_of_unbroken (h : ∀ c ∈ cs, isBlank c = false) :
    words cs = if cs = [] then [] else [cs] := by
  have hsplit : cs.splitOnP isBlank = [cs] :=
    List.splitOnP_eq_singleton fun c hc => by simp [h c hc]
  rw [words, hsplit]
  split <;> simp_all

/-! ## Trimming -/

/-- A text that neither begins nor ends with a blank is trimmed already. -/
theorem trim_eq_self (hfirst : ∀ c ∈ cs.head?, isBlank c = false)
    (hlast : ∀ c ∈ cs.getLast?, isBlank c = false) : trim cs = cs := by
  have hkept : ∀ l : List Char, (∀ c ∈ l.head?, isBlank c = false) → l.dropWhile isBlank = l := by
    intro l hl
    cases l with
    | nil => rfl
    | cons c rest => rw [List.dropWhile_cons_of_neg (by simp [hl c rfl])]
  rw [trim, hkept cs hfirst, hkept cs.reverse (by rwa [List.head?_reverse]), List.reverse_reverse]

/-- What stands between blanks is what is left when they are trimmed, if it begins and ends with no
blank itself. -/
theorem trim_between {front back : List Char} (hfront : ∀ c ∈ front, isBlank c = true)
    (hback : ∀ c ∈ back, isBlank c = true) (hfirst : ∀ c ∈ cs.head?, isBlank c = false)
    (hlast : ∀ c ∈ cs.getLast?, isBlank c = false) : trim (front ++ cs ++ back) = cs := by
  have hback' : ∀ c ∈ back.reverse, isBlank c = true := fun c hc => hback c (List.mem_reverse.mp hc)
  cases cs with
  | nil =>
    have hall : (front ++ [] ++ back).dropWhile isBlank = [] := by
      rw [List.dropWhile_eq_nil_iff, List.append_nil]
      exact List.forall_mem_append.mpr ⟨hfront, hback⟩
    rw [trim, hall]
    rfl
  | cons c rest =>
    have hkept : (front ++ (c :: rest) ++ back).dropWhile isBlank = c :: rest ++ back := by
      rw [List.append_assoc, List.dropWhile_append_of_pos hfront, List.cons_append,
        List.dropWhile_cons_of_neg (by simp [hfirst c rfl])]
    rw [trim, hkept, List.reverse_append, List.dropWhile_append_of_pos hback']
    cases hreverse : (c :: rest).reverse with
    | nil => exact absurd (List.reverse_eq_nil_iff.mp hreverse) (List.cons_ne_nil c rest)
    | cons last others =>
      have hblank : isBlank last = false := by
        apply hlast
        rw [← List.head?_reverse, hreverse]
        rfl
      rw [List.dropWhile_cons_of_neg (by simp [hblank]), ← hreverse, List.reverse_reverse]

/-- A text is what is left of it when it is trimmed, with blanks on both sides. -/
theorem exists_trim (cs : List Char) : ∃ front back, cs = front ++ trim cs ++ back ∧
    (∀ c ∈ front, isBlank c = true) ∧ (∀ c ∈ back, isBlank c = true) ∧
      (∀ c ∈ (trim cs).head?, isBlank c = false) ∧ ∀ c ∈ (trim cs).getLast?, isBlank c = false := by
  obtain ⟨front, mid, hcs, hfront, hmid⟩ : ∃ front mid, cs = front ++ mid ∧
      (∀ c ∈ front, isBlank c = true) ∧ ∀ c ∈ mid.head?, isBlank c = false :=
    ⟨_, _, List.takeWhile_append_dropWhile.symm, fun _ => List.mem_takeWhile_imp, fun c hc => by
      simpa [Option.mem_def.mp hc] using List.head?_dropWhile_not isBlank cs⟩
  obtain ⟨back, kept, hrest, hback, hkept⟩ : ∃ back kept, mid.reverse = back ++ kept ∧
      (∀ c ∈ back, isBlank c = true) ∧ ∀ c ∈ kept.head?, isBlank c = false :=
    ⟨_, _, List.takeWhile_append_dropWhile.symm, fun _ => List.mem_takeWhile_imp, fun c hc => by
      simpa [Option.mem_def.mp hc] using List.head?_dropWhile_not isBlank mid.reverse⟩
  have hsplit : mid = kept.reverse ++ back.reverse := by
    rw [← List.reverse_append, ← hrest, List.reverse_reverse]
  have hback' : ∀ c ∈ back.reverse, isBlank c = true := fun c hc => hback c (List.mem_reverse.mp hc)
  have hhead : ∀ c ∈ kept.reverse.head?, isBlank c = false := by
    intro c hc
    apply hmid
    rw [hsplit, List.head?_append, Option.mem_def.mp hc]
    rfl
  have hlast : ∀ c ∈ kept.reverse.getLast?, isBlank c = false := by
    rwa [List.getLast?_reverse]
  have htrim : trim cs = kept.reverse := by
    rw [hcs, hsplit, ← List.append_assoc, trim_between hfront hback' hhead hlast]
  rw [htrim]
  exact ⟨front, back.reverse, by rw [hcs, hsplit, List.append_assoc], hfront, hback', hhead, hlast⟩

/-- Blanks around a text make no difference to what is left of it when it is trimmed. -/
theorem trim_blank_append {front back : List Char} (hfront : ∀ c ∈ front, isBlank c = true)
    (hback : ∀ c ∈ back, isBlank c = true) (cs : List Char) : trim (front ++ cs ++ back) = trim cs := by
  obtain ⟨front', back', hcs, hfront', hback', hfirst, hlast⟩ := exists_trim cs
  have hsplit : front ++ cs ++ back = front ++ front' ++ trim cs ++ (back' ++ back) :=
    calc front ++ cs ++ back = front ++ (front' ++ trim cs ++ back') ++ back := by rw [← hcs]
      _ = front ++ front' ++ trim cs ++ (back' ++ back) := by simp only [List.append_assoc]
  rw [hsplit]
  exact trim_between (List.forall_mem_append.mpr ⟨hfront, hfront'⟩)
    (List.forall_mem_append.mpr ⟨hback', hback⟩) hfirst hlast

/-- To trim twice is to trim once. -/
theorem trim_trim (cs : List Char) : trim (trim cs) = trim cs := by
  obtain ⟨front, back, -, -, -, hfirst, hlast⟩ := exists_trim cs
  exact trim_eq_self hfirst hlast

/-- Nothing is left of a text that is blank, and of no other one. -/
theorem trim_eq_nil_iff : trim cs = [] ↔ ∀ c ∈ cs, isBlank c = true := by
  obtain ⟨front, back, hcs, hfront, hback, hfirst, -⟩ := exists_trim cs
  constructor
  · intro hnil
    rw [hcs, hnil, List.append_nil]
    exact List.forall_mem_append.mpr ⟨hfront, hback⟩
  · intro hall
    cases htrim : trim cs with
    | nil => rfl
    | cons c rest =>
      rw [htrim] at hcs hfirst
      have hblank := hall c (by rw [hcs]; simp)
      rw [hfirst c rfl] at hblank
      cases hblank

/-- Trimming a text leaves its words alone. -/
theorem words_trim (cs : List Char) : words (trim cs) = words cs := by
  obtain ⟨front, back, hcs, hfront, hback, -⟩ := exists_trim cs
  have hend : words (trim cs ++ back) = words (trim cs) := by
    cases back with
    | nil => rw [List.append_nil]
    | cons c rest =>
      obtain ⟨hc, hrest⟩ := List.forall_mem_cons.mp hback
      have hnone := words_blank_append [] hrest
      rw [List.append_nil] at hnone
      rw [words_append_cons _ _ hc, hnone]
      exact List.append_nil _
  calc words (trim cs) = words (trim cs ++ back) := hend.symm
    _ = words (front ++ (trim cs ++ back)) := (words_blank_append _ hfront).symm
    _ = words cs := by rw [← List.append_assoc, ← hcs]

/-- The characters of a trimmed text are those of the text, trimmed. -/
theorem toList_trimmed (s : String) : (trimmed s).toList = trim s.toList := String.toList_ofList

/-- A trimmed text is trimmed already. -/
theorem trimmed_trimmed (s : String) : trimmed (trimmed s) = trimmed s := by
  rw [trimmed, toList_trimmed, trim_trim]
  rfl

/-- A text is blank if trimming leaves nothing of it. -/
theorem isBlankText_iff {s : String} : isBlankText s = true ↔ trim s.toList = [] := by
  rw [isBlankText, List.all_eq_true, trim_eq_nil_iff]

/-- Texts of which the same is left are blank together. -/
theorem isBlankText_of_trimmed {s t : String} (h : trimmed s = trimmed t) :
    isBlankText s = isBlankText t := by
  have htrim : trim s.toList = trim t.toList := String.ofList_inj.mp h
  rw [Bool.eq_iff_iff, isBlankText_iff, isBlankText_iff, htrim]

/-- A text in two parts is blank if both parts are. -/
theorem isBlankText_append (first second : String) :
    isBlankText (first ++ second) = (isBlankText first && isBlankText second) := by
  rw [isBlankText, String.toList_append, List.all_append]
  rfl

/-- A blank text at the end is trimmed away. -/
theorem trimmed_append_blank {s : String} (h : isBlankText s = true) (first : String) :
    trimmed (first ++ s) = trimmed first := by
  have hfront : ∀ c ∈ ([] : List Char), isBlank c = true := by simp
  have hboth := trim_blank_append hfront (List.all_eq_true.mp h) first.toList
  rw [trimmed, String.toList_append]
  exact congrArg String.ofList hboth

/-- A blank text at the start is trimmed away. -/
theorem trimmed_blank_append {s : String} (h : isBlankText s = true) (second : String) :
    trimmed (s ++ second) = trimmed second := by
  have hback : ∀ c ∈ ([] : List Char), isBlank c = true := by simp
  have hboth := trim_blank_append (List.all_eq_true.mp h) hback second.toList
  rw [List.append_nil] at hboth
  rw [trimmed, String.toList_append, hboth, trimmed]

/-- Words with spaces between them begin and end with characters of words. -/
theorem ends_of_words {ws : List (List Char)} (hne : ws ≠ [])
    (h : ∀ w ∈ ws, w ≠ [] ∧ ∀ c ∈ w, isBlank c = false) :
    (∃ c, ([' '].intercalate ws).head? = some c ∧ isBlank c = false) ∧
      ∃ c, ([' '].intercalate ws).getLast? = some c ∧ isBlank c = false := by
  induction ws with
  | nil => exact absurd rfl hne
  | cons w rest ih =>
    obtain ⟨⟨hw, hword⟩, hrest⟩ := List.forall_mem_cons.mp h
    have hhead : ∃ c, w.head? = some c ∧ isBlank c = false :=
      ⟨w.head hw, List.head?_eq_some_head hw, hword _ (List.head_mem hw)⟩
    have hlast : ∃ c, w.getLast? = some c ∧ isBlank c = false :=
      ⟨w.getLast hw, List.getLast?_eq_some_getLast hw, hword _ (List.getLast_mem hw)⟩
    cases rest with
    | nil =>
      rw [List.intercalate_singleton]
      exact ⟨hhead, hlast⟩
    | cons w' rest =>
      obtain ⟨c, hc, hblank⟩ := (ih (List.cons_ne_nil _ _) hrest).2
      obtain ⟨d, hd, hblank'⟩ := hhead
      rw [List.intercalate_cons_cons, List.append_assoc, List.singleton_append]
      constructor
      · exact ⟨d, by rw [List.head?_append, hd, Option.some_or], hblank'⟩
      · exact ⟨c, by rw [List.getLast?_append, List.getLast?_cons, hc]; rfl, hblank⟩

/-- There is nothing to trim from a normal form. -/
theorem trimmed_normalized {s t : String} (h : normalized s = some t) : trimmed t = t := by
  obtain ⟨cs, hcs, rfl⟩ := Option.map_eq_some_iff.mp h
  unfold normalize at hcs
  split at hcs
  · cases hcs
  · rename_i hne
    obtain rfl := Option.some.inj hcs
    obtain ⟨⟨c, hc, hblank⟩, d, hd, hblank'⟩ :=
      ends_of_words hne fun w hw => isBlank_of_mem_word hw
    rw [trimmed, String.toList_ofList, trim_eq_self]
    · intro c' hc'
      rw [hc] at hc'
      obtain rfl := Option.some.inj hc'
      exact hblank
    · intro d' hd'
      rw [hd] at hd'
      obtain rfl := Option.some.inj hd'
      exact hblank'

/-- A digit is no blank. -/
theorem isBlank_of_isDigit {c : Char} (h : c.isDigit = true) : isBlank c = false := by
  have hrange : 48 ≤ c.toNat ∧ c.toNat ≤ 57 := by
    simpa [Char.isDigit, UInt32.le_iff_toNat_le] using h
  simp only [isBlank, blankRanges, List.any_cons, List.any_nil, Bool.or_false, Bool.or_eq_false_iff,
    Bool.and_eq_false_iff, decide_eq_false_iff_not]
  omega

/-- There is nothing to trim from a numeral. -/
theorem trimmed_toString (n : Nat) : trimmed (toString n) = toString n := by
  have hdigits : ∀ c ∈ Nat.toDigits 10 n, isBlank c = false := fun c hc =>
    isBlank_of_isDigit (Nat.isDigit_of_mem_toDigits (by decide) (by decide) hc)
  rw [trimmed, Nat.toString_eq_ofList_toDigits, String.toList_ofList, trim_eq_self]
  · exact fun c hc => hdigits c (List.mem_of_head? hc)
  · exact fun c hc => hdigits c (List.mem_of_getLast? hc)

/-- Different numbers have different numerals. -/
theorem toString_injective {n m : Nat} (h : toString n = toString m) : n = m := by
  have hdigits : Nat.toDigits 10 n = Nat.toDigits 10 m := String.ofList_inj.mp h
  rw [← @Nat.ofDigitChars_ten_toDigits n, hdigits, Nat.ofDigitChars_ten_toDigits]

/-- Words with spaces between them are the words of that text. -/
theorem words_intercalate {ws : List (List Char)} (h : ∀ w ∈ ws, w ≠ [] ∧ ∀ c ∈ w, isBlank c = false) :
    words ([' '].intercalate ws) = ws := by
  induction ws with
  | nil => rfl
  | cons w rest ih =>
    obtain ⟨⟨hne, hword⟩, hrest⟩ := List.forall_mem_cons.mp h
    cases rest with
    | nil =>
      rw [List.intercalate_singleton, words_of_unbroken hword, if_neg hne]
    | cons w' rest =>
      rw [List.intercalate_cons_cons, List.append_assoc, List.singleton_append,
        words_append_cons w _ rfl, ih hrest, words_of_unbroken hword, if_neg hne]
      rfl

/-- Two texts have the same normal form exactly if they have the same words. -/
theorem normalized_eq_iff {s t : String} :
    normalized s = normalized t ↔ words s.toList = words t.toList := by
  have hnormal : ∀ cs : List Char, normalize cs = none ∧ words cs = [] ∨
      ∃ n, normalize cs = some n ∧ words n = words cs := by
    intro cs
    cases hwords : words cs with
    | nil => exact .inl ⟨by rw [normalize, hwords], rfl⟩
    | cons w ws =>
      refine .inr ⟨[' '].intercalate (w :: ws), by rw [normalize, hwords], words_intercalate ?_⟩
      rw [← hwords]
      exact fun _ => isBlank_of_mem_word
  constructor
  · intro h
    have heq : normalize s.toList = normalize t.toList :=
      Option.map_injective (fun _ _ => String.ofList_injective) h
    rcases hnormal s.toList with ⟨hs, hnone⟩ | ⟨n, hs, hn⟩ <;>
      rcases hnormal t.toList with ⟨ht, hnone'⟩ | ⟨m, ht, hm⟩ <;> rw [hs, ht] at heq
    · rw [hnone, hnone']
    · cases heq
    · cases heq
    · rw [← hn, ← hm, Option.some.inj heq]
  · intro h
    rw [normalized, normalized, normalize, normalize, h]

/-! ## Texts that are joined -/

/-- Texts that end with blanks do not run together. -/
theorem words_join {texts : List String}
    (h : ∀ t ∈ texts, ∀ c ∈ t.toList.getLast?, isBlank c = true) :
    words (String.join texts).toList = texts.flatMap fun t => words t.toList := by
  rw [String.toList_join]
  induction texts with
  | nil => rfl
  | cons t texts ih =>
    obtain ⟨ht, htexts⟩ := List.forall_mem_cons.mp h
    rw [List.flatMap_cons, List.flatMap_cons, ← ih htexts]
    generalize texts.flatMap String.toList = rest
    generalize t.toList = cs at ht ⊢
    rcases List.eq_nil_or_concat cs with rfl | ⟨init, last, rfl⟩
    · rfl
    · rw [List.concat_eq_append] at ht ⊢
      have hlast := ht last List.getLast?_concat
      rw [List.append_assoc, List.singleton_append, words_append_cons init rest hlast,
        words_append_cons init [] hlast]
      exact congrArg (· ++ words rest) (List.append_nil _).symm

/-- What stands in front of a text has a part only in its first word. -/
theorem exists_run_front (cs : List Char) : ∃ run ws, (∀ c ∈ run, isBlank c = false) ∧
    ∀ before, words (before ++ cs) = words (before ++ run) ++ ws := by
  induction cs with
  | nil => exact ⟨[], [], by simp, fun before => (List.append_nil _).symm⟩
  | cons c rest ih =>
    cases hc : isBlank c with
    | true =>
      refine ⟨[], words rest, by simp, fun before => ?_⟩
      rw [words_append_cons before rest hc, List.append_nil]
    | false =>
      obtain ⟨run, ws, hrun, hwords⟩ := ih
      refine ⟨c :: run, ws, List.forall_mem_cons.mpr ⟨hc, hrun⟩, fun before => ?_⟩
      have hbefore := hwords (before ++ [c])
      simpa only [List.append_assoc, List.singleton_append] using hbefore

/-- What stands behind a text has a part only in its last word. -/
theorem exists_run_back (cs : List Char) : ∃ ws run, (∀ c ∈ run, isBlank c = false) ∧
    ∀ behind, words (cs ++ behind) = ws ++ words (run ++ behind) := by
  induction cs using List.reverseRecOn with
  | nil => exact ⟨[], [], by simp, fun _ => rfl⟩
  | append_singleton init c ih =>
    cases hc : isBlank c with
    | true =>
      refine ⟨words init, [], by simp, fun behind => ?_⟩
      rw [List.append_assoc, List.singleton_append, words_append_cons init behind hc, List.nil_append]
    | false =>
      obtain ⟨ws, run, hrun, hwords⟩ := ih
      refine ⟨ws, run ++ [c], List.forall_mem_append.mpr
        ⟨hrun, List.forall_mem_singleton.mpr hc⟩, fun behind => ?_⟩
      have hbehind := hwords (c :: behind)
      simpa only [List.append_assoc, List.singleton_append] using hbehind

/-- Two texts that are put together have the words of both, or two of these become one. -/
theorem words_append_or (a b : List Char) : words (a ++ b) = words a ++ words b ∨
    (words (a ++ b)).length < (words a ++ words b).length := by
  obtain ⟨ws, run, hrun, hback⟩ := exists_run_back a
  obtain ⟨run', ws', hrun', hfront⟩ := exists_run_front b
  have ha : words a = ws ++ words run := by simpa using hback []
  have hb : words b = words run' ++ ws' := by simpa using hfront []
  have hboth : words (a ++ b) = ws ++ words (run ++ run') ++ ws' := by
    rw [hfront, hback]
  rw [hboth, ha, hb, words_of_unbroken hrun, words_of_unbroken hrun',
    words_of_unbroken (List.forall_mem_append.mpr ⟨hrun, hrun'⟩)]
  by_cases hnil : run = []
  · left
    simp [hnil]
  · by_cases hnil' : run' = []
    · left
      simp [hnil']
    · right
      simp [hnil, hnil']

/-- Texts that are put together have the words they have one by one, or there are fewer. -/
theorem words_join_or (texts : List String) :
    words (String.join texts).toList = (texts.flatMap fun t => words t.toList) ∨
      (words (String.join texts).toList).length < (texts.flatMap fun t => words t.toList).length := by
  rw [String.toList_join]
  induction texts with
  | nil => exact .inl rfl
  | cons t texts ih =>
    rw [List.flatMap_cons, List.flatMap_cons]
    rcases words_append_or t.toList (texts.flatMap String.toList) with heq | hlt
    · rw [heq]
      rcases ih with ih | ih
      · exact .inl (by rw [ih])
      · right
        rw [List.length_append, List.length_append]
        exact Nat.add_lt_add_left ih _
    · right
      have hle : (words (texts.flatMap String.toList)).length ≤
          (texts.flatMap fun t => words t.toList).length := by
        rcases ih with ih | ih
        · rw [ih]
        · exact ih.le
      rw [List.length_append] at hlt ⊢
      omega

/-- One or more blanks. -/
def IsGap (w : List Char) : Prop := w ≠ [] ∧ ∀ c ∈ w, isBlank c = true

/-- A gap stays one with more blanks before it. -/
theorem IsGap.after {u w : List Char} (hu : ∀ c ∈ u, isBlank c = true) (h : IsGap w) :
    IsGap (u ++ w) :=
  ⟨List.append_ne_nil_of_right_ne_nil u h.1, List.forall_mem_append.mpr ⟨hu, h.2⟩⟩

/-- A gap stays one with more blanks behind it. -/
theorem IsGap.before {v w : List Char} (h : IsGap w) (hv : ∀ c ∈ v, isBlank c = true) :
    IsGap (w ++ v) :=
  ⟨List.append_ne_nil_of_left_ne_nil h.1 v, List.forall_mem_append.mpr ⟨h.2, hv⟩⟩

/-- A character that separates no markup is not among those that do. -/
theorem not_mem_of_isMarkupBlank (h : ∀ c ∈ blanks, isMarkupBlank c = true) {d : Char}
    (hd : isMarkupBlank d = false) : d ∉ blanks := by
  intro hmem
  rw [h d hmem] at hd
  cases hd

/-- One or more of the blanks that separate markup. -/
def IsMarkupGap (w : List Char) : Prop := w ≠ [] ∧ ∀ c ∈ w, isMarkupBlank c = true

/-- What separates markup separates words. -/
theorem IsMarkupGap.isGap {w : List Char} (h : IsMarkupGap w) : IsGap w :=
  ⟨h.1, fun c hc => isBlank_of_isMarkupBlank (h.2 c hc)⟩

/-- A gap in markup holds blanks of markup only. -/
theorem IsMarkupGap.not_mem {w : List Char} (h : IsMarkupGap w) {c : Char}
    (hc : isMarkupBlank c = false) : c ∉ w :=
  not_mem_of_isMarkupBlank h.2 hc

/-- A text, or nothing if all of it is blank. -/
def unlessBlank (cs : List Char) : List Char := if cs.all isBlank then [] else cs

/-- Nothing is left of blanks. -/
theorem unlessBlank_of_blank (h : ∀ c ∈ cs, isBlank c = true) : unlessBlank cs = [] :=
  if_pos (List.all_eq_true.mpr h)

/-- A text is kept if a part of it is not blank. -/
theorem unlessBlank_of_not_blank (h : ¬ ∀ c ∈ a, isBlank c = true) (hsub : a ⊆ cs) :
    unlessBlank cs = cs := by
  apply if_neg
  rw [List.all_eq_true]
  exact fun hall => h fun c hc => hall c (hsub hc)

/-- Two texts that meet in blanks, and one text in which other blanks stand there. -/
inductive Rejoined : List Char → List Char → List Char → Prop
  | intro {u v w₁ w₂ w₃ : List Char} : IsGap w₁ → IsGap w₂ → IsGap w₃ →
    Rejoined (u ++ w₁) (w₂ ++ v) (u ++ w₃ ++ v)

/-- Texts that are joined anew may begin with anything. -/
theorem Rejoined.prepend {first second joined : List Char} (h : Rejoined first second joined)
    (cs : List Char) : Rejoined (cs ++ first) second (cs ++ joined) := by
  cases h with
  | @intro u v w₁ w₂ w₃ h₁ h₂ h₃ =>
    simpa using Rejoined.intro (u := cs ++ u) (v := v) h₁ h₂ h₃

/-- Texts that are joined anew may end with anything. -/
theorem Rejoined.append {first second joined : List Char} (h : Rejoined first second joined)
    (cs : List Char) : Rejoined first (second ++ cs) (joined ++ cs) := by
  cases h with
  | @intro u v w₁ w₂ w₃ h₁ h₂ h₃ =>
    simpa using Rejoined.intro (u := u) (v := v ++ cs) h₁ h₂ h₃

/-- Texts that are joined keep their words, also if those of them are left out that are blank
altogether. -/
theorem words_rejoined {first second joined : List Char} (h : Rejoined first second joined)
    (before after : List Char) :
    words (before ++ unlessBlank first ++ unlessBlank second ++ after) =
      words (before ++ unlessBlank joined ++ after) := by
  obtain ⟨h₁, h₂, h₃⟩ := h
  rename_i u v w₁ w₂ w₃
  have hgap : ∀ {w : List Char}, IsGap w → ∀ a b, words (a ++ w ++ b) = words a ++ words b :=
    fun h a b => words_append_blank a b h.2 h.1
  by_cases hu : ∀ c ∈ u, isBlank c = true
  · rw [unlessBlank_of_blank (h₁.after hu).2, List.append_nil]
    by_cases hv : ∀ c ∈ v, isBlank c = true
    · rw [unlessBlank_of_blank (h₂.before hv).2, unlessBlank_of_blank ((h₃.after hu).before hv).2]
    · rw [unlessBlank_of_not_blank hv (List.subset_append_right _ _),
        unlessBlank_of_not_blank hv (List.subset_append_right _ _)]
      have hbehind := hgap h₂ before (v ++ after)
      have hjoined := hgap (h₃.after hu) before (v ++ after)
      simp only [List.append_assoc] at hbehind hjoined ⊢
      rw [hbehind, hjoined]
  · have hsub : u ⊆ u ++ w₃ ++ v := by
      rw [List.append_assoc]
      exact List.subset_append_left _ _
    rw [unlessBlank_of_not_blank hu (List.subset_append_left _ _),
      unlessBlank_of_not_blank hu hsub]
    by_cases hv : ∀ c ∈ v, isBlank c = true
    · rw [unlessBlank_of_blank (h₂.before hv).2]
      have hbefore := hgap h₁ (before ++ u) after
      have hjoined := hgap (h₃.before hv) (before ++ u) after
      simp only [List.append_assoc, List.nil_append] at hbefore hjoined ⊢
      rw [hbefore, hjoined]
    · rw [unlessBlank_of_not_blank hv (List.subset_append_right _ _)]
      have hboth := hgap (h₁.before h₂.2) (before ++ u) (v ++ after)
      have hjoined := hgap h₃ (before ++ u) (v ++ after)
      simp only [List.append_assoc] at hboth hjoined ⊢
      rw [hboth, hjoined]

/-! ## Texts that are cut -/

/-- A text that is cut into pieces keeps its words, whatever is around it, if those of the pieces
are left out that are blank altogether. -/
def Steady (pieces : List (List Char)) : Prop := ∀ before after,
  words (before ++ pieces.flatMap unlessBlank ++ after) =
    words (before ++ unlessBlank pieces.flatten ++ after)

/-- A text that is one piece keeps its words. -/
theorem steady_singleton (piece : List Char) : Steady [piece] := by
  intro before after
  rw [List.flatMap_singleton, List.flatten_singleton]

/-- A blank piece may be cut off where another blank follows. -/
theorem Steady.cons_blank {c : Char} {pieces : List (List Char)} (h : Steady pieces)
    (hblank : ∀ c ∈ blanks, isBlank c = true) (hc : isBlank c = true)
    (hflatten : pieces.flatten = c :: cs) : Steady (blanks :: pieces) := by
  intro before after
  rw [List.flatMap_cons, unlessBlank_of_blank hblank, List.nil_append, h, List.flatten_cons, hflatten]
  by_cases hrest : ∀ d ∈ c :: cs, isBlank d = true
  · rw [unlessBlank_of_blank hrest,
      unlessBlank_of_blank (List.forall_mem_append.mpr ⟨hblank, hrest⟩)]
  · rw [unlessBlank_of_not_blank hrest (List.Subset.refl _),
      unlessBlank_of_not_blank hrest (List.subset_append_right _ _)]
    have hgap := words_append_blank before (cs ++ after)
      (List.forall_mem_append.mpr ⟨hblank, List.forall_mem_singleton.mpr hc⟩) (by simp)
    have hone := words_append_cons before (cs ++ after) hc
    simp only [List.append_assoc, List.cons_append, List.nil_append] at hgap hone ⊢
    rw [hgap, hone]

end XmlCompare.Text
