import Mathlib.Data.List.Forall2
import XmlCompare.Path.Text
import XmlCompare.Proofs.Text.Numerals
import XmlCompare.Proofs.Text.Words

/-!
# Reading what was written of a path

The text form of a path is cut at its slashes and every piece at its first bracket, and of the
name before the bracket only the local part is kept. Nothing is escaped, so a path comes back from
its text only if the names of its steps give no occasion for another cut.
-/

set_option autoImplicit false

namespace XmlCompare

/-- A name that can be told from the text around it where a path is written: there is something to
read, and none of the characters at which a path is cut. -/
def Name.Legible (name : String) : Prop :=
  name ≠ "" ∧ ∀ c ∈ name.toList, c ≠ '/' ∧ c ≠ '[' ∧ c ≠ ':'

-- The search for an instance would go through all characters there are.
instance (name : String) : Decidable (Name.Legible name) :=
  decidable_of_iff
    (name ≠ "" ∧ name.toList.all (fun c => c ≠ '/' && c ≠ '[' && c ≠ ':') = true) (by
      simp [Name.Legible, and_assoc])

/-- Where there is no mark, nothing is cut. -/
theorem Text.cutAt_eq_none_iff {mark : Char} {cs : List Char} :
    cutAt mark cs = none ↔ mark ∉ cs := by
  induction cs with
  | nil => simp [cutAt]
  | cons c cs ih =>
    by_cases h : c = mark
    · simp [cutAt, h]
    · simp [cutAt, h, ih, Ne.symm h]

/-- The local part of a name is the end of it. -/
theorem Name.localPart_suffix (name : String) : (localPart name).toList <:+ name.toList := by
  unfold localPart split
  split
  · rename_i before after hcut
    obtain ⟨-, hname⟩ := Text.cutAt_eq_some_iff.mp hcut
    rw [hname, String.toList_ofList]
    exact ⟨before ++ [':'], by simp⟩
  · exact List.suffix_rfl

/-- A name is its own local part if it has no colon. -/
theorem Name.localPart_eq_self_iff {name : String} : localPart name = name ↔ ':' ∉ name.toList := by
  unfold localPart split
  cases hcut : Text.cutAt ':' name.toList with
  | none => simpa using Text.cutAt_eq_none_iff.mp hcut
  | some cut =>
    obtain ⟨before, after⟩ := cut
    obtain ⟨-, hname⟩ := Text.cutAt_eq_some_iff.mp hcut
    constructor
    · -- What stands behind a colon is shorter than the whole.
      intro hsame
      have hlength := congrArg (List.length ∘ String.toList) hsame
      simp only [Function.comp_apply, hname, String.toList_ofList, List.length_append,
        List.length_cons] at hlength
      omega
    · intro hcolon
      simp [hname] at hcolon

namespace Step

variable {s : Step}

/-- What is read as a step: a name, and a positive number in brackets. -/
theorem ofChars?_eq_some_iff {raw : List Char} : ofChars? raw = some s ↔
    ∃ name digits, raw = name ++ '[' :: (digits ++ [']']) ∧ '[' ∉ name ∧ name ≠ [] ∧
      Text.natural? digits = some s.ordinal ∧ 1 ≤ s.ordinal ∧
      s.name = Name.localPart (String.ofList name) := by
  constructor
  · intro h
    simp only [ofChars?, Option.bind_eq_bind, Option.bind_eq_some_iff, Prod.exists] at h
    obtain ⟨name, rest, hcut, digits, hend, ordinal, hordinal, h⟩ := h
    split at h
    · cases h
    · rename_i hvalid
      obtain rfl := Option.some.inj h
      obtain ⟨hname, rfl⟩ := Text.cutAt_eq_some_iff.mp hcut
      simp only [not_or, Bool.not_eq_true, List.isEmpty_eq_false_iff] at hvalid
      unfold Text.dropEnd? at hend
      split at hend
      · rename_i hlast
        obtain rfl := Option.some.inj hend
        refine ⟨name, rest.dropLast, ?_, hname, hvalid.2, hordinal, ?_, rfl⟩
        · rw [List.dropLast_append_getLast? _ hlast]
        · exact Nat.one_le_iff_ne_zero.mpr hvalid.1
      · cases hend
  · rintro ⟨name, digits, rfl, hname, hne, hordinal, hpos, hlocal⟩
    have hcut : Text.cutAt '[' (name ++ '[' :: (digits ++ [']'])) = some (name, digits ++ [']']) :=
      Text.cutAt_eq_some_iff.mpr ⟨hname, rfl⟩
    have hend : Text.dropEnd? ']' (digits ++ [']']) = some digits := by simp [Text.dropEnd?]
    simp only [ofChars?, hcut, hend, hordinal, Option.bind_eq_bind, Option.bind_some]
    rw [if_neg (by simp [hne]; omega), ← hlocal]

/-- What is read of a piece of a text has no bracket in its name, and no character in it that the
piece does not have. -/
theorem name_of_ofChars? {raw : List Char} (h : ofChars? raw = some s) :
    '[' ∉ s.name.toList ∧ s.name.toList ⊆ raw := by
  obtain ⟨name, digits, rfl, hname, -, -, -, hlocal⟩ := ofChars?_eq_some_iff.mp h
  have hpart : s.name.toList ⊆ name := by
    rw [hlocal]
    simpa using (Name.localPart_suffix (String.ofList name)).subset
  exact ⟨fun hmem => hname (hpart hmem), fun c hc => List.mem_append_left _ (hpart hc)⟩

/-- A step without a bracket in its name is read back if it has an ordinal that can be read and a
name without an abbreviation. -/
theorem ofChars?_chars_eq_some_iff (h : '[' ∉ s.name.toList) : ofChars? s.chars = some s ↔
    1 ≤ s.ordinal ∧ s.ordinal < Text.wordLimit ∧ s.name ≠ "" ∧ ':' ∉ s.name.toList := by
  have hchars : s.chars = s.name.toList ++ '[' :: (Nat.toDigits 10 s.ordinal ++ [']']) := by
    simp [chars]
  rw [ofChars?_eq_some_iff]
  constructor
  · rintro ⟨name, digits, hraw, hname, hne, hordinal, hpos, hlocal⟩
    -- Both names end at the first bracket.
    have hcut := Text.cutAt_eq_some_iff.mpr ⟨h, hchars⟩
    rw [Text.cutAt_eq_some_iff.mpr ⟨hname, hraw⟩] at hcut
    obtain ⟨rfl, -⟩ := Prod.mk.inj (Option.some.inj hcut)
    rw [String.ofList_toList] at hlocal
    exact ⟨hpos, Text.lt_wordLimit_of_natural? hordinal, fun hempty => hne (by simp [hempty]),
      Name.localPart_eq_self_iff.mp hlocal.symm⟩
  · rintro ⟨hpos, hlt, hne, hcolon⟩
    refine ⟨s.name.toList, Nat.toDigits 10 s.ordinal, hchars, h, ?_, ?_, hpos, ?_⟩
    · simpa [String.toList_eq_nil_iff] using hne
    · rw [Text.natural?_toDigits, if_pos hlt]
    · rw [String.ofList_toList, Name.localPart_eq_self_iff.mpr hcolon]

/-- Where the name of a step has no slash, its text form has none. -/
theorem not_mem_chars (h : '/' ∉ s.name.toList) : '/' ∉ s.chars := by
  have hdigits : '/' ∉ Nat.toDigits 10 s.ordinal := fun hmem =>
    absurd (Nat.isDigit_of_mem_toDigits (by decide) (by decide) hmem) (by decide)
  simp [chars, h, hdigits]

end Step

namespace Path

/-- Pieces of a text are read as steps one by one. -/
theorem stepsOfChars_eq_ok_iff {pieces : List (List Char)} {steps : List Step} :
    stepsOfChars pieces = .ok steps ↔
      List.Forall₂ (fun raw s => Step.ofChars? raw = some s) pieces steps := by
  induction pieces generalizing steps with
  | nil =>
    rw [stepsOfChars, Except.ok.injEq, List.forall₂_nil_left_iff, eq_comm]
  | cons raw pieces ih =>
    rw [stepsOfChars]
    constructor
    · intro h
      cases hstep : Step.ofChars? raw with
      | none => rw [hstep] at h; cases h
      | some step =>
        cases hrest : stepsOfChars pieces with
        | error fault => rw [hstep, hrest] at h; cases h
        | ok rest =>
          rw [hstep, hrest] at h
          obtain rfl := Except.ok.inj h
          exact .cons hstep (ih.mp hrest)
    · intro h
      cases h with
      | cons hstep hrest =>
        rw [hstep, ih.mpr hrest]
        rfl

/-- Every step that is read comes from one of the pieces. -/
theorem exists_piece {pieces : List (List Char)} {steps : List Step} {s : Step}
    (h : stepsOfChars pieces = .ok steps) (hs : s ∈ steps) :
    ∃ raw ∈ pieces, Step.ofChars? raw = some s := by
  induction stepsOfChars_eq_ok_iff.mp h with
  | nil => cases hs
  | cons hstep hrest ih =>
    rcases List.mem_cons.mp hs with rfl | hs
    · exact ⟨_, List.mem_cons_self, hstep⟩
    · obtain ⟨raw, hraw, hread⟩ := ih (stepsOfChars_eq_ok_iff.mpr hrest) hs
      exact ⟨raw, List.mem_cons_of_mem _ hraw, hread⟩

/-- The text form of a path joins those of its steps. -/
theorem chars_of_ne_nil {p : Path} (h : p.steps ≠ []) :
    p.chars = '/' :: ['/'].intercalate (p.steps.map Step.chars) := by
  rw [chars, if_neg (by simpa using h)]
  obtain ⟨s, rest, hsteps⟩ := List.exists_cons_of_ne_nil h
  rw [hsteps]
  clear hsteps h
  induction rest generalizing s with
  | nil => simp
  | cons next rest ih =>
    rw [List.flatMap_cons, ih next]
    simp [List.intercalate_cons_cons]

/-- A path that has steps is read in the pieces between its slashes. -/
theorem parse_text_of_ne_nil {p : Path} (h : p.steps ≠ []) : parse p.text =
    (stepsOfChars ((['/'].intercalate (p.steps.map Step.chars)).splitOn '/')).map mk := by
  have hbody : (['/'].intercalate (p.steps.map Step.chars)).isEmpty = false := by
    obtain ⟨s, rest, hsteps⟩ := List.exists_cons_of_ne_nil h
    rw [hsteps]
    cases rest <;> simp [List.intercalate_cons_cons, Step.chars]
  rw [parse, text, String.toList_ofList, chars_of_ne_nil h]
  simp only [hbody, Bool.false_eq_true, if_false]

/-- A path whose names have no slash is read step by step. -/
theorem parse_text_of_slashless {p : Path} (h : ∀ s ∈ p.steps, '/' ∉ s.name.toList) :
    parse p.text = .ok p ↔ ∀ s ∈ p.steps, Step.ofChars? s.chars = some s := by
  by_cases hsteps : p.steps = []
  · obtain rfl : p = document := congrArg mk hsteps
    exact iff_of_true (by decide) fun s hs => nomatch hs
  · have hpieces : (['/'].intercalate (p.steps.map Step.chars)).splitOn '/' =
        p.steps.map Step.chars := by
      refine List.splitOn_intercalate '/' ?_ (by simpa using hsteps)
      intro raw hraw
      obtain ⟨s, hs, rfl⟩ := List.mem_map.mp hraw
      exact Step.not_mem_chars (h s hs)
    have hmap : parse p.text = .ok p ↔ stepsOfChars (p.steps.map Step.chars) = .ok p.steps := by
      rw [parse_text_of_ne_nil hsteps, hpieces]
      cases stepsOfChars (p.steps.map Step.chars) with
      | error fault => simp [Except.map]
      | ok steps => cases p; simp [Except.map]
    rw [hmap, stepsOfChars_eq_ok_iff, List.forall₂_map_left_iff, List.forall₂_same]

/-- A path of legible names is read back. -/
theorem parse_text_of_legible {p : Path} (h : ∀ s ∈ p.steps, 1 ≤ s.ordinal ∧
    s.ordinal < Text.wordLimit ∧ Name.Legible s.name) : parse p.text = .ok p := by
  refine (parse_text_of_slashless fun s hs hslash => ?_).mpr fun s hs => ?_
  · exact ((h s hs).2.2.2 '/' hslash).1 rfl
  · obtain ⟨hpos, hlt, hne, hplain⟩ := h s hs
    refine (Step.ofChars?_chars_eq_some_iff fun hbracket => ?_).mpr
      ⟨hpos, hlt, hne, fun hcolon => ?_⟩
    · exact (hplain '[' hbracket).2.1 rfl
    · exact (hplain ':' hcolon).2.2 rfl

/-- A path that comes back from its text has neither a slash nor a bracket in any of its names:
whatever the pieces of the text are, no name that is read of them has one. -/
theorem plain_of_parse_text {p : Path} (h : parse p.text = .ok p) {s : Step} (hs : s ∈ p.steps) :
    '/' ∉ s.name.toList ∧ '[' ∉ s.name.toList := by
  rw [parse_text_of_ne_nil (List.ne_nil_of_mem hs)] at h
  cases hpieces : stepsOfChars ((['/'].intercalate (p.steps.map Step.chars)).splitOn '/') with
  | error fault => rw [hpieces] at h; cases h
  | ok steps =>
    rw [hpieces] at h
    obtain rfl := Except.ok.inj h
    obtain ⟨raw, hraw, hpiece⟩ := exists_piece hpieces hs
    obtain ⟨hbracket, hpart⟩ := Step.name_of_ofChars? hpiece
    rw [List.splitOn_eq_splitOnP] at hraw
    exact ⟨fun hslash => by simpa using Text.not_of_mem_splitOnP hraw '/' (hpart hslash), hbracket⟩

/-- For all paths, whatever their names and ordinals: reading the text form of a path gives the path
again exactly if every step has an ordinal of at least one and a name that is not empty and holds
neither a slash nor an opening bracket nor a colon. (The ordinals that can be read are those below
`Text.wordLimit`, the numbers of sixty-four bits that an ordinal can be.) -/
theorem parse_text_eq_ok_iff (p : Path) : parse p.text = .ok p ↔
    ∀ s ∈ p.steps, (1 ≤ s.ordinal ∧ s.ordinal < Text.wordLimit) ∧
      s.name ≠ "" ∧ ∀ c ∈ s.name.toList, c ≠ '/' ∧ c ≠ '[' ∧ c ≠ ':' := by
  constructor
  · intro hparse s hs
    obtain ⟨hslash, hbracket⟩ := plain_of_parse_text hparse hs
    have hslashless : ∀ s ∈ p.steps, '/' ∉ s.name.toList :=
      fun s hs => (plain_of_parse_text hparse hs).1
    have hstep := (parse_text_of_slashless hslashless).mp hparse s hs
    obtain ⟨hpos, hlt, hne, hcolon⟩ := (Step.ofChars?_chars_eq_some_iff hbracket).mp hstep
    refine ⟨⟨hpos, hlt⟩, hne, fun c hc => ⟨?_, ?_, ?_⟩⟩
    · exact fun heq => hslash (heq ▸ hc)
    · exact fun heq => hbracket (heq ▸ hc)
    · exact fun heq => hcolon (heq ▸ hc)
  · intro h
    exact parse_text_of_legible fun s hs => ⟨(h s hs).1.1, (h s hs).1.2, (h s hs).2⟩

end Path

end XmlCompare
