import XmlCompare.Reading
import XmlCompare.Text.Entity

/-!
# References in parts of a text

A reference begins with `&` and ends with the next `;`, so it lies within any part of the text that
holds both. What a text resolves to is what its parts resolve to, put together, where no reference
goes from one part into the other.
-/

set_option autoImplicit false

namespace XmlCompare.Text

variable {u v cs name rest more : List Char}

/-- Where a reference ends does not depend on what follows it. -/
theorem cutReference_append (h : cutReference cs = some (name, rest)) (more : List Char) :
    cutReference (cs ++ more) = some (name, rest ++ more) := by
  induction cs generalizing name with
  | nil => cases h
  | cons c cs ih =>
    rw [cutReference] at h
    rw [List.cons_append, cutReference]
    split at h
    · rename_i hc
      obtain ⟨rfl, rfl⟩ := Prod.mk.inj (Option.some.inj h)
      rw [if_pos hc]
    · rename_i hc
      split at h
      · cases h
      · rename_i hamp
        obtain ⟨⟨name, rest⟩, hcut, heq⟩ := Option.map_eq_some_iff.mp h
        obtain ⟨rfl, rfl⟩ := Prod.mk.inj heq
        rw [if_neg hc, if_neg hamp, ih hcut]
        rfl

/-- A reference ends before what holds no `;`. -/
theorem cutReference_of_append (hmore : ';' ∉ more)
    (h : cutReference (cs ++ more) = some (name, rest)) :
    ∃ rest', rest = rest' ++ more ∧ cutReference cs = some (name, rest') := by
  induction cs generalizing name with
  | nil =>
    exfalso
    rw [List.nil_append] at h
    induction more generalizing name with
    | nil => cases h
    | cons c more ih =>
      rw [List.mem_cons, not_or] at hmore
      rw [cutReference, if_neg (Ne.symm hmore.1)] at h
      split at h
      · cases h
      · obtain ⟨⟨name, rest⟩, hcut, heq⟩ := Option.map_eq_some_iff.mp h
        obtain ⟨rfl, rfl⟩ := Prod.mk.inj heq
        exact ih hmore.2 hcut
  | cons c cs ih =>
    rw [List.cons_append, cutReference] at h
    rw [cutReference]
    split at h
    · rename_i hc
      obtain ⟨rfl, rfl⟩ := Prod.mk.inj (Option.some.inj h)
      exact ⟨cs, rfl, if_pos hc⟩
    · rename_i hc
      split at h
      · cases h
      · rename_i hamp
        obtain ⟨⟨name, rest⟩, hcut, heq⟩ := Option.map_eq_some_iff.mp h
        obtain ⟨rfl, rfl⟩ := Prod.mk.inj heq
        obtain ⟨rest', rfl, hcut'⟩ := ih hcut
        exact ⟨rest', rfl, by rw [if_neg hc, if_neg hamp, hcut']; rfl⟩

/-- A text and what it resolves to. -/
inductive Resolves : List Char → List Char → Prop
  | nil : Resolves [] []
  | plain {c : Char} {cs found : List Char} : c ≠ '&' → Resolves cs found →
    Resolves (c :: cs) (c :: found)
  | reference {cs name rest found : List Char} {start : Nat} {character : Char} :
    cutReference cs = some (name, rest) → resolve start name = .ok character →
    Resolves rest found → Resolves ('&' :: cs) (character :: found)

/-- Where a name begins matters only for the fault. -/
theorem resolve_eq_ok {start start' : Nat} {character : Char}
    (h : resolve start name = .ok character) : resolve start' name = .ok character := by
  unfold resolve at h ⊢
  split at h
  · exact h
  · exact h
  · cases hlookup : namedCharacters.lookup (String.ofList name) with
    | none =>
      rw [hlookup] at h
      cases h
    | some found =>
      rw [hlookup] at h
      exact h

/-- What can be resolved from a position on resolves to what is found. -/
theorem resolves_of_unescapeFrom {size offset : Nat} {found : List Char}
    (h : unescapeFrom size offset cs = .ok found) : Resolves cs found := by
  fun_induction unescapeFrom size offset cs generalizing found with
  | case1 =>
    obtain rfl := Except.ok.inj h
    exact .nil
  | case2 => cases h
  | case3 offset cs name rest hcut hlt ih =>
    obtain ⟨character, hresolve, h⟩ := bind_eq_ok_iff.mp h
    obtain ⟨more, hmore, h⟩ := bind_eq_ok_iff.mp h
    obtain rfl := Except.ok.inj h
    exact .reference hcut hresolve (ih hmore)
  | case4 offset c cs hc ih =>
    obtain ⟨more, hmore, h⟩ := bind_eq_ok_iff.mp h
    obtain rfl := Except.ok.inj h
    exact .plain hc (ih hmore)

/-- What resolves to a text can be resolved from any position on. -/
theorem unescapeFrom_of_resolves {found : List Char} (h : Resolves cs found) (size offset : Nat) :
    unescapeFrom size offset cs = .ok found := by
  induction h generalizing offset with
  | nil => rw [unescapeFrom]
  | plain hc _ ih =>
    rw [unescapeFrom, if_neg hc, ih]
    rfl
  | reference hcut hresolve _ ih =>
    rw [unescapeFrom, if_pos rfl]
    split
    · rename_i hnone
      rw [hcut] at hnone
      cases hnone
    · rename_i name' rest' hsome
      rw [hcut] at hsome
      obtain ⟨rfl, rfl⟩ := Prod.mk.inj (Option.some.inj hsome)
      rw [resolve_eq_ok hresolve, ih]
      rfl

/-- What two parts resolve to, their text resolves to. -/
theorem Resolves.append {found found' : List Char} (h : Resolves u found)
    (h' : Resolves v found') : Resolves (u ++ v) (found ++ found') := by
  induction h with
  | nil => exact h'
  | plain hc _ ih => exact .plain hc ih
  | reference hcut hresolve _ ih => exact .reference (cutReference_append hcut v) hresolve ih

/-- Characters that belong to no reference stand for themselves. -/
theorem resolves_self {plain : List Char} (h : '&' ∉ plain) : Resolves plain plain := by
  induction plain with
  | nil => exact .nil
  | cons c plain ih =>
    rw [List.mem_cons, not_or] at h
    exact .plain (Ne.symm h.1) (ih h.2)

/-- If a text begins with characters that belong to no reference, so does what it resolves to. -/
theorem Resolves.of_plain_append {plain found : List Char} (hamp : '&' ∉ plain)
    (h : Resolves (plain ++ v) found) : ∃ found', found = plain ++ found' ∧ Resolves v found' := by
  induction plain generalizing found with
  | nil => exact ⟨found, rfl, h⟩
  | cons c plain ih =>
    rw [List.mem_cons, not_or] at hamp
    cases h with
    | plain hc h =>
      obtain ⟨found', rfl, h'⟩ := ih hamp.2 h
      exact ⟨found', rfl, h'⟩
    | reference => exact absurd rfl hamp.1

/-- If a text ends with characters that belong to no reference, the part before them resolves by
itself. -/
theorem Resolves.of_append_plain {plain found : List Char} (hamp : '&' ∉ plain)
    (hsemi : ';' ∉ plain) (h : Resolves (u ++ plain) found) :
    ∃ found', found = found' ++ plain ∧ Resolves u found' := by
  have hend : ∀ {found}, Resolves plain found → found = plain := by
    intro found h
    rw [← List.append_nil plain] at h
    obtain ⟨found', rfl, hnil⟩ := h.of_plain_append hamp
    cases hnil
    exact List.append_nil plain
  generalize hcs : u ++ plain = cs at h
  induction h generalizing u with
  | nil =>
    obtain ⟨rfl, rfl⟩ := List.append_eq_nil_iff.mp hcs
    exact ⟨[], rfl, .nil⟩
  | @plain c cs found hc h ih =>
    cases u with
    | nil =>
      obtain rfl : plain = c :: cs := hcs
      exact ⟨[], hend (.plain hc h), .nil⟩
    | cons d u =>
      obtain ⟨rfl, rfl⟩ := List.cons.inj hcs
      obtain ⟨found', rfl, h'⟩ := ih rfl
      exact ⟨d :: found', rfl, .plain hc h'⟩
  | @reference cs name rest found start character hcut hresolve h ih =>
    cases u with
    | nil =>
      obtain rfl : plain = '&' :: cs := hcs
      exact absurd List.mem_cons_self hamp
    | cons d u =>
      obtain ⟨rfl, rfl⟩ := List.cons.inj hcs
      obtain ⟨rest', rfl, hcut'⟩ := cutReference_of_append hsemi hcut
      obtain ⟨found', rfl, h'⟩ := ih rfl
      exact ⟨character :: found', rfl, .reference hcut' hresolve h'⟩

/-- A text can be resolved exactly to what it resolves to. -/
theorem unescape_eq_ok_iff {found : List Char} : unescape cs = .ok found ↔ Resolves cs found :=
  ⟨resolves_of_unescapeFrom, fun h => unescapeFrom_of_resolves h _ _⟩

/-! ## Escaping -/

/-- Character data is escaped character by character. -/
theorem toList_escapeText (s : String) :
    (escapeText s).toList = s.toList.flatMap escapeTextChar := String.toList_ofList

/-- What characters are written as, one by one, resolves to them. -/
theorem resolves_flatMap {written : Char → List Char} (h : ∀ c, Resolves (written c) [c])
    (cs : List Char) : Resolves (cs.flatMap written) cs := by
  induction cs with
  | nil => exact .nil
  | cons c cs ih =>
    rw [List.flatMap_cons]
    exact (h c).append ih

/-- A named reference resolves to its character. -/
theorem resolves_reference (name : List Char) {c : Char} (hcut : cutReference cs = some (name, []))
    (hresolve : resolve 0 name = .ok c) : Resolves ('&' :: cs) [c] :=
  .reference hcut hresolve .nil

/-- A character between quotes resolves to itself when it is escaped. -/
theorem resolves_escapeChar (c : Char) : Resolves (escapeChar c) [c] := by
  unfold escapeChar
  split
  · exact resolves_reference ['l', 't'] rfl rfl
  · exact resolves_reference ['g', 't'] rfl rfl
  · exact resolves_reference ['a', 'm', 'p'] rfl rfl
  · exact resolves_reference ['a', 'p', 'o', 's'] rfl rfl
  · exact resolves_reference ['q', 'u', 'o', 't'] rfl rfl
  · rename_i hamp _ _
    exact .plain hamp .nil

/-- A character of character data resolves to itself when it is escaped. -/
theorem resolves_escapeTextChar (c : Char) : Resolves (escapeTextChar c) [c] := by
  unfold escapeTextChar
  split
  · exact resolves_reference ['l', 't'] rfl rfl
  · exact resolves_reference ['g', 't'] rfl rfl
  · exact resolves_reference ['a', 'm', 'p'] rfl rfl
  · rename_i hamp
    exact .plain hamp .nil

/-- An escaped text can stand between double quotes. -/
theorem not_mem_flatMap_escapeChar (cs : List Char) : '"' ∉ cs.flatMap escapeChar := by
  intro hmem
  obtain ⟨c, -, hc⟩ := List.mem_flatMap.mp hmem
  unfold escapeChar at hc
  split at hc
  · revert hc; decide
  · revert hc; decide
  · revert hc; decide
  · revert hc; decide
  · revert hc; decide
  · rename_i hquot
    exact hquot (List.mem_singleton.mp hc).symm

/-- An escaped text holds no markup. -/
theorem not_mem_flatMap_escapeTextChar (cs : List Char) : '<' ∉ cs.flatMap escapeTextChar := by
  intro hmem
  obtain ⟨c, -, hc⟩ := List.mem_flatMap.mp hmem
  unfold escapeTextChar at hc
  split at hc
  · revert hc; decide
  · revert hc; decide
  · revert hc; decide
  · rename_i hlt _ _
    exact hlt (List.mem_singleton.mp hc).symm

/-- Every character is written as something. -/
theorem flatMap_escapeTextChar_ne_nil (h : cs ≠ []) : cs.flatMap escapeTextChar ≠ [] := by
  obtain ⟨c, cs, rfl⟩ := List.exists_cons_of_ne_nil h
  rw [List.flatMap_cons]
  apply List.append_ne_nil_of_left_ne_nil
  unfold escapeTextChar
  split <;> simp

end XmlCompare.Text
