import Mathlib.Data.List.Forall2
import XmlCompare.Name.Scope

/-!
# Abbreviations renamed

What a namespace is abbreviated to does not matter. If all abbreviations are exchanged for others,
those in declarations and those in names, then names expand to what they expanded to before: every
scope binds the new abbreviation to what it bound the old one to, whether the abbreviation is bound
again further inside, stands for nothing, or is the empty one.

An abbreviation that is declared may hold a colon. No name is written with such an abbreviation, for
a name ends its abbreviation at the first colon; it is renamed all the same.
-/

set_option autoImplicit false

namespace XmlCompare

namespace Name

/-- A renaming of abbreviations. Different ones stay different, none gets a colon that has none, and
the empty one and the two that are reserved are kept. -/
structure Renaming where
  toFun : String → String
  injective : Function.Injective toFun
  colonFree : ∀ p : String, ':' ∉ p.toList → ':' ∉ (toFun p).toList
  empty : toFun "" = ""
  xml : toFun "xml" = "xml"
  xmlns : toFun "xmlns" = "xmlns"

instance : CoeFun Renaming fun _ => String → String := ⟨Renaming.toFun⟩

/-! ## How names are split -/

/-- A name is split at its first colon. -/
theorem split_of_colon {p : String} (hp : ':' ∉ p.toList) (rest : String) :
    split (p ++ ":" ++ rest) = (some p, rest) := by
  have hcut : Text.cutAt ':' (p ++ ":" ++ rest).toList = some (p.toList, rest.toList) := by
    refine Text.cutAt_eq_some_iff.mpr ⟨hp, ?_⟩
    rw [String.toList_append, String.toList_append, List.append_assoc]
    rfl
  rw [split, hcut]
  simp only [String.ofList_toList]

/-- A name is split at its first colon, or it has none. -/
theorem split_cases (name : String) : split name = (none, name) ∨
    ∃ p rest, ':' ∉ p.toList ∧ name = p ++ ":" ++ rest := by
  cases hcut : Text.cutAt ':' name.toList with
  | none => exact .inl (by rw [split, hcut])
  | some parts =>
    obtain ⟨before, after⟩ := parts
    obtain ⟨hbefore, hname⟩ := Text.cutAt_eq_some_iff.mp hcut
    refine .inr ⟨String.ofList before, String.ofList after, ?_, ?_⟩
    · rwa [String.toList_ofList]
    · rw [← String.toList_inj, hname]
      simp

/-- What stands behind `xmlns:` at the start of a name is the rest of that name. -/
theorem dropStart?_xmlns_iff {name : String} {after : List Char} :
    Text.dropStart? "xmlns:".toList name.toList = some after ↔
      name = "xmlns" ++ ":" ++ String.ofList after := by
  rw [Text.dropStart?_eq_some_iff, ← String.toList_inj]
  simp

/-- A name without colon declares something only if it is `xmlns`, for the names without
abbreviation. -/
theorem declares?_of_no_colon {name : String} (h : split name = (none, name)) :
    declares? name = if name = "xmlns" then some "" else none := by
  have hnone : Text.dropStart? "xmlns:".toList name.toList = none := by
    rw [Option.eq_none_iff_forall_ne_some]
    intro after hafter
    rw [dropStart?_xmlns_iff.mp hafter, split_of_colon (by decide)] at h
    cases h
  rw [declares?, hnone]
  rfl

/-- A name with an abbreviation is a declaration if the abbreviation is `xmlns`. -/
theorem declares?_of_colon {p : String} (hp : ':' ∉ p.toList) (rest : String) :
    declares? (p ++ ":" ++ rest) = if p = "xmlns" then some rest else none := by
  have hsplit := split_of_colon hp rest
  have hname : p ++ ":" ++ rest ≠ "xmlns" := by
    intro heq
    rw [heq] at hsplit
    cases hsplit
  rw [declares?, if_neg hname]
  by_cases hxmlns : p = "xmlns"
  · have hafter : p ++ ":" ++ rest = "xmlns" ++ ":" ++ String.ofList rest.toList := by
      rw [hxmlns, String.ofList_toList]
    rw [if_pos hxmlns, dropStart?_xmlns_iff.mpr hafter, Option.map_some, String.ofList_toList]
  · have hnone : Text.dropStart? "xmlns:".toList (p ++ ":" ++ rest).toList = none := by
      rw [Option.eq_none_iff_forall_ne_some]
      intro after hafter
      rw [dropStart?_xmlns_iff.mp hafter, split_of_colon (by decide)] at hsplit
      exact hxmlns (Option.some.inj (congrArg Prod.fst hsplit)).symm
    rw [if_neg hxmlns, hnone]
    rfl

namespace Renaming

variable (r : Renaming)

/-- The name with its abbreviation renamed. -/
def name (name : String) : String :=
  match split name with
  | (some p, rest) => r p ++ ":" ++ rest
  | (none, _) => name

/-- The name of an attribute renamed: in a declaration it is the abbreviation that is declared. -/
def attributeName (name : String) : String :=
  match split name with
  | (some p, rest) => if p = "xmlns" then "xmlns:" ++ r rest else r p ++ ":" ++ rest
  | (none, _) => name

/-- A renamed name has the renamed abbreviation and the same local part. -/
theorem split_name (n : String) : split (r.name n) = ((split n).1.map r, (split n).2) := by
  rcases split_cases n with hsplit | ⟨p, rest, hp, rfl⟩
  · rw [name, hsplit]
    exact hsplit
  · rw [name, split_of_colon hp]
    exact split_of_colon (r.colonFree p hp) rest

/-- Renaming leaves the local part alone. -/
theorem localPart_name (n : String) : localPart (r.name n) = localPart n := by
  rw [localPart, split_name]
  rfl

/-- What an attribute declares is renamed with its name. -/
theorem declares?_attributeName (n : String) :
    declares? (r.attributeName n) = (declares? n).map r := by
  rcases split_cases n with hsplit | ⟨p, rest, hp, rfl⟩
  · rw [attributeName, hsplit, declares?_of_no_colon hsplit]
    by_cases hn : n = "xmlns"
    · rw [if_pos hn, Option.map_some, r.empty]
    · rw [if_neg hn]
      rfl
  · rw [attributeName, split_of_colon hp, declares?_of_colon hp]
    simp only
    by_cases hxmlns : p = "xmlns"
    · rw [if_pos hxmlns, if_pos hxmlns]
      have hcolon : ':' ∉ "xmlns".toList := by decide
      exact declares?_of_colon hcolon (r rest)
    · have hrenamed : r p ≠ "xmlns" := by
        intro heq
        exact hxmlns (r.injective (heq.trans r.xmlns.symm))
      rw [if_neg hxmlns, if_neg hxmlns, declares?_of_colon (r.colonFree p hp), if_neg hrenamed]
      rfl

/-- The name of an attribute that declares nothing is renamed like any other. -/
theorem attributeName_of_declares?_eq_none {n : String} (h : declares? n = none) :
    r.attributeName n = r.name n := by
  rcases split_cases n with hsplit | ⟨p, rest, hp, rfl⟩
  · rw [attributeName, name, hsplit]
  · rw [declares?_of_colon hp] at h
    have hxmlns : p ≠ "xmlns" := by
      rintro rfl
      cases h
    rw [attributeName, name, split_of_colon hp]
    exact if_neg hxmlns

end Renaming

end Name

open Name (Renaming)

variable {r : Renaming}

/-! ## Scopes -/

/-- Declarations of the same namespaces under renamed abbreviations. -/
def Declarations.Renamed (r : Renaming) (d d' : Declarations) : Prop :=
  d'.entries = d.entries.map (Prod.map r id)

/-- A renamed abbreviation is declared for what the abbreviation was. -/
theorem Declarations.Renamed.get? {d d' : Declarations} (h : Declarations.Renamed r d d')
    (p : String) : d'.get? (r p) = d.get? p := by
  rw [Dictionary.get?_of_map r.injective h, Option.map_id]
  rfl

namespace Scopes

/-- Scopes whose declarations are renamed one by one. -/
structure Renamed (r : Renaming) (s s' : Scopes) : Prop where
  inner : Declarations.Renamed r s.inner s'.inner
  outer : List.Forall₂ (Declarations.Renamed r) s.outer s'.outer

/-- The scopes of the document stay as they are, since `xml` keeps its name. -/
theorem renamed_document : document.Renamed r document := by
  refine ⟨?_, .nil⟩
  show [("xml", xmlNamespace)] = [(r "xml", xmlNamespace)]
  rw [r.xml]

variable {s s' : Scopes}

/-- Renamed scopes stay so when renamed declarations come into force in them. -/
theorem Renamed.enter (h : s.Renamed r s') {d d' : Declarations}
    (hd : Declarations.Renamed r d d') : (s.enter d.entries).Renamed r (s'.enter d'.entries) := by
  refine ⟨?_, .cons h.inner h.outer⟩
  rw [Scopes.enter, Scopes.enter, Dictionary.ofList_entries, Dictionary.ofList_entries]
  exact hd

/-- Renamed scopes stay so when the innermost one is left. -/
theorem Renamed.leave (h : s.Renamed r s') : s.leave.Renamed r s'.leave := by
  obtain ⟨inner, outer⟩ := s
  obtain ⟨inner', outer'⟩ := s'
  cases h.outer with
  | nil => exact h
  | cons hinner houter => exact ⟨hinner, houter⟩

/-- A renamed abbreviation stands for what the abbreviation stood for. -/
theorem Renamed.resolve (h : s.Renamed r s') (p : String) : s'.resolve (r p) = s.resolve p := by
  have hfound : ∀ {ds ds' : List Declarations}, List.Forall₂ (Declarations.Renamed r) ds ds' →
      ds'.findSome? (·.get? (r p)) = ds.findSome? (·.get? p) := by
    intro ds ds' hds
    induction hds with
    | nil => rfl
    | cons hd _ ih => rw [List.findSome?_cons, List.findSome?_cons, hd.get? p, ih]
  exact hfound (.cons h.inner h.outer)

/-- A renamed abbreviation expands to what the abbreviation did. -/
theorem Renamed.expand (h : s.Renamed r s') (p localName : String) :
    s'.expand (r p) localName = s.expand p localName := by
  rw [Scopes.expand, Scopes.expand, h.resolve]

/-- Renamed names of elements expand to the same. -/
theorem Renamed.elementName (h : s.Renamed r s') (n : String) :
    s'.elementName (r.name n) = s.elementName n := by
  rw [Scopes.elementName, Scopes.elementName, r.split_name]
  obtain ⟨_ | p, localName⟩ := Name.split n
  · have hempty := h.expand "" localName
    rw [r.empty] at hempty
    exact hempty
  · exact h.expand p localName

/-- Renamed names of attributes expand to the same. -/
theorem Renamed.attributeName (h : s.Renamed r s') (n : String) :
    s'.attributeName (r.name n) = s.attributeName n := by
  rw [Scopes.attributeName, Scopes.attributeName, r.split_name]
  obtain ⟨_ | p, localName⟩ := Name.split n
  · rfl
  · exact h.expand p localName

end Scopes

end XmlCompare
