import XmlCompare.Proofs.Document.Origin

/-!
# Headings that are printed

A heading is printed as a name and assignments, those of declarations first. Where names are plain
they are the attributes of the tag that is read; and of these the same heading is made, if the same
scopes are in force.
-/

set_option autoImplicit false

namespace XmlCompare

open Markup (Writable tagContent)
open Markup.Tag (PlainName Unbroken assignment)

/-- An assignment is printed with its value between double quotes. -/
theorem toList_printAssignment (name value : String) :
    (printAssignment name value).toList = assignment (name, value) := by
  simp [printAssignment, assignment, Text.escape]

namespace PrintOptions

/-- A margin is as many spaces as the depth asks for. -/
theorem toList_margin (o : PrintOptions) (depth : Nat) :
    (o.margin depth).toList = List.replicate (o.indent * depth) ' ' := String.toList_ofList

/-- A margin holds blanks of markup only. -/
theorem isMarkupBlank_margin (o : PrintOptions) (depth : Nat) :
    ∀ c ∈ (o.margin depth).toList, Text.isMarkupBlank c = true := by
  intro c hc
  rw [toList_margin] at hc
  obtain rfl := List.eq_of_mem_replicate hc
  rfl

/-- What stands in front of a declaration. -/
def gap (o : PrintOptions) (depth : Nat) : List Char :=
  if o.declarationsOnNewLine then '\n' :: (o.margin (depth + 1)).toList else [' ']

/-- What stands in front of a declaration separates it from what is before it. -/
theorem isMarkupGap_gap (o : PrintOptions) (depth : Nat) : Text.IsMarkupGap (o.gap depth) := by
  unfold gap
  split
  · exact ⟨List.cons_ne_nil _ _,
      List.forall_mem_cons.mpr ⟨rfl, o.isMarkupBlank_margin (depth + 1)⟩⟩
  · exact ⟨List.cons_ne_nil _ _, List.forall_mem_singleton.mpr rfl⟩

end PrintOptions

namespace Heading

/-- The attributes with which a heading is printed. -/
def written (h : Heading) : List (String × String) :=
  h.declarations.entries.map (fun d => (declarationName d.1, d.2)) ++
    h.attributes.values.map fun a => (a.name, a.value)

/-- The attributes with which a heading is printed, with what stands in front of them. -/
def layout (o : PrintOptions) (depth : Nat) (h : Heading) : List (List Char × String × String) :=
  h.declarations.entries.map (fun d => (o.gap depth, declarationName d.1, d.2)) ++
    h.attributes.values.map fun a => ([' '], a.name, a.value)

variable {outer : Scopes} {h : Heading}

/-- A heading is printed with its attributes, whatever stands in front of them. -/
theorem map_layout (o : PrintOptions) (depth : Nat) (h : Heading) :
    (h.layout o depth).map Prod.snd = h.written := by
  simp [layout, written, Function.comp_def]

/-- The start of a tag is its `<` and its content. -/
theorem toList_print (o : PrintOptions) (depth : Nat) (h : Heading) :
    (h.print o depth).toList = '<' :: tagContent h.name (h.layout o depth) := by
  have hgap : (if o.declarationsOnNewLine then "\n" ++ o.margin (depth + 1) else " ").toList =
      o.gap depth := by
    unfold PrintOptions.gap
    split
    · exact String.toList_append
    · rfl
  simp [print, tagContent, layout, String.toList_join, hgap, toList_printAssignment,
    List.flatMap_def, Function.comp_def]

/-! ## The names of the attributes -/

/-- Names are as they have to be for a heading to be read as it is printed. -/
def IsPlain (h : Heading) : Prop :=
  PlainName h.name.toList ∧ ∀ a ∈ h.written, PlainName a.1.toList

instance (h : Heading) : Decidable h.IsPlain := inferInstanceAs (Decidable (_ ∧ _))

/-- The attributes with which a heading is printed have unbroken names. -/
theorem IsRead.unbroken (hread : h.IsRead outer) : ∀ a ∈ h.written, Unbroken a.1.toList := by
  refine List.forall_mem_append.mpr ⟨List.forall_mem_map.mpr hread.declarations, ?_⟩
  rw [Dictionary.values, List.map_map]
  exact List.forall_mem_map.mpr fun entry hentry => (hread.attributes entry hentry).1

/-- No two attributes are printed with the same name. -/
theorem IsRead.nodup (hread : h.IsRead outer) : (h.written.map Prod.fst).Nodup := by
  rw [written, List.map_append, List.map_map, List.map_map, List.nodup_append]
  refine ⟨?_, ?_, ?_⟩
  · -- A name tells the abbreviation that it declares.
    have hkeys : h.declarations.entries.map (some ∘ Prod.fst) =
        (h.declarations.entries.map (Prod.fst ∘ fun d => (declarationName d.1, d.2))).map
          Name.declares? := by
      rw [List.map_map]
      exact List.map_congr_left fun d _ => (declares?_declarationName d.1).symm
    refine List.Nodup.of_map Name.declares? ?_
    rw [← hkeys, ← List.map_map]
    exact h.declarations.nodup_keys.map fun _ _ => Option.some.inj
  · -- A name tells the expanded name, which is the key.
    have hkeys : h.attributes.entries.map Prod.fst =
        (h.attributes.values.map (Prod.fst ∘ fun a => (a.name, a.value))).map
          (outer.enter h.declarations.entries).attributeName := by
      rw [Dictionary.values, List.map_map, List.map_map]
      exact List.map_congr_left fun entry hentry => (hread.attributes entry hentry).2.2.2
    refine List.Nodup.of_map (outer.enter h.declarations.entries).attributeName ?_
    rw [← hkeys]
    exact h.attributes.nodup_keys
  · -- An attribute declares nothing.
    rintro name hdeclared name' hattribute rfl
    obtain ⟨d, -, rfl⟩ := List.mem_map.mp hdeclared
    obtain ⟨a, ha, heq⟩ := List.mem_map.mp hattribute
    obtain ⟨entry, hentry, rfl⟩ := List.mem_map.mp ha
    have hnone := (hread.attributes entry hentry).2.1
    have hsome := declares?_declarationName d.1
    dsimp only [Function.comp] at heq hsome
    rw [← heq, hnone] at hsome
    cases hsome

/-- A heading with plain names is printed as a tag that is read as it is written. -/
theorem IsRead.writable (hread : h.IsRead outer) (hplain : h.IsPlain) (o : PrintOptions)
    (depth : Nat) : Writable h.name (h.layout o depth) where
  plain := hplain.1
  unbroken := hread.name
  gaps := by
    refine List.forall_mem_append.mpr
      ⟨List.forall_mem_map.mpr fun d _ => o.isMarkupGap_gap depth, List.forall_mem_map.mpr ?_⟩
    exact fun a _ => ⟨List.cons_ne_nil _ _, List.forall_mem_singleton.mpr rfl⟩
  names := by
    intro x hx
    have hmem : x.2 ∈ h.written := by
      rw [← map_layout o depth]
      exact List.mem_map_of_mem hx
    exact ⟨hplain.2 _ hmem, hread.unbroken _ hmem⟩
  nodup := by
    have hnames : (h.layout o depth).map (·.2.1.toList) =
        (h.written.map Prod.fst).map String.toList := by
      rw [← map_layout o depth, List.map_map, List.map_map]
      rfl
    rw [hnames]
    exact hread.nodup.map fun _ _ => String.toList_inj.mp

/-! ## The heading that is read -/

/-- The declarations of a heading are read from what is printed. -/
theorem declarationsOf_written (hread : h.IsRead outer) :
    declarationsOf h.written = h.declarations := by
  have hdeclared : (h.declarations.entries.map fun d => (declarationName d.1, d.2)).filterMap
      (fun a => (Name.declares? a.1).map fun abbreviation => (abbreviation, a.2)) =
        h.declarations.entries := by
    rw [List.filterMap_map, List.filterMap_eq_map_iff_forall_eq_some.mpr, List.map_id]
    intro d _
    simp [declares?_declarationName]
  have hnone : (h.attributes.values.map fun a => (a.name, a.value)).filterMap
      (fun a => (Name.declares? a.1).map fun abbreviation => (abbreviation, a.2)) = [] := by
    rw [Dictionary.values, List.map_map, List.filterMap_map, List.filterMap_eq_nil_iff]
    intro entry hentry
    simp [(hread.attributes entry hentry).2.1]
  rw [declarationsOf_eq, written, List.filterMap_append, hdeclared, hnone, List.append_nil,
    Dictionary.ofList_entries]

/-- The attributes of a heading are read from what is printed. -/
theorem attributesOf_written (hread : h.IsRead outer) :
    attributesOf (outer.enter h.declarations.entries) h.written = h.attributes := by
  have hnone : (h.declarations.entries.map fun d => (declarationName d.1, d.2)).filter
      (fun a => (Name.declares? a.1).isNone) = [] := by
    rw [List.filter_eq_nil_iff]
    rintro a ha
    obtain ⟨d, -, rfl⟩ := List.mem_map.mp ha
    simp [declares?_declarationName]
  have hall : (h.attributes.values.map fun a => (a.name, a.value)).filter
      (fun a => (Name.declares? a.1).isNone) = h.attributes.values.map fun a => (a.name, a.value) := by
    rw [List.filter_eq_self, Dictionary.values, List.map_map]
    refine List.forall_mem_map.mpr fun entry hentry => ?_
    simp [(hread.attributes entry hentry).2.1]
  have hentries : h.attributes.values.map (fun a =>
      ((outer.enter h.declarations.entries).attributeName a.name, (⟨a.name,
        (outer.enter h.declarations.entries).attributeName a.name, a.value⟩ : Attribute))) =
      h.attributes.entries := by
    rw [Dictionary.values, List.map_map]
    refine (List.map_congr_left fun entry hentry => ?_).trans (List.map_id _)
    obtain ⟨key, name, expanded, value⟩ := entry
    obtain ⟨-, -, hkey, hexpanded⟩ := hread.attributes _ hentry
    dsimp only at hkey hexpanded
    simp [hkey, ← hexpanded]
  rw [attributesOf_eq, written, List.filter_append, hnone, List.nil_append, hall, List.map_map]
  exact (congrArg Dictionary.ofList hentries).trans (Dictionary.ofList_entries _)

/-- What opens with the attributes of a heading has that heading, but for its path and its
lines. -/
theorem ofOpened_written (hread : h.IsRead outer) (path : Path) (line : Nat) :
    ofOpened outer ⟨h.name, h.written, path, line⟩ = { h with path, lines := .single line } := by
  have hdeclarations := declarationsOf_written hread
  have hattributes := attributesOf_written hread
  simp only [ofOpened, hdeclarations, hattributes, ← hread.expanded]

end Heading

end XmlCompare
