import XmlCompare.Proofs.Document.Elements
import XmlCompare.Proofs.Name.History
import XmlCompare.Proofs.Name.Renaming

/-!
# Bindings that last

The outermost scope is never closed, so an abbreviation that is bound there stands for something
from then on. It need not stand for the same thing. Any scope may bind it otherwise, and `xml` is no
exception: it keeps the namespace it has from the start exactly if no operation binds it to another
one. In a document, names with this abbreviation are in that namespace inside all elements around
which `xml` is not declared otherwise.
-/

set_option autoImplicit false

namespace XmlCompare

namespace Scopes.Operation

/-- What an operation binds, in order. -/
def bindings : Operation → List (String × String)
  | enter declarations => declarations
  | bind abbreviation uri => [(abbreviation, uri)]
  | leave => []

/-- Behind the operation an abbreviation stands for this address if the operation has bound it. Of
several bindings the last one counts. -/
def Keeps (abbreviation uri : String) (operation : Operation) : Prop :=
  ∀ other ∈ operation.bindings.reverse.lookup abbreviation, other = uri

end Scopes.Operation

namespace History

variable {α : Type}

/-- Notes are made in the innermost scope and go before the earlier ones. -/
theorem notesIn_foldl_note (h : History α) (notes : List α) (scope : Nat) :
    (notes.foldl note h).notesIn scope =
      if scope = h.inner then notes.reverse ++ h.notesIn scope else h.notesIn scope := by
  induction notes generalizing h with
  | nil => simp
  | cons a notes ih =>
    rw [List.foldl_cons, ih]
    by_cases hscope : scope = h.inner
    · subst hscope
      simp [note, notesIn]
    · have hother : scope ≠ (h.note a).inner := hscope
      rw [if_neg hother, if_neg hscope, notesIn_note_of_ne h a (Ne.symm hscope)]

/-- Notes open and close no scopes. -/
theorem open_foldl_note (h : History α) (notes : List α) :
    (notes.foldl note h).inner = h.inner ∧ (notes.foldl note h).outer = h.outer := by
  induction notes generalizing h with
  | nil => simp
  | cons a notes ih => simpa [note] using ih (h.note a)

/-- The outermost of the open scopes stays the outermost one when a scope is closed. -/
theorem getLast?_leave (h : History α) :
    (h.leave.inner :: h.leave.outer).getLast? = (h.inner :: h.outer).getLast? := by
  cases houter : h.outer with
  | nil => rw [leave_of_nil houter, houter]
  | cons inner outer =>
    obtain ⟨hinner, houter', -⟩ := leave_of_cons houter
    rw [hinner, houter', List.getLast?_cons_cons]

variable {h : History (String × String)} {key uri : String}

/-- All that an operation does to the notes: what it binds is noted in the scope that is the
innermost one behind it. -/
theorem notesIn_after (h : History (String × String)) (operation : Scopes.Operation) (scope : Nat) :
    (h.after operation).notesIn scope =
      if scope = (h.after operation).inner then operation.bindings.reverse ++ h.notesIn scope
      else h.notesIn scope := by
  cases operation with
  | enter declarations =>
    have hopen := (open_foldl_note h.enter declarations).1
    simp only [after, hopen]
    exact notesIn_foldl_note h.enter declarations scope
  | bind p uri => exact notesIn_foldl_note h [(p, uri)] scope
  | leave =>
    rw [Scopes.Operation.bindings, List.reverse_nil, List.nil_append, ite_self]
    exact notesIn_leave h scope

/-- The outermost scope stays the same behind an operation. -/
theorem getLast?_after (h : History (String × String)) (operation : Scopes.Operation) :
    ((h.after operation).inner :: (h.after operation).outer).getLast? =
      (h.inner :: h.outer).getLast? := by
  cases operation with
  | enter declarations =>
    obtain ⟨hinner, houter⟩ := open_foldl_note h.enter declarations
    simp only [after, hinner, houter]
    exact List.getLast?_cons_cons
  | bind p uri => rfl
  | leave => exact getLast?_leave h

/-! ## What is bound in the outermost scope -/

/-- The outermost scope is open, and there is a note for a key in it. -/
structure Rooted (h : History (String × String)) (key : String) : Prop where
  outermost : (h.inner :: h.outer).getLast? = some 0
  noted : ∃ uri, (h.notesIn 0).lookup key = some uri

/-- The last note for a key in any scope has this address. -/
def Only (h : History (String × String)) (key uri : String) : Prop :=
  ∀ scope, ∀ other ∈ (h.notesIn scope).lookup key, other = uri

/-- In the beginning there is a note for `xml` in the outermost scope. -/
theorem rooted_document : document.Rooted "xml" := ⟨rfl, Scopes.xmlNamespace, rfl⟩

/-- In the beginning the only note for `xml` is that of its namespace. -/
theorem only_document : document.Only "xml" Scopes.xmlNamespace := by
  intro scope other hother
  by_cases hscope : scope = 0
  · subst hscope
    exact (Option.some.inj hother).symm
  · have hnone : document.notesIn scope = [] := start.notesIn_note_of_ne _ (Ne.symm hscope)
    rw [hnone] at hother
    cases hother

/-- A note in the outermost scope is still there behind an operation. -/
theorem Rooted.after (hroot : h.Rooted key) (operation : Scopes.Operation) :
    (h.after operation).Rooted key where
  outermost := (getLast?_after h operation).trans hroot.outermost
  noted := by
    obtain ⟨uri, hnoted⟩ := hroot.noted
    rw [notesIn_after]
    split
    · rw [List.lookup_append, hnoted]
      cases operation.bindings.reverse.lookup key with
      | none => exact ⟨uri, rfl⟩
      | some other => exact ⟨other, rfl⟩
    · exact ⟨uri, hnoted⟩

/-- The last note for a key stays the same behind an operation that keeps it. -/
theorem Only.after (honly : h.Only key uri) {operation : Scopes.Operation}
    (hkeeps : operation.Keeps key uri) : (h.after operation).Only key uri := by
  intro scope other hother
  rw [notesIn_after] at hother
  split at hother
  · rw [List.lookup_append] at hother
    cases hbound : operation.bindings.reverse.lookup key with
    | none =>
      rw [hbound, Option.none_or] at hother
      exact honly scope other hother
    | some bound =>
      rw [hbound, Option.some_or] at hother
      exact hkeeps other (hbound.trans hother)
  · exact honly scope other hother

/-- A note in the outermost scope is still there behind some operations. -/
theorem Rooted.run (hroot : h.Rooted key) (operations : List Scopes.Operation) :
    (h.run operations).Rooted key := by
  induction operations generalizing h with
  | nil => exact hroot
  | cons operation operations ih => exact ih (hroot.after operation)

/-- The last note for a key stays the same behind operations that keep it. -/
theorem Only.run (honly : h.Only key uri) {operations : List Scopes.Operation}
    (hkeeps : ∀ operation ∈ operations, operation.Keeps key uri) :
    (h.run operations).Only key uri := by
  induction operations generalizing h with
  | nil => exact honly
  | cons operation operations ih =>
    obtain ⟨hfirst, hrest⟩ := List.forall_mem_cons.mp hkeeps
    exact ih (honly.after hfirst) hrest

/-- What is noted in the outermost scope is always found. -/
theorem Rooted.exists_latest (hroot : h.Rooted key) : ∃ uri, h.Latest key uri := by
  obtain ⟨uri, hnoted⟩ := hroot.noted
  have hopen : 0 ∈ h.inner :: h.outer := List.mem_of_getLast? hroot.outermost
  simp only [latest_iff]
  rw [← Option.ne_none_iff_exists', Ne, List.findSome?_eq_none_iff]
  intro hnone
  rw [hnone 0 hopen] at hnoted
  cases hnoted

/-- The latest note has the only address there is. -/
theorem Only.eq_of_latest (honly : h.Only key uri) {other : String} (hlatest : h.Latest key other) :
    other = uri := by
  rw [latest_iff] at hlatest
  obtain ⟨scope, -, hscope⟩ := List.exists_of_findSome?_eq_some hlatest
  exact honly scope other hscope

/-- What an operation binds last is what is latest behind it. -/
theorem latest_after {operation : Scopes.Operation}
    (hbound : operation.bindings.reverse.lookup key = some uri) :
    (h.after operation).Latest key uri := by
  rw [latest_iff, List.findSome?_cons, notesIn_after, if_pos rfl, List.lookup_append, hbound]
  rfl

end History

namespace Scopes

open History

/-- Whatever is done to the scopes of a document, `xml` stands for something. -/
theorem exists_resolve_xml (operations : List Operation) :
    ∃ uri, (document.run operations).resolve "xml" = some uri := by
  obtain ⟨uri, hlatest⟩ := (rooted_document.run operations).exists_latest
  exact ⟨uri, ((recalls_document.run operations).resolve_eq_some_iff "xml" uri).mpr hlatest⟩

/-- Behind operations that do not bind `xml` otherwise it stands for its namespace. -/
theorem resolve_xml_of_keeps {operations : List Operation}
    (hkeeps : ∀ operation ∈ operations, operation.Keeps "xml" xmlNamespace) :
    (document.run operations).resolve "xml" = some xmlNamespace := by
  obtain ⟨uri, hlatest⟩ := (rooted_document.run operations).exists_latest
  obtain rfl := (only_document.run hkeeps).eq_of_latest hlatest
  exact ((recalls_document.run operations).resolve_eq_some_iff "xml" _).mpr hlatest

/-- An operation decides what an abbreviation that it binds stands for behind it. -/
theorem resolve_of_bound (operations : List Operation) {operation : Operation} {p uri : String}
    (hbound : operation.bindings.reverse.lookup p = some uri) :
    (document.run (operations ++ [operation])).resolve p = some uri := by
  have hrecalls := recalls_document.run (operations ++ [operation])
  rw [hrecalls.resolve_eq_some_iff, History.run, List.foldl_append]
  exact latest_after hbound

/-- A name with an abbreviation that is bound is in the namespace the abbreviation stands for. -/
theorem attributeName_of_resolve {s : Scopes} {p uri : String} (hp : ':' ∉ p.toList)
    (h : s.resolve p = some uri) (rest : String) :
    s.attributeName (p ++ ":" ++ rest) = ⟨uri, rest⟩ := by
  simp only [attributeName, Name.split_of_colon hp, expand, h]

end Scopes

namespace Element

/-- The scopes around an element are those of a document in which the elements around it have been
entered. -/
theorem Encloses.exists_run {root x : Element} {outer : Scopes} (h : root.Encloses outer x) :
    ∃ around : List Element,
      outer = Scopes.document.run (around.map fun y => .enter y.heading.declarations.entries) ∧
        x ∈ root.all ∧ ∀ y ∈ around, y ∈ root.all ∧ x ∈ y.all := by
  induction h with
  | root => exact ⟨[], rfl, root.self_mem_all, by simp⟩
  | @child outer parent x hparent hchild ih =>
    obtain ⟨around, rfl, hroot, haround⟩ := ih
    have hinside : x ∈ parent.all := child_mem_all hchild
    refine ⟨around ++ [parent], ?_, mem_all_trans hroot hinside, ?_⟩
    · simp [Scopes.run, scopesInside, Scopes.after]
    · rw [List.forall_mem_append]
      refine ⟨fun y hy => ?_, by simpa using ⟨hroot, hinside⟩⟩
      exact ⟨(haround y hy).1, mem_all_trans (haround y hy).2 hinside⟩

/-- Inside an element `xml` stands for the namespace it has from the start, if no element around it
and not the element itself declares it otherwise. -/
theorem Encloses.resolve_xml {root x : Element} {outer : Scopes} (h : root.Encloses outer x)
    (hkept : ∀ y ∈ root.all, x ∈ y.all →
      ∀ uri ∈ y.heading.declarations.get? "xml", uri = Scopes.xmlNamespace) :
    (x.scopesInside outer).resolve "xml" = some Scopes.xmlNamespace := by
  obtain ⟨around, rfl, hx, haround⟩ := h.exists_run
  have hentered : x.scopesInside (Scopes.document.run
      (around.map fun y => .enter y.heading.declarations.entries)) = Scopes.document.run
        ((around ++ [x]).map fun y => .enter y.heading.declarations.entries) := by
    simp [Scopes.run, scopesInside, Scopes.after]
  rw [hentered]
  apply Scopes.resolve_xml_of_keeps
  rw [List.forall_mem_map]
  intro y hy uri huri
  have henclosing : y ∈ root.all ∧ x ∈ y.all := by
    rcases List.mem_append.mp hy with hy | hy
    · exact haround y hy
    · rw [List.mem_singleton.mp hy]
      exact ⟨hx, x.self_mem_all⟩
  apply hkept y henclosing.1 henclosing.2
  obtain ⟨before, behind, hentries, -⟩ := List.lookup_eq_some_iff.mp huri
  have hmem : ("xml", uri) ∈ y.heading.declarations.entries.reverse := by
    have hbindings : y.heading.declarations.entries.reverse = before ++ ("xml", uri) :: behind :=
      hentries
    simp [hbindings]
  exact (Dictionary.mem_entries_iff _ _ _).mp (List.mem_reverse.mp hmem)

end Element

/-- Whatever is done to the scopes of a document, `xml` stands for something in them. It stands for
the namespace it has from the start at all times exactly if every operation that binds it binds it
to that namespace. An attribute of a document that is written with `xml` is in that namespace if no
element around it declares `xml` otherwise. -/
theorem xml_lasts_iff (operations : List Scopes.Operation) {source : String} {d : Document}
    (h : Document.parse source = .ok d) :
    (∃ uri, (Scopes.document.run operations).resolve "xml" = some uri) ∧
      ((∀ earlier, earlier <+: operations →
          (Scopes.document.run earlier).resolve "xml" = some Scopes.xmlNamespace) ↔
        ∀ operation ∈ operations, operation.Keeps "xml" Scopes.xmlNamespace) ∧
      ∀ x ∈ d.elements,
        (∀ y ∈ d.elements, x ∈ y.all →
          ∀ uri ∈ y.heading.declarations.get? "xml", uri = Scopes.xmlNamespace) →
        ∀ e ∈ x.attributes.entries, ∀ rest, e.2.name = "xml" ++ ":" ++ rest →
          e.2.expanded = ⟨Scopes.xmlNamespace, rest⟩ := by
  refine ⟨Scopes.exists_resolve_xml operations, ⟨fun hlasts => ?_, fun hkeeps => ?_⟩, ?_⟩
  · intro operation hmem uri hbound
    obtain ⟨earlier, later, rfl⟩ := List.append_of_mem hmem
    have hprefix : earlier ++ [operation] <+: earlier ++ operation :: later := ⟨later, by simp⟩
    have hlast := hlasts _ hprefix
    rw [Scopes.resolve_of_bound earlier hbound] at hlast
    exact Option.some.inj hlast
  · intro earlier hearlier
    exact Scopes.resolve_xml_of_keeps fun operation hmem => hkeeps operation (hearlier.subset hmem)
  · intro x hx hkept e he rest hname
    obtain ⟨outer, hencloses, hregular⟩ := (elements_are_regular h).2 x hx
    simp only [Document.elements_eq] at hkept
    rw [(hregular.attributes e he).2.1, hname]
    exact Scopes.attributeName_of_resolve (by decide) (hencloses.resolve_xml hkept) rest

/-- An element may declare `xml` like any other abbreviation, and the attributes that are written
with it are in another namespace then. -/
theorem xml_bound_otherwise :
    (Scopes.document.run [.enter [("xml", "u")]]).resolve "xml" = some "u" ∧
      (Scopes.document.run [.enter [("xml", "u")]]).attributeName "xml:lang" = ⟨"u", "lang"⟩ ∧
      ¬ ∀ operations, (Scopes.document.run operations).resolve "xml" = some Scopes.xmlNamespace := by
  have hbound : (Scopes.document.run [.enter [("xml", "u")]]).resolve "xml" = some "u" := by decide
  refine ⟨hbound, by decide, fun hall => ?_⟩
  have hkept := hall [.enter [("xml", "u")]]
  rw [hbound] at hkept
  exact absurd hkept (by decide)

/-- A list with two items that name their language. The second one declares `xml` otherwise. -/
def languageText : String :=
  "<r xml:base='a'><i xml:lang='b'/><i xmlns:xml='u' xml:lang='c'/></r>"

/-- The item that keeps `xml`. -/
def plainLanguageItem : Element :=
  .mk ⟨"i", .bare "i", ⟨[⟨"r", 1⟩, ⟨"i", 1⟩]⟩, .single 1, .empty,
    .ofList [(⟨Scopes.xmlNamespace, "lang"⟩,
      ⟨"xml:lang", ⟨Scopes.xmlNamespace, "lang"⟩, "b"⟩)]⟩ []

/-- The document of that text. -/
def languageItems : Document :=
  ⟨[], .mk ⟨"r", .bare "r", ⟨[⟨"r", 1⟩]⟩, .single 1, .empty,
      .ofList [(⟨Scopes.xmlNamespace, "base"⟩,
        ⟨"xml:base", ⟨Scopes.xmlNamespace, "base"⟩, "a"⟩)]⟩
    [.element plainLanguageItem,
      .element (.mk ⟨"i", .bare "i", ⟨[⟨"r", 1⟩, ⟨"i", 2⟩]⟩, .single 1, .ofList [("xml", "u")],
        .ofList [(⟨"u", "lang"⟩, ⟨"xml:lang", ⟨"u", "lang"⟩, "c"⟩)]⟩ [])], []⟩

/-- No declaration of `xml` around the first item binds it otherwise, so its attributes that are
written with it are in the namespace from the start. -/
theorem xml_lasts_in_first_item :
    Document.parse languageText = .ok languageItems ∧
      plainLanguageItem ∈ languageItems.elements ∧
      (∀ y ∈ languageItems.elements, plainLanguageItem ∈ y.all →
        ∀ uri ∈ y.heading.declarations.get? "xml", uri = Scopes.xmlNamespace) ∧
      (∃ uri, (Scopes.document.run [.enter [("xml", "u")], .leave, .leave]).resolve "xml" =
        some uri) ∧
      ∀ e ∈ plainLanguageItem.attributes.entries, ∀ rest, e.2.name = "xml" ++ ":" ++ rest →
        e.2.expanded = ⟨Scopes.xmlNamespace, rest⟩ := by
  have hparse : Document.parse languageText = .ok languageItems := by decide +kernel
  have hmem : plainLanguageItem ∈ languageItems.elements := by
    rw [Document.elements_eq]
    exact List.mem_cons_of_mem _ List.mem_cons_self
  have hkept : ∀ y ∈ languageItems.elements, plainLanguageItem ∈ y.all →
      ∀ uri ∈ y.heading.declarations.get? "xml", uri = Scopes.xmlNamespace := by
    rw [Document.elements_eq]
    intro y hy hinside uri huri
    have hlisted : y ∈ [languageItems.root, plainLanguageItem, _] := hy
    simp only [List.mem_cons, List.not_mem_nil, or_false] at hlisted
    rcases hlisted with rfl | rfl | rfl
    · cases huri
    · cases huri
    · have hpath := congrArg Element.path (List.mem_singleton.mp hinside)
      exact absurd hpath (by decide)
  obtain ⟨hbound, -, hattributes⟩ :=
    xml_lasts_iff [.enter [("xml", "u")], .leave, .leave] hparse
  exact ⟨hparse, hmem, hkept, hbound, hattributes plainLanguageItem hmem hkept⟩

end XmlCompare
