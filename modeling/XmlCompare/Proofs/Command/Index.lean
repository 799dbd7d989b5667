import XmlCompare.Command.Run
import XmlCompare.Proofs.Document.Ordinals
import XmlCompare.Proofs.Path.Reading
import XmlCompare.Proofs.Report.Deletion

/-!
# Printed addresses

The index command prints every element of a text with its path, and looks up the element at a path
that it is given. What it prints can be given back to it where the names in a path are legible: the
text form of a path escapes nothing, and of every name that is read only the local part is kept.
-/

set_option autoImplicit false

namespace XmlCompare

/-- What the command prints when it finds an element. -/
theorem Command.runIndex_of_lookup {text path : String} {index : PositionIndex} {lines : LineRange}
    (hbuild : PositionIndex.build text = .ok index) (h : index.lookup path = some lines) :
    runIndex text (some path) = .printed 0 (printLines [path ++ "\t" ++ lines.text]) := by
  simp only [runIndex, hbuild, h]

/-- For all texts that are documents: the index command prints the elements one to a line, each with
its path and its lines; and where the names of an element and of the elements around it are legible,
the printed path leads back to the element: looking it up gives the lines of the element, and the
command prints the same line when it is given the path. (That the text has fewer bytes than there
are numbers of sixty-four bits is the case for every text that can be held; it keeps the ordinals
among those that can be read.) -/
theorem printed_addresses_are_found (text : String) (d : Document)
    (hsize : Text.byteSize text.toList < Text.wordLimit) (hparse : Document.parse text = .ok d) :
    ∃ index, PositionIndex.build text = .ok index ∧
      Command.runIndex text none = .printed 0 (Command.printLines (index.sorted.map fun entry =>
        entry.1.text ++ "\t" ++ entry.2.text)) ∧
      index.sorted.Perm (d.elements.map fun e => (e.path, e.lines)) ∧
      ∀ e ∈ d.elements, (∀ s ∈ e.path.steps, Name.Legible s.name) →
        index.lookup e.path.text = some e.lines ∧
        Command.runIndex text (some e.path.text) =
          .printed 0 (Command.printLines [e.path.text ++ "\t" ++ e.lines.text]) := by
  obtain ⟨-, -, index, hbuild, hperm⟩ := Document.index_of_parse hparse
  rw [← Document.elements_eq] at hperm
  refine ⟨index, hbuild, ?_, (List.mergeSort_perm _ _).trans hperm, fun e he hlegible => ?_⟩
  · simp only [Command.runIndex, hbuild]
  · have hread : Path.parse e.path.text = .ok e.path := by
      refine Path.parse_text_of_legible fun s hs => ?_
      obtain ⟨hpos, hle⟩ := Document.ordinal_le_byteSize hparse he hs
      exact ⟨hpos, Nat.lt_of_le_of_lt hle hsize, hlegible s hs⟩
    have hlookup : index.lookup e.path.text = some e.lines := by
      rw [PositionIndex.lookup, hread]
      exact PositionIndex.get?_of_perm hperm he
    exact ⟨hlookup, Command.runIndex_of_lookup hbuild hlookup⟩

/-- An abbreviation in the names of a list, of an item and of what is inside it. -/
def abbreviatedList : Element :=
  .mk ⟨"x:r", .bare "r", ⟨[⟨"r", 1⟩]⟩, .between 1 3, .empty, .empty⟩
    [.element (.mk ⟨"a", .bare "a", ⟨[⟨"r", 1⟩, ⟨"a", 1⟩]⟩, .between 2 2, .empty, .empty⟩ []),
     .element (.mk ⟨"x:a", .bare "a", ⟨[⟨"r", 1⟩, ⟨"a", 2⟩]⟩, .between 2 3, .empty, .empty⟩
       [.element (.mk ⟨"y:b", .bare "b", ⟨[⟨"r", 1⟩, ⟨"a", 2⟩, ⟨"b", 1⟩]⟩, .between 3 3, .empty,
         .empty⟩ [])])]

/-- Every path that is printed of the list leads back. -/
theorem addresses_of_abbreviated_list :
    Text.byteSize "<x:r>\n<a/><x:a>\n<y:b/></x:a></x:r>".toList < Text.wordLimit ∧
    Document.parse "<x:r>\n<a/><x:a>\n<y:b/></x:a></x:r>" = .ok ⟨[], abbreviatedList, []⟩ ∧
    ∃ index, PositionIndex.build "<x:r>\n<a/><x:a>\n<y:b/></x:a></x:r>" = .ok index ∧
      ∀ e ∈ abbreviatedList.all, index.lookup e.path.text = some e.lines := by
  have hsize : Text.byteSize "<x:r>\n<a/><x:a>\n<y:b/></x:a></x:r>".toList < Text.wordLimit := by
    decide
  have hparse : Document.parse "<x:r>\n<a/><x:a>\n<y:b/></x:a></x:r>" =
      .ok ⟨[], abbreviatedList, []⟩ := by decide
  have hlegible : ∀ e ∈ abbreviatedList.all, ∀ s ∈ e.path.steps, Name.Legible s.name := by
    decide
  obtain ⟨index, hbuild, -, -, hfound⟩ := printed_addresses_are_found _ _ hsize hparse
  rw [Document.elements_eq] at hfound
  exact ⟨hsize, hparse, index, hbuild, fun e he => (hfound e he (hlegible e he)).1⟩

/-- A text with an element whose printed path does not lead back to its lines. -/
def HasLostAddress (text : String) : Prop :=
  ∃ d index, Document.parse text = .ok d ∧ PositionIndex.build text = .ok index ∧
    ∃ e ∈ d.elements, index.lookup e.path.text ≠ some e.lines

/-- An address is lost if looking it up in the index of the text comes to something else. -/
theorem hasLostAddress_of_lookup {text : String} {d : Document}
    (hparse : Document.parse text = .ok d) {e : Element} (he : e ∈ d.root.all)
    (hlookup : (PositionIndex.build text).toOption.bind (·.lookup e.path.text) ≠ some e.lines) :
    HasLostAddress text := by
  obtain ⟨-, -, index, hbuild, -⟩ := Document.index_of_parse hparse
  rw [hbuild] at hlookup
  exact ⟨d, index, hparse, hbuild, e, by rwa [Document.elements_eq], hlookup⟩

/-- An element that stands alone. -/
def loneElement (name : String) : Element :=
  .mk ⟨name, .bare (Name.localPart name), ⟨[⟨Name.localPart name, 1⟩]⟩, .between 1 1, .empty, .empty⟩
    []

/-- A list of two items, the second on a line of its own. The path of the first is read as that of
the second. -/
def lookalikeItems : Element :=
  plainList 2
    [.mk ⟨"a:b:c", .bare "b:c", ⟨[⟨"r", 1⟩, ⟨"b:c", 1⟩]⟩, .between 1 1, .empty, .empty⟩ [],
     plainItem "c" 1 2 2]

/-- A local name that is empty is no step of a path, a slash or a bracket in a name cuts it, and a
second colon in a name lets the path lead to another element. -/
theorem illegible_addresses_are_lost :
    HasLostAddress "<a:/>" ∧ HasLostAddress "<a/b/>" ∧ HasLostAddress "<a[b/>" ∧
      HasLostAddress "<r><a:b:c/>\n<c/></r>" := by
  have hempty : Document.parse "<a:/>" = .ok ⟨[], loneElement "a:", []⟩ := by decide
  have hslash : Document.parse "<a/b/>" = .ok ⟨[], loneElement "a/b", []⟩ := by decide
  have hbracket : Document.parse "<a[b/>" = .ok ⟨[], loneElement "a[b", []⟩ := by decide
  have hcolons : Document.parse "<r><a:b:c/>\n<c/></r>" = .ok ⟨[], lookalikeItems, []⟩ := by
    decide
  refine ⟨hasLostAddress_of_lookup hempty List.mem_cons_self ?_,
    hasLostAddress_of_lookup hslash List.mem_cons_self ?_,
    hasLostAddress_of_lookup hbracket List.mem_cons_self ?_,
    hasLostAddress_of_lookup hcolons (List.mem_cons_of_mem _ List.mem_cons_self) ?_⟩
  · decide
  · decide
  · decide
  · decide

end XmlCompare
