import Mathlib.Logic.Equiv.Basic
import XmlCompare.Proofs.Compare.Locality
import XmlCompare.Proofs.Document.Excision
import XmlCompare.Proofs.Document.Renaming
import XmlCompare.Proofs.Report.Projection

/-!
# Texts with renamed abbreviations

Texts whose events are the same but for a renaming of abbreviations are the same, whichever of them
is the control text.
-/

set_option autoImplicit false

namespace XmlCompare

open Name (Renaming)

namespace Element

variable {r : Renaming} {a b : Element}

/-- A renamed element keeps the local part of its name. -/
theorem Renamed.sameLocalPart (h : a.Renamed r b) : a.SameLocalPart b := by
  rw [SameLocalPart, show b.name = r.name a.name from h.heading.name, r.localPart_name]

/-- Elements with renamed names are alike. -/
theorem Renamed.alike (h : a.Renamed r b) : a.Alike b := by
  refine ⟨h.heading.expanded.symm, fun name => ?_, h.text.symm⟩
  have hget := Dictionary.get?_of_map Function.injective_id h.heading.attributes name
  rw [show b.attributes.get? name = _ from hget, Option.map_map]
  rfl

end Element

/-- Texts whose events are the same but for renamed abbreviations are documents with the same paths
and the same expanded names, and no difference is found between them in either direction. -/
theorem same_of_renamed (r : Renaming) (control test : String) (events events' : List Event)
    (hcontrol : (Event.readAll control).toExcept = .ok events)
    (htest : (Event.readAll test).toExcept = .ok events')
    (hrenamed : List.Forall₂ (Event.Renamed r) events events') :
    ∃ c t, Document.parse control = .ok c ∧ Document.parse test = .ok t ∧
      c.root.InStep (fun x y => x.Renamed r y ∧ x.path = y.path) t.root ∧
      compareTexts Selector.standard control test = .same ∧
      compareTexts Selector.standard test control = .same := by
  obtain ⟨s, hrun, hframes, hroot, -⟩ := Event.run_of_readAll hcontrol
  obtain ⟨s', hrun', hframes', hroot', -⟩ := Event.run_of_readAll htest
  obtain ⟨c, hc, hplaced, -⟩ := Document.exists_of_run hrun hframes hroot
  obtain ⟨t, ht, hplaced', -⟩ := Document.exists_of_run hrun' hframes' hroot'
  have hparse := Document.parse_eq_ok_iff.mpr ⟨events, hcontrol, hc⟩
  have hparse' := Document.parse_eq_ok_iff.mpr ⟨events', htest, ht⟩
  have hgrown := (Growth.renamed_initial.steps hrenamed).root
  rw [Document.root_of_events hc, Document.root_of_events ht] at hgrown
  cases hgrown with
  | some hstep =>
    have hpath : c.root.path = t.root.path := by
      rw [hplaced.root, hplaced'.root, Path.child_inj]
      exact ⟨(Element.inStep_iff.mp hstep).1.sameLocalPart, rfl⟩
    have hagree : c.root.Agree t.root :=
      Element.agree_iff_inStep.mpr (hstep.imp fun _ _ hxy => hxy.alike)
    refine ⟨c, t, hparse, hparse', ?_, ?_, ?_⟩
    · exact hstep.and_paths (fun _ _ hxy => hxy.sameLocalPart) hplaced.inner hplaced'.inner hpath
    · exact (valid_of_no_differences hparse hparse' (Element.differences_of_agree hagree _)).1
    · exact (valid_of_no_differences hparse' hparse
        (Element.differences_of_agree hagree.symm _)).1

/-- The abbreviations `a` and `b` exchanged. -/
def exchanged : Renaming where
  toFun := Equiv.swap "a" "b"
  injective := (Equiv.swap "a" "b").injective
  colonFree p hp := by
    rw [Equiv.swap_apply_def]
    split_ifs
    · decide
    · decide
    · exact hp
  empty := by decide
  xml := by decide
  xmlns := by decide

/-- The events of a list with one item, whose names are abbreviated by `p` and `q`. The item binds
`p` to what `q` is bound to, so that its attributes have the same expanded name; it begins on some
line. -/
def abbreviated (p q : String) (line : Nat) : List Event :=
  [.opened ⟨p ++ ":r", [("xmlns:" ++ p, "u"), ("xmlns:" ++ q, "v")], ⟨[⟨"r", 1⟩]⟩, 1⟩,
    .opened ⟨q ++ ":i", [(p ++ ":k", "1"), (q ++ ":k", "2"), ("xmlns:" ++ p, "v")],
      ⟨[⟨"r", 1⟩, ⟨"i", 1⟩]⟩, line⟩,
    .closed ⟨⟨[⟨"r", 1⟩, ⟨"i", 1⟩]⟩, .single line⟩, .closed ⟨⟨[⟨"r", 1⟩]⟩, .between 1 line⟩]

/-- Two abbreviations are exchanged, one of which is bound again inside. -/
theorem same_of_exchanged :
    (Event.readAll
      "<a:r xmlns:a='u' xmlns:b='v'><b:i a:k='1' b:k='2' xmlns:a='v'/></a:r>").toExcept =
        .ok (abbreviated "a" "b" 1) ∧
    (Event.readAll
      "<b:r xmlns:b='u'\nxmlns:a='v'><a:i b:k='1' a:k='2' xmlns:b='v'/></b:r>").toExcept =
        .ok (abbreviated "b" "a" 2) ∧
    List.Forall₂ (Event.Renamed exchanged) (abbreviated "a" "b" 1) (abbreviated "b" "a" 2) ∧
    ∃ c t,
      Document.parse "<a:r xmlns:a='u' xmlns:b='v'><b:i a:k='1' b:k='2' xmlns:a='v'/></a:r>" =
        .ok c ∧
      Document.parse "<b:r xmlns:b='u'\nxmlns:a='v'><a:i b:k='1' a:k='2' xmlns:b='v'/></b:r>" =
        .ok t ∧
      c.root.InStep (fun x y => x.Renamed exchanged y ∧ x.path = y.path) t.root ∧
      compareTexts Selector.standard
        "<a:r xmlns:a='u' xmlns:b='v'><b:i a:k='1' b:k='2' xmlns:a='v'/></a:r>"
        "<b:r xmlns:b='u'\nxmlns:a='v'><a:i b:k='1' a:k='2' xmlns:b='v'/></b:r>" = .same ∧
      compareTexts Selector.standard
        "<b:r xmlns:b='u'\nxmlns:a='v'><a:i b:k='1' a:k='2' xmlns:b='v'/></b:r>"
        "<a:r xmlns:a='u' xmlns:b='v'><b:i a:k='1' b:k='2' xmlns:a='v'/></a:r>" = .same := by
  have hcontrol : (Event.readAll
      "<a:r xmlns:a='u' xmlns:b='v'><b:i a:k='1' b:k='2' xmlns:a='v'/></a:r>").toExcept =
        .ok (abbreviated "a" "b" 1) := by decide
  have htest : (Event.readAll
      "<b:r xmlns:b='u'\nxmlns:a='v'><a:i b:k='1' a:k='2' xmlns:b='v'/></b:r>").toExcept =
        .ok (abbreviated "b" "a" 2) := by decide
  have hrenamed : List.Forall₂ (Event.Renamed exchanged) (abbreviated "a" "b" 1)
      (abbreviated "b" "a" 2) :=
    .cons (.opened (by decide) (by decide))
      (.cons (.opened (by decide) (by decide)) (.cons .closed (.cons .closed .nil)))
  exact ⟨hcontrol, htest, hrenamed, same_of_renamed exchanged _ _ _ _ hcontrol htest hrenamed⟩

end XmlCompare
