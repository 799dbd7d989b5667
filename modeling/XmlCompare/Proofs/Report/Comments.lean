import XmlCompare.Proofs.Compare.Locality
import XmlCompare.Proofs.Document.Comments
import XmlCompare.Proofs.Document.Excision
import XmlCompare.Proofs.Report.Projection

/-!
# Texts that differ in comments

If two texts have the same events once the comments are taken out, and in neither of them a comment
cuts blanks off that keep words apart, no difference is found between them. Blanks that stand alone
between two comments are not kept, so words on both sides of them grow together.
-/

set_option autoImplicit false

namespace XmlCompare

open Text (Steady)

/-- Texts with the same events but for comments are the same, if comments cut no blanks off that
keep words apart. -/
theorem same_of_plain {control test : String} {events events' : List Event}
    (hcontrol : (Event.readAll control).toExcept = .ok events)
    (htest : (Event.readAll test).toExcept = .ok events')
    (hplain : List.Forall₂ Event.Aligned (Event.plain events) (Event.plain events'))
    (hsteady : ∀ pieces ∈ Event.stretches events, Steady pieces)
    (hsteady' : ∀ pieces ∈ Event.stretches events', Steady pieces) :
    compareTexts Selector.standard control test = .same ∧ verify control test = .valid := by
  obtain ⟨s, hrun, hframes, hroot, -⟩ := Event.run_of_readAll hcontrol
  obtain ⟨s', hrun', hframes', hroot', -⟩ := Event.run_of_readAll htest
  obtain ⟨c, hc, -⟩ := Document.exists_of_run hrun hframes hroot
  obtain ⟨t, ht, -⟩ := Document.exists_of_run hrun' hframes' hroot'
  have hgrown := Growth.akin_initial.steps Growth.settled_initial Growth.settled_initial hplain
    hsteady hsteady'
  have hroots := hgrown.root
  rw [Document.root_of_events hc, Document.root_of_events ht] at hroots
  cases hroots with
  | some hagree =>
    exact valid_of_no_differences (Document.parse_eq_ok_iff.mpr ⟨events, hcontrol, hc⟩)
      (Document.parse_eq_ok_iff.mpr ⟨events', htest, ht⟩) (Element.differences_of_agree hagree _)

/-- The opening of the root of a text, on the first line. -/
def rootOpened : Event := .opened ⟨"r", [], ⟨[⟨"r", 1⟩]⟩, 1⟩

/-- The closing of the root of a text, which ends on some line. -/
def rootClosed (last : Nat) : Event := .closed ⟨⟨[⟨"r", 1⟩]⟩, .between 1 last⟩

/-- A comment on a line of its own makes no difference. -/
theorem same_of_comment_line :
    (Event.readAll "<r>\n <!-- c -->\n a</r>").toExcept =
      .ok [rootOpened, .text "\n ", .comment " c ", .text "\n a", rootClosed 3] ∧
    (Event.readAll "<r>\n \n a</r>").toExcept = .ok [rootOpened, .text "\n \n a", rootClosed 3] ∧
    compareTexts Selector.standard "<r>\n <!-- c -->\n a</r>" "<r>\n \n a</r>" = .same ∧
    verify "<r>\n <!-- c -->\n a</r>" "<r>\n \n a</r>" = .valid := by
  have hcontrol : (Event.readAll "<r>\n <!-- c -->\n a</r>").toExcept =
      .ok [rootOpened, .text "\n ", .comment " c ", .text "\n a", rootClosed 3] := by decide
  have htest : (Event.readAll "<r>\n \n a</r>").toExcept =
      .ok [rootOpened, .text "\n \n a", rootClosed 3] := by decide
  have hplain : List.Forall₂ Event.Aligned
      (Event.plain [rootOpened, .text "\n ", .comment " c ", .text "\n a", rootClosed 3])
      (Event.plain [rootOpened, .text "\n \n a", rootClosed 3]) := by
    have hjoined : Event.plain
        [rootOpened, .text "\n ", .comment " c ", .text "\n a", rootClosed 3] =
          [rootOpened, .text "\n \n a", rootClosed 3] := by decide
    rw [hjoined]
    exact .cons (.opened rfl rfl rfl) (.cons .text (.cons (.closed rfl) .nil))
  have hsteady : ∀ pieces ∈ Event.stretches
      [rootOpened, .text "\n ", .comment " c ", .text "\n a", rootClosed 3], Steady pieces := by
    have hcut : Event.stretches
        [rootOpened, .text "\n ", .comment " c ", .text "\n a", rootClosed 3] =
          [[[]], [['\n', ' '], ['\n', ' ', 'a']], [[]]] := by decide
    have hindented : Steady [['\n', ' '], ['\n', ' ', 'a']] :=
      (Text.steady_singleton _).cons_blank (List.all_eq_true.mp rfl) rfl rfl
    rw [hcut]
    simp [Text.steady_singleton, hindented]
  have hsteady' : ∀ pieces ∈ Event.stretches [rootOpened, .text "\n \n a", rootClosed 3],
      Steady pieces := by
    have hcut : Event.stretches [rootOpened, .text "\n \n a", rootClosed 3] =
        [[[]], [['\n', ' ', '\n', ' ', 'a']], [[]]] := by decide
    rw [hcut]
    simp [Text.steady_singleton]
  exact ⟨hcontrol, htest, same_of_plain hcontrol htest hplain hsteady hsteady'⟩

/-- A root with a word at both ends, between which nothing is left but comments. -/
def cutWords : Element :=
  .mk ⟨"r", .bare "r", ⟨[⟨"r", 1⟩]⟩, .between 1 1, .empty, .empty⟩
    [.text "a", .comment "", .comment "", .text "b"]

/-- A root with two words. -/
def spacedWords : Element :=
  .mk ⟨"r", .bare "r", ⟨[⟨"r", 1⟩]⟩, .between 1 1, .empty, .empty⟩ [.text "a b"]

/-- Words grow together where comments stand on both sides of the space between them. -/
theorem different_of_cut_space : ¬ ∀ (control test : String) (events events' : List Event),
    (Event.readAll control).toExcept = .ok events → (Event.readAll test).toExcept = .ok events' →
      Event.plain events = Event.plain events' →
        compareTexts Selector.standard control test = .same := by
  intro h
  have hcontrol : (Event.readAll "<r>a<!----> <!---->b</r>").toExcept =
      .ok [rootOpened, .text "a", .comment "", .text " ", .comment "", .text "b", rootClosed 1] := by
    decide
  have htest : (Event.readAll "<r>a b</r>").toExcept =
      .ok [rootOpened, .text "a b", rootClosed 1] := by decide
  have hplain : Event.plain
      [rootOpened, .text "a", .comment "", .text " ", .comment "", .text "b", rootClosed 1] =
        Event.plain [rootOpened, .text "a b", rootClosed 1] := by decide
  have hc : Document.parse "<r>a<!----> <!---->b</r>" = .ok ⟨[], cutWords, []⟩ := by decide
  have ht : Document.parse "<r>a b</r>" = .ok ⟨[], spacedWords, []⟩ := by decide
  have hdifferences : (Document.mk [] cutWords []).differences Selector.standard
      ⟨[], spacedWords, []⟩ =
        [⟨.textValue, some "ab", some "a b", ⟨[⟨"r", 1⟩]⟩, "#document", "r"⟩] := by decide
  have hsame := h _ _ _ _ hcontrol htest hplain
  rw [compareTexts_of_parse hc ht, hdifferences] at hsame
  cases hsame

end XmlCompare
