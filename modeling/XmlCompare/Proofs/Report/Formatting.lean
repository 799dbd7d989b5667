import XmlCompare.Proofs.Compare.Locality
import XmlCompare.Proofs.Compare.Spacing
import XmlCompare.Proofs.Document.Formatting
import XmlCompare.Proofs.Report.Projection

/-!
# A text and what it is formatted to

Formatting moves texts to lines of their own, and a comparison looks at the words of all the texts
in an element. So a text is the same as what it is formatted to unless two texts meet without a
blank, with only a child or a comment between them: there formatting makes two words of one.
-/

set_option autoImplicit false

namespace XmlCompare

open Element (InStep Reprinted)

/-- A document is the same to a comparison as what it is when it is printed and read again, if no
texts run together in it, and only then. -/
theorem Document.same_iff_spaced {control test : String} {c t : Document}
    (hcontrol : parse control = .ok c) (htest : parse test = .ok t)
    (h : c.root.InStep Reprinted t.root) :
    compareTexts Selector.standard control test = .same ↔ ∀ e ∈ c.elements, e.Spaced := by
  rw [elements_eq]
  constructor
  · intro hsame
    obtain ⟨c', t', hc, ht, hsimilar⟩ := similar_of_compareTexts_same Selector.standard control test
      (isBlankText_of_parse hcontrol) (isBlankText_of_parse htest) hsame
    obtain rfl := Except.ok.inj (hcontrol.symm.trans hc)
    obtain rfl := Except.ok.inj (htest.symm.trans ht)
    exact h.spaced_of_similar hsimilar
  · intro hspaced
    have hnone : c.differences Selector.standard t = [] :=
      Element.differences_of_agree (h.agree_of_spaced hspaced) Element.documentTag
    exact (valid_of_no_differences hcontrol htest hnone).1

/-- A text with plain names can be formatted, and what comes of it is the same to a comparison
exactly if the texts directly inside any element have the same words when they are put together as
they have one by one. -/
theorem compareTexts_format (source : String) (d : Document) (o : PrintOptions)
    (hparse : Document.parse source = .ok d) (hplain : d.PlainNames) :
    ∃ printed, Document.format o source = .ok printed ∧
      (compareTexts Selector.standard source printed = .same ↔ ∀ e ∈ d.elements, e.Spaced) := by
  obtain ⟨d', hparse', -, -, hreprinted⟩ := Document.exists_parse_print hparse hplain o
  exact ⟨_, Document.format_of_parse hparse o, Document.same_iff_spaced hparse hparse' hreprinted⟩

/-- A blank keeps the two texts in a list apart, so the list is the same when it is formatted. -/
theorem compareTexts_format_of_mixedList :
    Document.parse "<!--c--><r k='&lt;' xmlns:p='u'>a<!--d--><p:i/> b\n</r>" =
        .ok Document.mixedList ∧
      Document.mixedList.PlainNames ∧ (∀ e ∈ Document.mixedList.elements, e.Spaced) ∧
      ∃ printed, Document.format ⟨2, true, true⟩
          "<!--c--><r k='&lt;' xmlns:p='u'>a<!--d--><p:i/> b\n</r>" = .ok printed ∧
        compareTexts Selector.standard "<!--c--><r k='&lt;' xmlns:p='u'>a<!--d--><p:i/> b\n</r>"
          printed = .same := by
  have hparse : Document.parse "<!--c--><r k='&lt;' xmlns:p='u'>a<!--d--><p:i/> b\n</r>" =
      .ok Document.mixedList := by
    decide
  have hplain : Document.mixedList.PlainNames := by decide
  have hspaced : ∀ e ∈ Document.mixedList.elements, e.Spaced := by
    rw [Document.elements_eq]
    decide
  obtain ⟨printed, hformat, hsame⟩ := compareTexts_format _ _ ⟨2, true, true⟩ hparse hplain
  exact ⟨hparse, hplain, hspaced, printed, hformat, hsame.mpr hspaced⟩

/-- A word with another one set in it. -/
def boldWord : Document :=
  ⟨[], .mk ⟨"p", .bare "p", ⟨[⟨"p", 1⟩]⟩, .single 1, .empty, .empty⟩
    [.text "one", .element (.mk ⟨"b", .bare "b", ⟨[⟨"p", 1⟩, ⟨"b", 1⟩]⟩, .single 1, .empty, .empty⟩
      [.text "two"]), .text "three"], []⟩

/-- Formatting makes two words of the one around an element in bold. -/
theorem different_of_boldWord :
    ¬ ∀ (source : String) (d : Document) (o : PrintOptions),
      Document.parse source = .ok d → d.PlainNames → ∃ printed,
        Document.format o source = .ok printed ∧
          compareTexts Selector.standard source printed = .same := by
  intro h
  have hparse : Document.parse "<p>one<b>two</b>three</p>" = .ok boldWord := by decide
  have hplain : boldWord.PlainNames := by decide
  have hformat : Document.format ⟨2, false, true⟩ "<p>one<b>two</b>three</p>" =
      .ok "<?xml version=\"1.0\" encoding=\"UTF-8\"?>\n<p>\n  one\n  <b>two</b>\n  three\n</p>\n" := by
    decide +kernel
  have hdifferent : compareTexts Selector.standard "<p>one<b>two</b>three</p>"
      "<?xml version=\"1.0\" encoding=\"UTF-8\"?>\n<p>\n  one\n  <b>two</b>\n  three\n</p>\n" =
        .different [⟨.textValue, some "onethree", some "one three", ⟨[⟨"p", 1⟩]⟩, "#document", "p"⟩] := by
    decide +kernel
  obtain ⟨printed, hprinted, hsame⟩ := h _ boldWord ⟨2, false, true⟩ hparse hplain
  obtain rfl := Except.ok.inj (hformat.symm.trans hprinted)
  rw [hdifferent] at hsame
  cases hsame

end XmlCompare
