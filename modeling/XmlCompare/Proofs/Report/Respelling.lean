import XmlCompare.Proofs.Compare.Locality
import XmlCompare.Proofs.Document.Respelling
import XmlCompare.Proofs.Line.Returns
import XmlCompare.Proofs.Report.Projection

/-!
# Texts that spell a document in two ways

A section may be written as escaped character data, and a single tag as a start tag with an end tag
behind it. The text is the same document then, but for lines in the second case, and no difference
is found between the two texts.
-/

set_option autoImplicit false

namespace XmlCompare

open Markup (Token)
open Text (byteSize escapeText)

variable {text variant : String} {d d' : Document} {before after : String} {stop : Nat}

/-- Texts whose documents differ in lines at most are the same, whichever is the control text. -/
theorem same_of_withoutLines (hparse : Document.parse text = .ok d)
    (hparse' : Document.parse variant = .ok d') (h : d'.withoutLines = d.withoutLines) :
    compareTexts Selector.standard text variant = .same ∧
      compareTexts Selector.standard variant text = .same := by
  have hagree : d'.root.Agree d.root := Element.agree_of_withoutLines (congrArg Document.root h)
  constructor
  · exact (valid_of_no_differences hparse hparse' (Element.differences_of_agree hagree.symm _)).1
  · exact (valid_of_no_differences hparse' hparse (Element.differences_of_agree hagree _)).1

/-- A section can be written as character data, in which its characters are escaped. -/
theorem parse_of_escaped_section {body : String} (hmark : text.toList.head? ≠ some '\ufeff')
    (hparse : Document.parse text = .ok d)
    (htext : text = before ++ "<![CDATA[" ++ body ++ "]]>" ++ after)
    (hsection : ⟨.cdata body.toList, byteSize before.toList, stop⟩ ∈ (Token.readAll text).items) :
    Document.parse (before ++ escapeText body ++ after) = .ok d := by
  have hlist : text.toList = before.toList ++
      ("<![CDATA[".toList ++ body.toList ++ "]]>".toList ++ after.toList) := by
    simp [htext]
  have hvariant : (before ++ escapeText body ++ after).toList = before.toList ++
      (body.toList.flatMap Text.escapeTextChar ++ after.toList) := by
    simp [Text.toList_escapeText]
  exact Document.parse_of_section hmark hparse hlist hsection hvariant
    (Text.not_mem_flatMap_escapeTextChar _) (Text.resolves_flatMap Text.resolves_escapeTextChar _)
    (Line.keepsFeeds_escapeTextChar.count_flatMap _)

/-- A single tag can be written as a start tag with an end tag behind it, if its name holds neither
a slash nor a quote. -/
theorem exists_parse_of_paired_tag {content : String} (hmark : text.toList.head? ≠ some '\ufeff')
    (hparse : Document.parse text = .ok d)
    (htext : text = before ++ "<" ++ content ++ "/>" ++ after)
    (htag : ⟨.emptyTag content.toList, byteSize before.toList, stop⟩ ∈ (Token.readAll text).items)
    (hname : ∀ c ∈ Markup.Tag.name content.toList, c ≠ '/' ∧ c ≠ '"' ∧ c ≠ '\'') :
    ∃ d', Document.parse (before ++ "<" ++ content ++ "></" ++
        String.ofList (Markup.Tag.name content.toList) ++ ">" ++ after) = .ok d' ∧
      d'.withoutLines = d.withoutLines := by
  have hlist : text.toList = before.toList ++
      ('<' :: (content.toList ++ "/>".toList) ++ after.toList) := by
    simp [htext]
  have hvariant : (before ++ "<" ++ content ++ "></" ++
      String.ofList (Markup.Tag.name content.toList) ++ ">" ++ after).toList =
        before.toList ++ ('<' :: (content.toList ++ ['>']) ++
          ("</".toList ++ Markup.Tag.name content.toList ++ ['>'] ++ after.toList)) := by
    simp
  exact Document.exists_parse_of_pair hmark hparse hlist htag hvariant hname

/-- A text that is a document is the same document, with the same lines, if a section in it is
written as escaped character data; and it is the same document but for lines, if a single tag in it
whose name holds neither a slash nor a quote is written as a start tag with the same content and an
end tag behind it. Either way no difference is found between the two texts, whichever is the control
text. -/
theorem lexical_variants_are_same (hmark : text.toList.head? ≠ some '\ufeff')
    (hparse : Document.parse text = .ok d) :
    (∀ before body after stop, text = before ++ "<![CDATA[" ++ body ++ "]]>" ++ after →
      ⟨.cdata body.toList, byteSize before.toList, stop⟩ ∈ (Token.readAll text).items →
      ∀ variant, variant = before ++ escapeText body ++ after →
        Document.parse variant = .ok d ∧
          compareTexts Selector.standard text variant = .same ∧
          compareTexts Selector.standard variant text = .same) ∧
    (∀ before content after stop, text = before ++ "<" ++ content ++ "/>" ++ after →
      ⟨.emptyTag content.toList, byteSize before.toList, stop⟩ ∈ (Token.readAll text).items →
      (∀ c ∈ Markup.Tag.name content.toList, c ≠ '/' ∧ c ≠ '"' ∧ c ≠ '\'') →
      ∀ variant, variant = before ++ "<" ++ content ++ "></" ++
          String.ofList (Markup.Tag.name content.toList) ++ ">" ++ after →
        ∃ d', Document.parse variant = .ok d' ∧ d'.withoutLines = d.withoutLines ∧
          compareTexts Selector.standard text variant = .same ∧
          compareTexts Selector.standard variant text = .same) := by
  constructor
  · rintro before body after stop htext hsection _ rfl
    have hparse' := parse_of_escaped_section hmark hparse htext hsection
    exact ⟨hparse', same_of_withoutLines hparse hparse' rfl⟩
  · rintro before content after stop htext htag hname _ rfl
    obtain ⟨d', hparse', hlines⟩ := exists_parse_of_paired_tag hmark hparse htext htag hname
    exact ⟨d', hparse', hlines, same_of_withoutLines hparse hparse' hlines⟩

/-- A root with a text and an item, the tag of which ends on the second line. -/
def labelledItem : Document :=
  ⟨[], .mk ⟨"r", .bare "r", ⟨[⟨"r", 1⟩]⟩, .between 1 2, .empty, .empty⟩
    [.text "a<b", .element (.mk ⟨"i", .bare "i", ⟨[⟨"r", 1⟩, ⟨"i", 1⟩]⟩, .between 1 1, .empty,
      ⟨[(.bare "k", ⟨"k", .bare "k", "1"⟩)], by decide⟩⟩ [])], []⟩

/-- The text can be escaped, and the item can have an end tag. -/
theorem variants_of_labelled_item :
    Document.parse "<r><![CDATA[a<b]]><i k='1'\n/></r>" = .ok labelledItem ∧
      Document.parse "<r>a&lt;b<i k='1'\n/></r>" = .ok labelledItem ∧
      compareTexts Selector.standard "<r><![CDATA[a<b]]><i k='1'\n/></r>"
        "<r><![CDATA[a<b]]><i k='1'\n></i></r>" = .same := by
  have hparse : Document.parse "<r><![CDATA[a<b]]><i k='1'\n/></r>" = .ok labelledItem := by
    decide
  have hname : ∀ c ∈ Markup.Tag.name "i k='1'\n".toList, c ≠ '/' ∧ c ≠ '"' ∧ c ≠ '\'' :=
    List.forall_mem_singleton.mpr (by decide)
  obtain ⟨hsection, htag⟩ := lexical_variants_are_same (by decide) hparse
  refine ⟨hparse, ?_, ?_⟩
  · exact (hsection "<r>" "a<b" "<i k='1'\n/></r>" 18 (by decide) (by decide) _
      (by decide)).1
  · obtain ⟨d', -, -, hsame, -⟩ := htag "<r><![CDATA[a<b]]>" "i k='1'\n" "</r>" 29 (by decide)
      (by decide) hname "<r><![CDATA[a<b]]><i k='1'\n></i></r>" (by decide)
    exact hsame

end XmlCompare
