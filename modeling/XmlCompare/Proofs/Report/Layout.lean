import XmlCompare.Proofs.Compare.Layout
import XmlCompare.Proofs.Report.Projection

/-!
# Verdicts and the layout of texts

Two texts may be laid out in another way each: with other blanks and line feeds between tags and
around words, with other comments, and with other declarations, as long as all names are written the
same and expand to the same. Then the same differences are found, and a verdict says the same of the
same elements, on the lines that they have in the control text at hand.
-/

set_option autoImplicit false

namespace XmlCompare

/-- The standard selectors answer alike for elements that are written alike. -/
theorem Selector.respects_standard : ∀ accepts ∈ Selector.standard,
    accepts.Respects (Element.InStep Element.WrittenAlike) := by
  have hboth : byNameAndText.Respects (Element.InStep Element.WrittenAlike) := by
    intro a a' b b' ha hb
    have ha' := (Element.inStep_iff.mp ha).1
    have hb' := (Element.inStep_iff.mp hb).1
    simp only [byNameAndText, ha'.expanded, hb'.expanded, ha'.text, hb'.text]
  have hname : byName.Respects (Element.InStep Element.WrittenAlike) := by
    intro a a' b b' ha hb
    simp only [byName, (Element.inStep_iff.mp ha).1.expanded, (Element.inStep_iff.mp hb).1.expanded]
  simp only [standard, List.forall_mem_cons, List.not_mem_nil, false_imp_iff, implies_true,
    and_true]
  exact ⟨hboth, hname⟩

/-- Documents that are written the same have the same paths. -/
theorem Document.inStep_paths {c c' : Document} (hc : c.Placed) (hc' : c'.Placed)
    (h : c.root.InStep Element.WrittenAlike c'.root) :
    c.root.InStep (fun a b => a.WrittenAlike b ∧ a.path = b.path) c'.root :=
  Document.and_paths hc hc' (fun _ _ hab => hab.name) h

namespace Finding

/-- The finding is on the lines of the element. -/
def Covers (f : Finding) (x : Element) : Prop :=
  f.firstLine = x.lines.first ∧ f.lastLine = x.lines.last

/-- Findings that say the same of elements with the same path, each in its document. -/
structure SaysTheSame (c c' : Document) (f f' : Finding) : Prop where
  message : f.message = f'.message
  details : f.details = f'.details
  path : ∃ x ∈ c.elements, ∃ x' ∈ c'.elements, x.path = x'.path ∧ f.Covers x ∧ f'.Covers x'

variable {c c' : Document} {index index' : PositionIndex}

/-- Which findings are kept depends on their details alone. -/
theorem distinct_congr {findings findings' : List Finding}
    (h : List.Forall₂ (SaysTheSame c c') findings findings') (seen : List String) :
    List.Forall₂ (SaysTheSame c c') (distinct seen findings) (distinct seen findings') := by
  induction h generalizing seen with
  | nil => exact .nil
  | @cons f f' rest rest' hf _ ih =>
    rw [distinct, distinct, hf.details]
    by_cases hseen : seen.contains f'.details = true
    · rw [if_pos hseen, if_pos hseen]
      exact ih seen
    · rw [if_neg hseen, if_neg hseen]
      exact .cons hf (ih (f'.details :: seen))

/-- A difference that is addressed at an element of either document calls for the same finding. -/
theorem ofDifference?_congr (hindex : index.entries.entries.Perm (c.root.all.map Element.entry))
    (hindex' : index'.entries.entries.Perm (c'.root.all.map Element.entry)) {d : Difference}
    {x x' : Element} (hx : x ∈ c.root.all) (hx' : x' ∈ c'.root.all) (hd : d.path = x.path)
    (hpath : x.path = x'.path) :
    Option.Rel (SaysTheSame c c') (ofDifference? index d) (ofDifference? index' d) := by
  by_cases hquiet : d.Quiet
  · rw [ofDifference?_of_quiet hquiet, ofDifference?_of_quiet hquiet]
    exact .none
  · have hlines : index.get? d.path = some x.lines := by
      rw [hd]
      exact PositionIndex.get?_of_perm hindex hx
    have hlines' : index'.get? d.path = some x'.lines := by
      rw [hd, hpath]
      exact PositionIndex.get?_of_perm hindex' hx'
    rw [ofDifference?_of_not_quiet hlines hquiet, ofDifference?_of_not_quiet hlines' hquiet]
    rw [← Document.elements_eq] at hx hx'
    exact .some ⟨rfl, rfl, x, hx, x', hx', hpath, ⟨rfl, rfl⟩, rfl, rfl⟩

/-- Differences addressed in both documents lead to findings that say the same. -/
theorem project_congr (hindex : index.entries.entries.Perm (c.root.all.map Element.entry))
    (hindex' : index'.entries.entries.Perm (c'.root.all.map Element.entry))
    (hpaths : List.Forall₂ (fun x y => x.path = y.path) c.root.all c'.root.all)
    {differences : List Difference}
    (haddressed : ∀ d ∈ differences, ∃ x ∈ c.root.all, d.path = x.path) :
    List.Forall₂ (SaysTheSame c c') (project index differences) (project index' differences) := by
  have hfound : List.Forall₂
      (fun d d' => Option.Rel (SaysTheSame c c') (ofDifference? index d) (ofDifference? index' d'))
      differences differences := by
    refine List.forall₂_same.mpr fun d hd => ?_
    obtain ⟨x, hx, hdx⟩ := haddressed d hd
    obtain ⟨x', hx', hpath⟩ := exists_mem_of_forall₂ hpaths hx
    exact ofDifference?_congr hindex hindex' hx hx' hdx hpath
  exact distinct_congr (List.rel_filterMap (fun _ _ hd => hd) hfound) []

end Finding

/-- If two control texts are documents that are written the same, and two test texts likewise, then
the comparisons of either pair come to the same, and so do the verdicts: both are valid, or they
have as many findings, which say the same of elements with the same path. -/
theorem verify_of_writtenAlike (control control' test test' : String) (c c' t t' : Document)
    (hcontrol : Document.parse control = .ok c) (hcontrol' : Document.parse control' = .ok c')
    (htest : Document.parse test = .ok t) (htest' : Document.parse test' = .ok t')
    (hc : c.root.InStep Element.WrittenAlike c'.root)
    (ht : t.root.InStep Element.WrittenAlike t'.root) :
    compareTexts Selector.standard control test = compareTexts Selector.standard control' test' ∧
    (verify control test = .valid ∧ verify control' test' = .valid ∨
      ∃ findings findings', verify control test = .invalid findings ∧
        verify control' test' = .invalid findings' ∧
        List.Forall₂ (Finding.SaysTheSame c c') findings findings') := by
  obtain ⟨hplaced, -, index, hbuild, hperm⟩ := Document.index_of_parse hcontrol
  obtain ⟨hplaced', -, index', hbuild', hperm'⟩ := Document.index_of_parse hcontrol'
  have hpaths := Document.inStep_paths hplaced hplaced' hc
  have hdifferences : c.differences Selector.standard t = c'.differences Selector.standard t' :=
    Element.differences_congr Selector.respects_standard hpaths ht Element.documentTag
  constructor
  · rw [compareTexts_of_parse hcontrol htest, compareTexts_of_parse hcontrol' htest', hdifferences]
  · have hfindings := Finding.project_congr hperm hperm'
      (hpaths.elements.imp fun _ _ hxy => hxy.2)
      fun d (hd : d ∈ c.differences Selector.standard t) => Element.path_of_mem_differences hd
    rw [verify_of_build hcontrol htest hbuild, verify_of_build hcontrol' htest' hbuild',
      ← hdifferences]
    generalize Finding.project index (c.differences Selector.standard t) = findings at hfindings ⊢
    generalize Finding.project index' (c.differences Selector.standard t) = findings' at hfindings ⊢
    cases hfindings with
    | nil => exact .inl ⟨if_pos rfl, if_pos rfl⟩
    | cons hfirst hrest =>
      exact .inr ⟨_, _, if_neg (List.cons_ne_nil _ _), if_neg (List.cons_ne_nil _ _),
        .cons hfirst hrest⟩

/-- An item in a list on one line, with an attribute and text. -/
def laidOutItem (line : Nat) (value text : String) : Element :=
  .mk ⟨"i", .bare "i", ⟨[⟨"r", 1⟩, ⟨"i", 1⟩]⟩, .single line, .empty,
    .ofList [(.bare "a", ⟨"a", .bare "a", value⟩)]⟩ [.text text]

/-- A list with declarations, on lines up to the one of its only item, with comments before that. -/
def laidOut (declarations : List (String × String)) (comments : List String) (line : Nat)
    (value text : String) : Element :=
  .mk ⟨"r", .bare "r", ⟨[⟨"r", 1⟩]⟩, .between 1 line, .ofList declarations, .empty⟩
    (comments.map Node.comment ++ [.element (laidOutItem line value text)])

/-- An item with another value and another text, in two layouts of the control text and of the test
text: what is found on line one of the one is found on line three of the other. -/
theorem verify_of_laid_out :
    Document.parse "<r><i a='1'>b</i></r>" = .ok ⟨[], laidOut [] [] 1 "1" "b", []⟩ ∧
    Document.parse "<r xmlns:p='u'>\n<!---->\n<i a='1'> b</i></r>" =
      .ok ⟨[], laidOut [("p", "u")] [""] 3 "1" " b", []⟩ ∧
    Document.parse "<r><i a='2'>c</i></r>" = .ok ⟨[], laidOut [] [] 1 "2" "c", []⟩ ∧
    Document.parse "<r>\n<i a='2'>c </i></r>" = .ok ⟨[], laidOut [] [] 2 "2" "c ", []⟩ ∧
    (laidOut [] [] 1 "1" "b").InStep Element.WrittenAlike (laidOut [("p", "u")] [""] 3 "1" " b") ∧
    (laidOut [] [] 1 "2" "c").InStep Element.WrittenAlike (laidOut [] [] 2 "2" "c ") ∧
    compareTexts Selector.standard "<r><i a='1'>b</i></r>" "<r><i a='2'>c</i></r>" =
      compareTexts Selector.standard "<r xmlns:p='u'>\n<!---->\n<i a='1'> b</i></r>"
        "<r>\n<i a='2'>c </i></r>" ∧
    ∃ findings findings',
      verify "<r><i a='1'>b</i></r>" "<r><i a='2'>c</i></r>" = .invalid findings ∧
      verify "<r xmlns:p='u'>\n<!---->\n<i a='1'> b</i></r>" "<r>\n<i a='2'>c </i></r>" =
        .invalid findings' ∧
      List.Forall₂ (Finding.SaysTheSame ⟨[], laidOut [] [] 1 "1" "b", []⟩
        ⟨[], laidOut [("p", "u")] [""] 3 "1" " b", []⟩) findings findings' := by
  have hcontrol : Document.parse "<r><i a='1'>b</i></r>" =
      .ok ⟨[], laidOut [] [] 1 "1" "b", []⟩ := by decide
  have hcontrol' : Document.parse "<r xmlns:p='u'>\n<!---->\n<i a='1'> b</i></r>" =
      .ok ⟨[], laidOut [("p", "u")] [""] 3 "1" " b", []⟩ := by decide
  have htest : Document.parse "<r><i a='2'>c</i></r>" =
      .ok ⟨[], laidOut [] [] 1 "2" "c", []⟩ := by decide
  have htest' : Document.parse "<r>\n<i a='2'>c </i></r>" =
      .ok ⟨[], laidOut [] [] 2 "2" "c ", []⟩ := by decide
  have hitem : ∀ line line' value text text',
      (laidOutItem line value text).textContent = (laidOutItem line' value text').textContent →
        (laidOutItem line value text).InStep Element.WrittenAlike (laidOutItem line' value text') :=
    fun _ _ _ _ _ htext => .intro ⟨rfl, rfl, rfl, htext⟩ .nil
  have hc : (laidOut [] [] 1 "1" "b").InStep Element.WrittenAlike
      (laidOut [("p", "u")] [""] 3 "1" " b") :=
    .intro ⟨rfl, rfl, rfl, rfl⟩ (.cons (hitem _ _ _ _ _ (by decide)) .nil)
  have ht : (laidOut [] [] 1 "2" "c").InStep Element.WrittenAlike (laidOut [] [] 2 "2" "c ") :=
    .intro ⟨rfl, rfl, rfl, rfl⟩ (.cons (hitem _ _ _ _ _ (by decide)) .nil)
  have hinvalid : verify "<r><i a='1'>b</i></r>" "<r><i a='2'>c</i></r>" ≠ .valid := by
    decide +kernel
  obtain ⟨hsame, ⟨hvalid, -⟩ | hfindings⟩ :=
    verify_of_writtenAlike _ _ _ _ _ _ _ _ hcontrol hcontrol' htest htest' hc ht
  · exact absurd hvalid hinvalid
  · exact ⟨hcontrol, hcontrol', htest, htest', hc, ht, hsame, hfindings⟩

/-! ## Attributes with one spelling -/

/-- Elements whose names are written and expand the same, and whose attributes are written the same,
whatever their names stand for. -/
structure Element.SpelledAlike (a b : Element) : Prop where
  name : a.name = b.name
  expanded : a.expanded = b.expanded
  attributes : a.attributes.entries.map (fun e => (e.2.name, e.2.value)) =
    b.attributes.entries.map (fun e => (e.2.name, e.2.value))
  text : a.textContent = b.textContent

/-- A list in which `p` stands for a namespace, with an item that has an attribute in it. -/
def abbreviatedKey (uri : String) : Element :=
  .mk ⟨"r", .bare "r", ⟨[⟨"r", 1⟩]⟩, .single 1, .ofList [("p", uri)], .empty⟩
    [.element (.mk ⟨"i", .bare "i", ⟨[⟨"r", 1⟩, ⟨"i", 1⟩]⟩, .single 1, .empty,
      .ofList [(⟨uri, "k"⟩, ⟨"p:k", ⟨uri, "k"⟩, "1"⟩)]⟩ [])]

/-- Another address for an abbreviation leaves everything written as it was, but an attribute that
is written with the abbreviation is another one. So texts may be spelled alike and differ. -/
theorem spelled_alike_and_different :
    Document.parse "<r xmlns:p='u'><i p:k='1'/></r>" = .ok ⟨[], abbreviatedKey "u", []⟩ ∧
    Document.parse "<r xmlns:p='v'><i p:k='1'/></r>" = .ok ⟨[], abbreviatedKey "v", []⟩ ∧
    (abbreviatedKey "u").InStep Element.SpelledAlike (abbreviatedKey "v") ∧
    (abbreviatedKey "u").InStep Element.SpelledAlike (abbreviatedKey "u") ∧
    compareTexts Selector.standard "<r xmlns:p='u'><i p:k='1'/></r>"
      "<r xmlns:p='u'><i p:k='1'/></r>" = .same ∧
    compareTexts Selector.standard "<r xmlns:p='v'><i p:k='1'/></r>"
      "<r xmlns:p='u'><i p:k='1'/></r>" ≠ .same ∧
    verify "<r xmlns:p='u'><i p:k='1'/></r>" "<r xmlns:p='u'><i p:k='1'/></r>" = .valid ∧
    verify "<r xmlns:p='v'><i p:k='1'/></r>" "<r xmlns:p='u'><i p:k='1'/></r>" ≠ .valid := by
  have hspelled : ∀ uri uri', (abbreviatedKey uri).InStep Element.SpelledAlike
      (abbreviatedKey uri') := fun _ _ =>
    .intro ⟨rfl, rfl, rfl, rfl⟩ (.cons (.intro ⟨rfl, rfl, rfl, rfl⟩ .nil) .nil)
  refine ⟨by decide, by decide, hspelled _ _, hspelled _ _, ?_, ?_, ?_, ?_⟩ <;> decide +kernel

end XmlCompare
