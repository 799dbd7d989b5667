import XmlCompare.Proofs.Compare.Order
import XmlCompare.Proofs.Document.Succession
import XmlCompare.Proofs.Report.Addresses

/-!
# Differences in document order

The elements of a document stand in the order of their start tags, and an element that opens later
begins no earlier. So what a comparison goes through in the order of the control tree is also listed
in the order of the lines, and this holds for findings too: they keep the order of the differences,
and of those with the same details the first one stays.
-/

set_option autoImplicit false

namespace XmlCompare

/-- How many elements of a document open before the one with some path. -/
def Document.place (c : Document) (path : Path) : Nat := (c.elements.map Element.path).idxOf path

/-- A place in the list of elements is the place of the path. -/
theorem Document.place_path {c : Document} (hplaced : c.Placed) {i : Nat}
    (hi : i < c.elements.length) : c.place c.elements[i].path = i := by
  have hnodup : (c.elements.map Element.path).Nodup := by
    rw [Document.elements_eq]
    exact Element.nodup_paths hplaced.inner
  have hlt : i < (c.elements.map Element.path).length := by rwa [List.length_map]
  rw [place, ← List.getElem_map (h := hlt), hnodup.idxOf_getElem]

/-- Elements are listed in the order of their places. -/
theorem Document.pairwise_place {c : Document} (hplaced : c.Placed) :
    c.root.all.Pairwise fun x y => c.place x.path ≤ c.place y.path := by
  rw [← Document.elements_eq, List.pairwise_iff_getElem]
  intro i j hi hj hlt
  rw [place_path hplaced, place_path hplaced]
  exact Nat.le_of_lt hlt

namespace Finding

variable {index : PositionIndex} {differences : List Difference}

/-- A difference that is not about an extra child calls for the finding. -/
def OfControl (index : PositionIndex) (differences : List Difference) (f : Finding) : Prop :=
  ∃ d ∈ differences, ¬ d.IsExtra ∧ ofDifference? index d = some f

/-- If the first difference does not call for the finding, one of the others does. -/
theorem OfControl.tail {d : Difference} {rest : List Difference} {f : Finding}
    (h : OfControl index (d :: rest) f) (hne : ofDifference? index d ≠ some f) :
    OfControl index rest f := by
  obtain ⟨d', hd', hcontrol, hfound⟩ := h
  rcases List.mem_cons.mp hd' with rfl | hd'
  · exact absurd hfound hne
  · exact ⟨d', hd', hcontrol, hfound⟩

/-- If differences stand in the order of the lines, but for those that are about extra children, so
do the findings they call for. -/
theorem pairwise_project (h : differences.Pairwise fun d d' => ¬ d'.IsExtra →
      ∀ f f', ofDifference? index d = some f → ofDifference? index d' = some f' →
        f.firstLine ≤ f'.firstLine) :
    (project index differences).Pairwise fun f f' =>
      OfControl index differences f' → f.firstLine ≤ f'.firstLine := by
  unfold project
  generalize ([] : List String) = seen
  induction differences generalizing seen with
  | nil => exact .nil
  | cons d rest ih =>
    obtain ⟨hfirst, hrest⟩ := List.pairwise_cons.mp h
    -- What is kept of the rest has other details than what was seen, so the rest calls for it.
    have hkept : ∀ seen, (∀ f, ofDifference? index d = some f → f.details ∈ seen) →
        (distinct seen (rest.filterMap (ofDifference? index))).Pairwise fun f f' =>
          OfControl index (d :: rest) f' → f.firstLine ≤ f'.firstLine := by
      intro seen hseen
      refine (ih hrest seen).imp_of_mem fun {f f'} _ hmem hle hcontrol => hle (hcontrol.tail ?_)
      exact fun hfound => details_of_mem_distinct hmem (hseen f' hfound)
    cases hd : ofDifference? index d with
    | none =>
      rw [List.filterMap_cons_none hd]
      exact hkept seen (by simp [hd])
    | some f =>
      rw [List.filterMap_cons_some hd, distinct]
      split
      · rename_i hseen
        exact hkept seen (by simpa [hd] using hseen)
      · refine List.pairwise_cons.mpr ⟨fun f' hmem hcontrol => ?_, hkept _ (by simp [hd])⟩
        have hne : ofDifference? index d ≠ some f' := by
          intro hsame
          obtain rfl := Option.some.inj (hd.symm.trans hsame)
          exact details_of_mem_distinct hmem List.mem_cons_self
        obtain ⟨d', hd', hother, hfound⟩ := hcontrol.tail hne
        exact hfirst d' hd' hother f f' hd hfound

end Finding

/-- The findings of a verdict on two documents are those that their differences call for. -/
theorem Snapshot.findings_verify {selectors : List Selector} {index : PositionIndex}
    {control test : String} {c t : Document} (hcontrol : Document.parse control = .ok c)
    (htest : Document.parse test = .ok t) : ((mk control index).verify selectors test).findings =
      Finding.project index (c.differences selectors t) := by
  rw [verify_of_parse hcontrol htest]
  split
  · rename_i hnil
    rw [hnil]
    rfl
  · rfl

/-- If two paths lead to lines, those of the first begin no later. -/
def PositionIndex.BeginsBy (index : PositionIndex) (path path' : Path) : Prop :=
  ∀ lines lines', index.get? path = some lines → index.get? path' = some lines' →
    lines.first ≤ lines'.first

/-- An element that opens later begins no earlier. -/
theorem PositionIndex.pairwise_beginsBy {index : PositionIndex} {root : Element}
    (horderly : root.Orderly) (hperm : index.entries.entries.Perm (root.all.map Element.entry)) :
    root.all.Pairwise fun x y => index.BeginsBy x.path y.path := by
  refine horderly.pairwise_all.imp_of_mem fun {x y} hx hy hle lines lines' hlines hlines' => ?_
  rw [get?_of_perm hperm hx] at hlines
  rw [get?_of_perm hperm hy] at hlines'
  obtain rfl := Option.some.inj hlines
  obtain rfl := Option.some.inj hlines'
  exact hle.1

/-- Differences of two documents are addressed in the order of the control document, but for those
that are about extra children: nothing else is addressed in front of what is listed before it. The
findings of a report keep this order, so none begins before one that is listed before it, if a
difference that is not about an extra child calls for it. -/
theorem differences_in_document_order (selectors : List Selector) (control test : String)
    (c t : Document) (hcontrol : Document.parse control = .ok c)
    (htest : Document.parse test = .ok t) :
    (∀ d ∈ (compareTexts selectors control test).differences,
      d.path ∈ c.elements.map Element.path) ∧
    (compareTexts selectors control test).differences.Pairwise (fun d d' =>
      ¬ d'.IsExtra → c.place d.path ≤ c.place d'.path) ∧
    ∃ index, PositionIndex.build control = .ok index ∧
      ∃ verdict, verifyWith selectors control test = .ok verdict ∧
        (selectors = Selector.standard → verify control test = verdict) ∧
        verdict.findings.Pairwise fun f f' =>
          Finding.OfControl index (compareTexts selectors control test).differences f' →
            f.firstLine ≤ f'.firstLine := by
  obtain ⟨hplaced, -, index, hbuild, hperm⟩ := Document.index_of_parse hcontrol
  have horderly := Document.orderly_of_parse hcontrol
  rw [differences_compareTexts hcontrol htest]
  refine ⟨fun d hd => ?_, ?_, index, hbuild, (Snapshot.mk control index).verify selectors test, ?_,
    ?_, ?_⟩
  · obtain ⟨x, hx, hpath⟩ := Element.path_of_mem_differences hd
    rw [Document.elements_eq, hpath]
    exact List.mem_map_of_mem hx
  · exact Element.pairwise_differences (R := fun p q => c.place p ≤ c.place q)
      (fun _ => Nat.le_refl _) (Document.pairwise_place hplaced)
  · rw [verifyWith, Snapshot.ofText, hbuild]
    rfl
  · rintro rfl
    rw [verify_of_build hcontrol htest hbuild, Snapshot.verify_of_parse hcontrol htest]
  · rw [Snapshot.findings_verify hcontrol htest]
    refine Finding.pairwise_project ((Element.pairwise_differences (R := index.BeginsBy) ?_
      (PositionIndex.pairwise_beginsBy horderly hperm)).imp ?_)
    · intro path lines lines' hlines hlines'
      rw [Option.some.inj (hlines.symm.trans hlines')]
    · intro d d' hle hcontrol f f' hf hf'
      obtain ⟨-, lines, hlines, rfl⟩ := Finding.ofDifference?_eq_some_iff.mp hf
      obtain ⟨-, lines', hlines', rfl⟩ := Finding.ofDifference?_eq_some_iff.mp hf'
      exact hle hcontrol lines lines' hlines hlines'

/-- An item of a list with a text. -/
def textItem (name : String) (line : Nat) (text : String) : Element :=
  .mk ⟨name, .bare name, ⟨[⟨"r", 1⟩, ⟨name, 1⟩]⟩, .single line, .empty, .empty⟩ [.text text]

/-- Two items on a line each. -/
def apartItems : Element := plainList 2 [textItem "a" 1 "1", textItem "b" 2 "2"]

/-- The two items in the other order and with other texts, and one more behind them. -/
def exchangedItems : Element :=
  plainList 1 [textItem "b" 1 "3", textItem "a" 1 "4", plainItem "y" 1 1 1]

/-- The text of the item on the first line comes first, though it is read second in the test text.
The item behind it is extra and listed last, though it belongs on the first line. -/
theorem exchanged_items_in_document_order :
    Document.parse "<r><a>1</a>\n<b>2</b></r>" = .ok ⟨[], apartItems, []⟩ ∧
    Document.parse "<r><b>3</b><a>4</a><y/></r>" = .ok ⟨[], exchangedItems, []⟩ ∧
    compareTexts Selector.standard "<r><a>1</a>\n<b>2</b></r>" "<r><b>3</b><a>4</a><y/></r>" =
      .different [⟨.childCount, "2", "3", apartItems.path, "#document", "r"⟩,
        ⟨.textValue, "1", "4", (textItem "a" 1 "1").path, "r", "a"⟩,
        ⟨.textValue, "2", "3", (textItem "b" 2 "2").path, "r", "b"⟩,
        .extraChild "r" (textItem "a" 1 "1").path (plainItem "y" 1 1 1)] ∧
    ((∀ d ∈ (compareTexts Selector.standard "<r><a>1</a>\n<b>2</b></r>"
          "<r><b>3</b><a>4</a><y/></r>").differences,
        d.path ∈ (Document.mk [] apartItems []).elements.map Element.path) ∧
      (compareTexts Selector.standard "<r><a>1</a>\n<b>2</b></r>"
          "<r><b>3</b><a>4</a><y/></r>").differences.Pairwise (fun d d' => ¬ d'.IsExtra →
        (Document.mk [] apartItems []).place d.path ≤
          (Document.mk [] apartItems []).place d'.path) ∧
      ∃ index, PositionIndex.build "<r><a>1</a>\n<b>2</b></r>" = .ok index ∧
        ∃ verdict, verifyWith Selector.standard "<r><a>1</a>\n<b>2</b></r>"
            "<r><b>3</b><a>4</a><y/></r>" = .ok verdict ∧
          (Selector.standard = Selector.standard →
            verify "<r><a>1</a>\n<b>2</b></r>" "<r><b>3</b><a>4</a><y/></r>" = verdict) ∧
          verdict.findings.Pairwise fun f f' =>
            Finding.OfControl index (compareTexts Selector.standard "<r><a>1</a>\n<b>2</b></r>"
              "<r><b>3</b><a>4</a><y/></r>").differences f' → f.firstLine ≤ f'.firstLine) := by
  have hcontrol : Document.parse "<r><a>1</a>\n<b>2</b></r>" = .ok ⟨[], apartItems, []⟩ := by
    decide
  have htest : Document.parse "<r><b>3</b><a>4</a><y/></r>" = .ok ⟨[], exchangedItems, []⟩ := by
    decide
  refine ⟨hcontrol, htest, ?_,
    differences_in_document_order Selector.standard _ _ _ _ hcontrol htest⟩
  rw [compareTexts_of_parse hcontrol htest]
  rfl

end XmlCompare
