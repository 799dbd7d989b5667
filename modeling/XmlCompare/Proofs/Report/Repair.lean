import XmlCompare.Proofs.Compare.Locality
import XmlCompare.Proofs.Document.Excision
import XmlCompare.Proofs.Report.Deletion
import XmlCompare.Proofs.Report.Projection

/-!
# Repair by removal

If an element is not wanted and stands alone on its lines, removing the lines repairs the text: what
is left is valid against every document that agrees with the old one without the element.
-/

set_option autoImplicit false

namespace XmlCompare

open Markup.Token (extents)
open Markup.Token.Piece (place join)

namespace Markup.Token

/-- If there is markup among the tokens, there is markup among the pieces. -/
theorem exists_piece {start : Nat} {pieces : List Piece}
    (h : ∃ t ∈ place start pieces, t.token.isMarkup = true) :
    ∃ p ∈ pieces, p.token.isMarkup = true := by
  obtain ⟨t, ht, hmarkup⟩ := h
  have hmem := List.mem_map_of_mem (f := PlacedToken.token) ht
  rw [Piece.map_token_place] at hmem
  obtain ⟨p, hp, htoken⟩ := List.mem_map.mp hmem
  exact ⟨p, hp, by rw [htoken, hmarkup]⟩

end Markup.Token

variable {control : String} {c : Document} {x : Element}

/-- The lines of an element that stands alone on them can be removed, and what is left is a document
that agrees with the old one without the element. -/
theorem Document.parse_of_removeLines {start stop : Nat}
    (hmark : control.toList.head? ≠ some '\ufeff') (hcontrol : Document.parse control = .ok c)
    (hx : (x, start, some stop) ∈
      c.elements.zip (extents (Markup.Token.readAll control).items))
    (hroot : x ≠ c.root) (halone : Line.StandsAlone control.toList x.lines start stop) :
    ∃ result d, Line.removeLines control x.lines.first x.lines.last = .ok result ∧
      Document.parse result = .ok d ∧ (c.root.without x.path).Agree d.root := by
  obtain ⟨events, hevents, -⟩ := parse_eq_ok_iff.mp hcontrol
  obtain ⟨hfault, s, hsteps, hframes, -⟩ := Event.toExcept_ofTokens_eq_ok_iff.mp hevents
  obtain ⟨pieces, hchain, hjoin, hitems⟩ := Markup.Token.exists_pieces hfault
  rw [hitems] at hsteps hx
  -- The element is one of those behind the root, and so is its source.
  obtain ⟨i, hi⟩ := List.mem_iff_getElem?.mp hx
  obtain ⟨hxi, hextent⟩ := List.getElem?_zip_eq_some.mp hi
  rw [Document.elements_eq] at hxi
  have hpos : 0 < i := by
    rw [Nat.pos_iff_ne_zero]
    rintro rfl
    rw [Element.all_eq, List.getElem?_cons_zero] at hxi
    exact hroot (Option.some.inj hxi).symm
  obtain ⟨before, element, after, rfl, hwhole, hlength, hstart, hstop⟩ :=
    Markup.Token.pieces_of_extents hextent
  rw [Markup.Token.Piece.place_append, Markup.Token.Piece.place_append] at hsteps
  obtain ⟨hbefore, hafter⟩ := Event.State.markup_around hsteps hframes
    (by rw [Markup.Token.Piece.map_token_place]; exact hwhole) (by omega)
  rw [Markup.Token.dropByteOrderMark_eq_self hmark] at hjoin
  obtain ⟨hne, hbehind, e, hpieces, hremaining, hindex⟩ :=
    Markup.Token.exists_excision hchain hjoin hwhole hstart hstop halone
      (Markup.Token.exists_piece hbefore) (Markup.Token.exists_piece hafter)
  -- The text that is left begins as the old one does.
  have hmark' : (Line.textBefore control.toList x.lines ++
      Line.textBehind control.toList x.lines).head? ≠ some '\ufeff' := by
    rw [List.head?_append_of_ne_nil _ hne]
    rw [← Line.textBefore_append control.toList x.lines, List.append_assoc,
      List.head?_append_of_ne_nil _ hne] at hmark
    exact hmark
  have hleft := Line.removeLines_eq_ok hbehind
  generalize hresult : String.ofList (Line.textBefore control.toList x.lines ++
    Line.textBehind control.toList x.lines) = result at hleft
  have hjoin' : join e.remaining = Markup.Token.dropByteOrderMark result.toList := by
    rw [← hresult, String.toList_ofList, Markup.Token.dropByteOrderMark_eq_self hmark', hremaining]
  rw [← hpieces, ← Markup.Token.dropByteOrderMark_eq_self hmark] at hjoin
  obtain ⟨d, hd, hagree⟩ := parse_of_excision e hcontrol hjoin hjoin' (by omega)
    (by rw [hindex, hlength]; exact hxi)
  exact ⟨result, d, hleft, hd, hagree⟩

/-- If an element other than the root stands alone on the lines it covers, these lines can be
removed, and every test document that agrees position by position with the control document without
the element is valid against what is left. -/
theorem verify_of_removed_lines (control test : String) (c t : Document) (x : Element)
    (start stop : Nat) (hmark : control.toList.head? ≠ some '\ufeff')
    (hcontrol : Document.parse control = .ok c) (htest : Document.parse test = .ok t)
    (hx : (x, start, some stop) ∈
      c.elements.zip (extents (Markup.Token.readAll control).items))
    (hroot : x ≠ c.root) (halone : Line.StandsAlone control.toList x.lines start stop)
    (h : (c.root.without x.path).Agree t.root) :
    ∃ result, Line.removeLines control x.lines.first x.lines.last = .ok result ∧
      verify result test = .valid := by
  obtain ⟨result, d, hresult, hparse, hagree⟩ :=
    Document.parse_of_removeLines hmark hcontrol hx hroot halone
  have hnone : d.differences Selector.standard t = [] :=
    Element.differences_of_agree (hagree.euclidean h) _
  exact ⟨result, hresult, (valid_of_no_differences hparse htest hnone).2⟩

/-- A text with an item on a line of its own. -/
def itemInText : Element :=
  .mk ⟨"r", .bare "r", ⟨[⟨"r", 1⟩]⟩, .between 1 4, .empty, .empty⟩
    [.text "\na\n ", .element (plainItem "i" 1 3 3), .text "\nb"]

/-- The text without the item, on one line. -/
def wordsOnly : Element :=
  .mk ⟨"r", .bare "r", ⟨[⟨"r", 1⟩]⟩, .between 1 1, .empty, .empty⟩ [.text "a b"]

/-- Without its line the item is gone, and the words around it are there. -/
theorem verify_of_removed_line :
    "<r>\na\n <i/>\nb</r>".toList.head? ≠ some '\ufeff' ∧
    Document.parse "<r>\na\n <i/>\nb</r>" = .ok ⟨[], itemInText, []⟩ ∧
    Document.parse "<r>a b</r>" = .ok ⟨[], wordsOnly, []⟩ ∧
    (plainItem "i" 1 3 3, 7, some 11) ∈ (Document.mk [] itemInText []).elements.zip
      (extents (Markup.Token.readAll "<r>\na\n <i/>\nb</r>").items) ∧
    plainItem "i" 1 3 3 ≠ itemInText ∧
    Line.StandsAlone "<r>\na\n <i/>\nb</r>".toList (plainItem "i" 1 3 3).lines 7 11 ∧
    (itemInText.without (plainItem "i" 1 3 3).path).Agree wordsOnly ∧
    ∃ result, Line.removeLines "<r>\na\n <i/>\nb</r>" 3 3 = .ok result ∧
      verify result "<r>a b</r>" = .valid := by
  have hmark : "<r>\na\n <i/>\nb</r>".toList.head? ≠ some '\ufeff' := by decide
  have hcontrol : Document.parse "<r>\na\n <i/>\nb</r>" = .ok ⟨[], itemInText, []⟩ := by
    decide
  have htest : Document.parse "<r>a b</r>" = .ok ⟨[], wordsOnly, []⟩ := by decide
  have helements : (Document.mk [] itemInText []).elements =
      [itemInText, plainItem "i" 1 3 3] := by
    rw [Document.elements_eq]
    rfl
  have hextents : extents (Markup.Token.readAll "<r>\na\n <i/>\nb</r>").items =
      [(0, some 17), (7, some 11)] := by decide
  have hitem : (plainItem "i" 1 3 3, 7, some 11) ∈ (Document.mk [] itemInText []).elements.zip
      (extents (Markup.Token.readAll "<r>\na\n <i/>\nb</r>").items) := by
    rw [helements, hextents]
    simp
  have hne : plainItem "i" 1 3 3 ≠ itemInText := by
    intro heq
    have hname := congrArg Element.name heq
    revert hname
    decide
  have halone : Line.StandsAlone "<r>\na\n <i/>\nb</r>".toList
      (plainItem "i" 1 3 3).lines 7 11 := by
    refine ⟨[' '], "<i/>".toList, ['\n'], ?_, ?_, ?_, ?_, ?_⟩
    · decide
    · simp [Text.isMarkupBlank]
    · simp [Text.isMarkupBlank]
    · decide
    · decide
  have hagree : (itemInText.without (plainItem "i" 1 3 3).path).Agree wordsOnly := by
    have htext : itemInText.textContent = wordsOnly.textContent := by decide
    refine .intro ⟨rfl, fun _ => rfl, ?_⟩ ?_
    · rw [Element.textContent_without, htext]
    · rw [Element.childElements_without]
      exact .nil
  exact ⟨hmark, hcontrol, htest, hitem, hne, halone, hagree,
    verify_of_removed_lines _ _ _ _ _ _ _ hmark hcontrol htest hitem hne halone hagree⟩

end XmlCompare
