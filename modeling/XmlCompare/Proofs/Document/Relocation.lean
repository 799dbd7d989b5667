import XmlCompare.Proofs.Document.Excision
import XmlCompare.Proofs.Line.Feeds

/-!
# Pieces that move without changing lines

Where a token stands shows in lines only, and a line is known by the line feeds before it. So pieces
make the same events in another text if as many line feeds stand before them there.
-/

set_option autoImplicit false

namespace XmlCompare.Event.State

open Markup (Token)
open Markup.Token (Piece)
open Markup.Token.Piece (join place)
open Text (byteSize)

variable {lines lines' : LineTable} {start start' stop stop' : Nat} {s s' : State}
  {events : List Event}

/-- An element may open elsewhere on the same line. -/
theorem enter_of_line {content : List Char} {e : OpenedElement}
    (hline : lines'.line start' = lines.line start)
    (h : s.enter lines start content = .ok (s', e)) :
    s.enter lines' start' content = .ok (s', e) := by
  rw [enter_eq_ok_iff] at h ⊢
  rwa [hline]

/-- An element may close elsewhere on the same line. -/
theorem leave_of_line {ended : ClosedElement} (hline : lines'.line stop' = lines.line stop)
    (h : s.leave lines stop = .ok (s', ended)) : s.leave lines' stop' = .ok (s', ended) := by
  rw [leave_eq_ok_iff] at h ⊢
  rwa [hline]

/-- Character data may stand anywhere. -/
theorem characters_of_characters {content : List Char}
    (h : s.characters lines start content = .ok events) :
    s.characters lines' start' content = .ok events := by
  rw [characters_eq_ok_iff] at h ⊢
  exact h

/-- A token does the same wherever it begins on the same line and, if it is markup, ends on the same
line. -/
theorem step_of_lines {t : Token} (hstart : lines'.line start' = lines.line start)
    (hstop : t.isMarkup = true → lines'.line (stop' - 1) = lines.line (stop - 1))
    (h : s.step lines ⟨t, start, stop⟩ = .ok (s', events)) :
    s.step lines' ⟨t, start', stop'⟩ = .ok (s', events) := by
  rw [step_eq_ok_iff] at h ⊢
  cases h with
  | startTag henter => exact .startTag (enter_of_line hstart henter)
  | emptyTag henter hleave =>
    exact .emptyTag (enter_of_line hstart henter) (leave_of_line hstart hleave)
  | endTag hleave => exact .endTag (leave_of_line (hstop rfl) hleave)
  | text hraw hchars => exact .text hraw (characters_of_characters hchars)
  | cdata hchars => exact .cdata (characters_of_characters hchars)
  | comment => exact .comment
  | skipped => exact .skipped

/-- Two places with as many line feeds before them are on the same line. -/
theorem line_of_feeds {text text' : String} {front front' back back' : List Char}
    (htext : text.toList = front ++ back) (htext' : text'.toList = front' ++ back')
    (hfeeds : front'.count '\n' = front.count '\n') :
    (LineTable.ofText text').line (byteSize front') =
      (LineTable.ofText text).line (byteSize front) := by
  rw [LineTable.line_of_split htext, LineTable.line_of_split htext', hfeeds]

/-- Pieces make the same events in another text, if as many line feeds stand before them. -/
theorem Steps.relocate {text text' : String} {pieces : List Piece}
    (hspelled : ∀ p ∈ pieces, p.Spelled) {front front' back back' : List Char}
    (htext : text.toList = front ++ (join pieces ++ back))
    (htext' : text'.toList = front' ++ (join pieces ++ back'))
    (hfeeds : front'.count '\n' = front.count '\n')
    (h : Steps text s (place (byteSize front) pieces) events s') :
    Steps text' s (place (byteSize front') pieces) events s' := by
  induction pieces generalizing s events front front' with
  | nil =>
    cases h
    exact .done
  | cons p pieces ih =>
    obtain ⟨hp, hpieces⟩ := List.forall_mem_cons.mp hspelled
    rw [Piece.join_cons, List.append_assoc] at htext htext'
    cases h with
    | step hstep hrest =>
      refine .step (step_of_lines (line_of_feeds htext htext' hfeeds) (fun hmarkup => ?_) hstep) ?_
      · -- Markup ends with a `>`, before which as many line feeds stand as well.
        obtain ⟨init, hinit⟩ : ∃ init, p.spelling = init ++ ['>'] :=
          List.getLast?_eq_some_iff.mp (hp.getLast? hmarkup)
        have hlast : ∀ front : List Char, byteSize front + byteSize p.spelling - 1 =
            byteSize (front ++ init) := by
          intro front
          rw [hinit, Text.byteSize_append, Text.byteSize_append, ← Nat.add_assoc]
          rfl
        rw [hinit, List.append_assoc, ← List.append_assoc front] at htext
        rw [hinit, List.append_assoc, ← List.append_assoc front'] at htext'
        rw [hlast, hlast]
        exact line_of_feeds htext htext' (by simp [hfeeds])
      · rw [← Text.byteSize_append] at hrest ⊢
        rw [← List.append_assoc] at htext htext'
        exact ih hpieces htext htext' (by simp [hfeeds]) hrest

end XmlCompare.Event.State
