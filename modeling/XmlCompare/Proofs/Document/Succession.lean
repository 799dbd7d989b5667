import XmlCompare.Proofs.Document.Excision
import XmlCompare.Proofs.Line.Feeds

/-!
# Elements one after the other

Tokens stand one behind the other in a text, so the lines on which elements open and close never go
back. What is inside an element therefore stands on its lines, siblings stand one after the other,
and an element that opens later begins no earlier; if it is not inside the one that opened before,
it does not begin before that one has ended. A byte order mark makes no difference: it moves all
offsets.
-/

set_option autoImplicit false

namespace XmlCompare

open Event (State)
open Markup (PlacedToken)
open Markup.Token (Piece)
open Markup.Token.Piece (place join)

/-- A token takes at least one byte. -/
theorem Markup.Token.Piece.Spelled.byteSize_pos {p : Piece} (h : p.Spelled) :
    0 < Text.byteSize p.spelling := by
  obtain ⟨first, rest, hspelling, -⟩ := h.head
  rw [hspelling, Text.byteSize]
  exact Nat.add_pos_left first.utf8Size_pos _

namespace Element

/-- Some siblings stand one after the other between two lines. One may begin on the line on which
the one before it ends. -/
structure InOrder (first : Nat) (siblings : List Element) (last : Nat) : Prop where
  first_le_last : first ≤ last
  within : ∀ x ∈ siblings, first ≤ x.lines.first ∧ x.lines.last ≤ last
  pairwise : siblings.Pairwise fun a b => a.lines.last ≤ b.lines.first

variable {first now last : Nat} {siblings : List Element}

/-- An empty list of siblings stands in order. -/
theorem inOrder_nil (h : first ≤ last) : InOrder first [] last :=
  ⟨h, fun _ hx => absurd hx List.not_mem_nil, .nil⟩

/-- Siblings that are in order up to a line are so up to a later one. -/
theorem InOrder.weaken (h : InOrder first siblings now) (hle : now ≤ last) :
    InOrder first siblings last where
  first_le_last := Nat.le_trans h.first_le_last hle
  within := fun x hx => ⟨(h.within x hx).1, Nat.le_trans (h.within x hx).2 hle⟩
  pairwise := h.pairwise

/-- A further sibling that begins behind the others. -/
theorem InOrder.append_singleton (h : InOrder first siblings now) {x : Element}
    (hbegin : now ≤ x.lines.first) (hend : x.lines.last ≤ last) :
    InOrder first (siblings ++ [x]) last := by
  have hx := x.lines.first_le_last
  have hfirst := h.first_le_last
  refine ⟨by omega, ?_, ?_⟩
  · rw [List.forall_mem_append, List.forall_mem_singleton]
    refine ⟨fun a ha => ?_, by omega, hend⟩
    obtain ⟨hbefore, hbehind⟩ := h.within a ha
    omega
  · refine List.pairwise_append.mpr ⟨h.pairwise, List.pairwise_singleton _ x, ?_⟩
    intro a ha b hb
    obtain rfl := List.mem_singleton.mp hb
    exact Nat.le_trans (h.within a ha).2 hbegin

/-- Everywhere in a tree the children of an element stand in order on its lines. -/
def Orderly (e : Element) : Prop := ∀ x ∈ e.all, InOrder x.lines.first x.childElements x.lines.last

variable {e c x : Element}

/-- Everything in a child of an orderly element stands in order. -/
theorem Orderly.child (h : e.Orderly) (hc : c ∈ e.childElements) : c.Orderly :=
  fun x hx => h x (mem_all_trans (child_mem_all hc) hx)

/-- A child stands on the lines of its parent. -/
theorem Orderly.contains_child (h : e.Orderly) (hx : x ∈ e.all) (hc : c ∈ x.childElements) :
    x.lines.contains c.lines = true :=
  (LineRange.contains_iff _ _).mpr ((h x hx).within c hc)

/-- What is inside an element stands on its lines. -/
theorem Orderly.within (h : e.Orderly) (hx : x ∈ e.all) :
    e.lines.first ≤ x.lines.first ∧ x.lines.last ≤ e.lines.last := by
  induction e using descent with
  | step e ih =>
    rcases mem_all_iff.mp hx with rfl | ⟨c, hc, hxc⟩
    · exact ⟨Nat.le_refl _, Nat.le_refl _⟩
    · obtain ⟨hfirst, hlast⟩ := (h e (self_mem_all e)).within c hc
      obtain ⟨hfirst', hlast'⟩ := ih c hc (h.child hc) hxc
      exact ⟨Nat.le_trans hfirst hfirst', Nat.le_trans hlast' hlast⟩

/-- Of two elements of a tree the one that opens later begins no earlier, and if it is not inside
the other one, it does not begin before that one has ended. -/
theorem Orderly.pairwise_all (h : e.Orderly) :
    e.all.Pairwise fun x y => x.lines.first ≤ y.lines.first ∧
      (¬ Relation.TransGen IsParent x y → x.lines.last ≤ y.lines.first) := by
  induction e using descent with
  | step e ih =>
    rw [all_eq, List.pairwise_cons, List.pairwise_flatMap]
    refine ⟨fun y hy => ?_, fun c hc => ih c hc (h.child hc), ?_⟩
    · obtain ⟨c, hc, hyc⟩ := List.mem_flatMap.mp hy
      have hinside : Relation.TransGen IsParent e y := .head' hc (mem_all_iff_reaches.mp hyc)
      exact ⟨(h.within (mem_all_iff.mpr (.inr ⟨c, hc, hyc⟩))).1, fun hnot => absurd hinside hnot⟩
    · refine (h e (self_mem_all e)).pairwise.imp_of_mem ?_
      intro a b ha hb hab x hx y hy
      have hxa := ((h.child ha).within hx).2
      have hyb := ((h.child hb).within hy).1
      have hx := x.lines.first_le_last
      exact ⟨by omega, fun _ => by omega⟩

end Element

namespace Sketch

/-- Some open elements, innermost first, that have been read up to line `now`: their children stand
in order up to there, and those of an outer one up to the element that is open in it. -/
def ReadTo : List Branch → Nat → Prop
  | [], _ => True
  | b :: rest, now =>
    Element.InOrder b.heading.lines.first b.children now ∧ ReadTo rest b.heading.lines.first

/-- What has been read up to a line may be taken as read up to a later one. -/
theorem ReadTo.weaken {branches : List Branch} {now later : Nat} (h : ReadTo branches now)
    (hle : now ≤ later) : ReadTo branches later := by
  cases branches with
  | nil => trivial
  | cons b rest => exact ⟨h.1.weaken hle, h.2⟩

/-- A growing tree that has been read up to line `now`, and in which everything stands in order. -/
structure Orderly (k : Sketch) (now : Nat) : Prop where
  branches : ReadTo k.branches now
  finished : ∀ x ∈ k.finished, Element.InOrder x.lines.first x.childElements x.lines.last

variable {k : Sketch} {now later : Nat}

/-- In the beginning there is nothing that could be out of order. -/
theorem orderly_initial (now : Nat) : Orderly ⟨none, []⟩ now :=
  ⟨trivial, fun _ hx => absurd hx List.not_mem_nil⟩

/-- What stands in order up to a line does so up to a later one. -/
theorem Orderly.weaken (h : k.Orderly now) (hle : now ≤ later) : k.Orderly later :=
  ⟨h.branches.weaken hle, h.finished⟩

/-- An element opens behind what has been read. -/
theorem Orderly.opened (h : k.Orderly now) (heading : Heading) (hle : now ≤ heading.lines.first) :
    Orderly ⟨k.root, ⟨heading, []⟩ :: k.branches⟩ heading.lines.first where
  branches := ⟨Element.inOrder_nil (Nat.le_refl _), h.branches.weaken hle⟩
  finished := fun x hx => h.finished x (by simpa [Sketch.finished] using hx)

/-- What is finished when an element is put into what is around it is inside that element, or was
finished before. -/
theorem mem_finished_close {root : Option Element} {x y : Element} {rest : List Branch}
    (h : y ∈ (close root x rest).finished) : y ∈ x.all ∨ y ∈ finished ⟨root, rest⟩ := by
  cases rest with
  | nil => exact .inl (by simpa [finished, close] using h)
  | cons p rest =>
    simp only [finished, close, List.mem_append, List.flatMap_cons, List.flatMap_append,
      List.flatMap_nil, List.append_nil] at h ⊢
    tauto

/-- The innermost open element, which has become `x`, closes behind what has been read. -/
theorem Orderly.closed (h : k.Orderly now) {b : Branch} {rest : List Branch}
    (hb : k.branches = b :: rest) {x : Element} (hfirst : x.lines.first = b.heading.lines.first)
    (hlast : x.lines.last = later) (hchildren : x.childElements = b.children) (hle : now ≤ later) :
    (close k.root x rest).Orderly later := by
  obtain ⟨root, branches⟩ := k
  obtain rfl : branches = b :: rest := hb
  obtain ⟨hinner, houter⟩ := h.branches
  refine ⟨?_, fun y hy => ?_⟩
  · cases rest with
    | nil => trivial
    | cons p rest =>
      exact ⟨houter.1.append_singleton (Nat.le_of_eq hfirst.symm) (Nat.le_of_eq hlast), houter.2⟩
  · rcases mem_finished_close hy with hy | hy
    · rw [Element.all_eq, hchildren] at hy
      rcases List.mem_cons.mp hy with rfl | hy
      · rw [hfirst, hlast, hchildren]
        exact hinner.weaken hle
      · exact h.finished y (by simp [Sketch.finished, hy])
    · refine h.finished y ?_
      simp only [Sketch.finished, List.flatMap_cons, List.mem_append] at hy ⊢
      tauto

end Sketch

namespace Growth

open Event.State (Steps enter_eq_ok_iff leave_eq_ok_iff step_eq_ok_iff characters_eq_ok_iff)

variable {source : String} {g : Growth} {s s' : State} {now : Nat}

/-- A tag behind what has been read opens an element on its line. -/
theorem orderly_enter {start : Nat} {content : List Char} {e : OpenedElement}
    (h : g.sketch.Orderly now) (henter : s.enter (.ofText source) start content = .ok (s', e))
    (hle : now ≤ (LineTable.ofText source).line start) :
    (g.step (.opened e)).sketch.Orderly ((LineTable.ofText source).line start) := by
  obtain ⟨-, -, -, -, hline, -⟩ := enter_eq_ok_iff.mp henter
  rw [← hline] at hle ⊢
  have hone : 1 ≤ e.line := by
    rw [hline]
    exact LineTable.one_le_line_ofText source start
  have hfirst : (Heading.ofOpened g.scopes e).lines.first = e.line :=
    congrArg Event.Frame.line (frame_ofOpened g.scopes hone)
  have hopened := h.opened (Heading.ofOpened g.scopes e) (by rw [hfirst]; exact hle)
  rw [hfirst] at hopened
  exact hopened

/-- The innermost open element ends on the line of an offset behind what has been read. -/
theorem orderly_leave {stop : Nat} {ended : ClosedElement} (hfollows : g.sketch.Follows s)
    (h : g.sketch.Orderly now) (hleave : s.leave (.ofText source) stop = .ok (s', ended))
    (hle : now ≤ (LineTable.ofText source).line stop) :
    (g.step (.closed ended)).sketch.Orderly ((LineTable.ofText source).line stop) := by
  obtain ⟨frame, frames, hframes, -, hlines, -⟩ := leave_eq_ok_iff.mp hleave
  have hbranches := hfollows.frames
  rw [hframes] at hbranches
  cases hstack : g.stack with
  | nil =>
    rw [sketch, hstack] at hbranches
    cases hbranches
  | cons o rest =>
    have hsketch : g.sketch.branches = o.branch :: rest.map OpenNode.branch := by
      rw [sketch, hstack]
      rfl
    rw [hsketch, List.map_cons] at hbranches
    obtain rfl : frame = o.heading.frame := (List.cons.inj hbranches).1
    have hread := h.branches
    rw [hsketch] at hread
    -- The element began before what has been read, so its last line is that of the offset.
    have hbegun : o.heading.lines.first ≤ now := hread.1.first_le_last
    have hone := o.heading.lines.one_le_first
    have hends : ended.lines.first = o.heading.lines.first ∧
        ended.lines.last = (LineTable.ofText source).line stop := by
      have hreached : o.heading.frame.line ≤ (LineTable.ofText source).line stop :=
        Nat.le_trans hbegun hle
      rw [hlines, Nat.max_eq_left hreached]
      exact LineRange.between_of_le hone hreached
    rw [show g.step (.closed ended) = g.closeElement ended.lines from rfl,
      sketch_closeElement hstack]
    exact h.closed hsketch hends.1 hends.2 (OpenNode.childElements_close o ended.lines) hle

/-- Character data does not change the order. -/
theorem orderly_characters {lines : LineTable} {start : Nat} {content : List Char}
    {events : List Event} (h : g.sketch.Orderly now)
    (hchars : s.characters lines start content = .ok events) :
    (events.foldl step g).sketch.Orderly now := by
  rcases characters_eq_ok_iff.mp hchars with ⟨-, rfl⟩ | ⟨-, -, rfl⟩
  · rw [show [Event.text (String.ofList content)].foldl step g =
      g.addText (String.ofList content) from rfl, sketch_addText]
    exact h
  · exact h

/-- A token that begins where the text has been read up to keeps everything in order, and the text
is then read up to its end. -/
theorem orderly_step {t : PlacedToken} {events : List Event} (hfollows : g.sketch.Follows s)
    (h : g.sketch.Orderly ((LineTable.ofText source).line t.start)) (hlt : t.start < t.stop)
    (hstep : s.step (.ofText source) t = .ok (s', events)) :
    (events.foldl step g).sketch.Orderly ((LineTable.ofText source).line t.stop) := by
  have hmono : (LineTable.ofText source).line t.start ≤ (LineTable.ofText source).line t.stop :=
    LineTable.line_mono _ (Nat.le_of_lt hlt)
  cases step_eq_ok_iff.mp hstep with
  | startTag henter => exact (orderly_enter h henter (Nat.le_refl _)).weaken hmono
  | emptyTag henter hleave =>
    have hopened := orderly_enter h henter (Nat.le_refl _)
    have hfollows' := (follows_step hfollows (.opened henter)).1
    exact (orderly_leave hfollows' hopened hleave (Nat.le_refl _)).weaken hmono
  | @endTag _ start stop _ _ hleave =>
    have hbefore : start ≤ stop - 1 := Nat.le_sub_one_of_lt hlt
    exact (orderly_leave hfollows h hleave (LineTable.line_mono _ hbefore)).weaken
      (LineTable.line_mono _ (Nat.sub_le stop 1))
  | text _ hchars => exact (orderly_characters h hchars).weaken hmono
  | cdata hchars => exact (orderly_characters h hchars).weaken hmono
  | @comment _ _ body =>
    rw [show [Event.comment (String.ofList body)].foldl step g =
      g.addComment (String.ofList body) from rfl, sketch_addComment]
    exact h.weaken hmono
  | skipped => exact h.weaken hmono

/-- The tokens of some pieces keep everything in order. -/
theorem orderly_steps {pieces : List Piece} (hspelled : ∀ p ∈ pieces, p.Spelled) {start : Nat}
    {events : List Event} (hfollows : g.sketch.Follows s)
    (h : g.sketch.Orderly ((LineTable.ofText source).line start))
    (hsteps : Steps source s (place start pieces) events s') :
    ∃ now, (events.foldl step g).sketch.Orderly now := by
  induction pieces generalizing start g s events with
  | nil =>
    cases hsteps
    exact ⟨_, h⟩
  | cons p pieces ih =>
    obtain ⟨hp, hpieces⟩ := List.forall_mem_cons.mp hspelled
    cases hsteps with
    | @step _ s₁ _ _ _ made more hstep hsteps =>
      have hlt : start < start + Text.byteSize p.spelling := Nat.lt_add_of_pos_right hp.byteSize_pos
      have hfollows' := (follows_run hfollows (Event.State.run_of_step hstep).1).1
      rw [List.foldl_append]
      exact ih hpieces hfollows' (orderly_step hfollows h hlt hstep) hsteps

end Growth

namespace Document

variable {text : String} {d : Document}

/-- The elements of a document stand in order. -/
theorem orderly_of_parse (h : parse text = .ok d) : d.root.Orderly := by
  obtain ⟨events, hevents, hd⟩ := parse_eq_ok_iff.mp h
  obtain ⟨hfault, s, hsteps, -⟩ := Event.toExcept_ofTokens_eq_ok_iff.mp hevents
  obtain ⟨pieces, hchain, -, hitems⟩ := Markup.Token.exists_pieces hfault
  rw [hitems] at hsteps
  obtain ⟨now, horderly⟩ := Growth.orderly_steps (g := .initial) hchain.spelled
    Sketch.follows_initial (Sketch.orderly_initial _) hsteps
  have hroot : (events.foldl Growth.step .initial).sketch.root = some d.root := root_of_events hd
  intro x hx
  exact horderly.finished x (by simp [Sketch.finished, hroot, hx])

end Document

/-- Every element of a document has its lines in the index, and its parent, if it has one, is in the
index too and has these lines among its own. Of two elements the one that opens later begins no
earlier, and if it is not inside the other one, it does not begin before that one has ended. -/
theorem lines_nest_and_follow (text : String) (d : Document)
    (hparse : Document.parse text = .ok d) :
    ∃ index, PositionIndex.build text = .ok index ∧
      (∀ path lines, index.get? path = some lines → 1 ≤ lines.first ∧ lines.first ≤ lines.last ∧
        (path ≠ d.root.path → ∃ parent outer, path.parent? = some parent ∧
          index.get? parent = some outer ∧ outer.contains lines = true)) ∧
      (∀ x ∈ d.elements, index.get? x.path = some x.lines) ∧
      d.elements.Pairwise fun x y => x.lines.first ≤ y.lines.first ∧
        (¬ Relation.TransGen Element.IsParent x y → x.lines.last ≤ y.lines.first) := by
  obtain ⟨hplaced, -, index, hbuild, hperm⟩ := Document.index_of_parse hparse
  have horderly := Document.orderly_of_parse hparse
  rw [Document.elements_eq]
  refine ⟨index, hbuild, ?_, fun x => PositionIndex.get?_of_perm hperm, horderly.pairwise_all⟩
  intro path lines hlines
  obtain ⟨x, hx, rfl, rfl⟩ := PositionIndex.exists_of_get? hperm hlines
  refine ⟨x.lines.one_le_first, x.lines.first_le_last, fun hne => ?_⟩
  rcases Element.exists_parent_of_mem_all hx with rfl | ⟨p, hp, hxp⟩
  · exact absurd rfl hne
  · obtain ⟨ordinal, hpath⟩ := Element.path_of_mem (hplaced.inner p hp) hxp
    exact ⟨p.path, p.lines, by rw [hpath, Path.parent?_child],
      PositionIndex.get?_of_perm hperm hp, horderly.contains_child hp hxp⟩

/-- A child that ends on the line on which the next one begins, read behind a byte order mark. -/
def adjoiningChildren : Element :=
  .mk ⟨"r", .bare "r", ⟨[⟨"r", 1⟩]⟩, .between 1 3, .empty, .empty⟩
    [.element (.mk ⟨"a", .bare "a", ⟨[⟨"r", 1⟩, ⟨"a", 1⟩]⟩, .between 1 3, .empty, .empty⟩
      [.element (.mk
        ⟨"b", .bare "b", ⟨[⟨"r", 1⟩, ⟨"a", 1⟩, ⟨"b", 1⟩]⟩, .between 2 2, .empty, .empty⟩ [])]),
     .element (.mk ⟨"c", .bare "c", ⟨[⟨"r", 1⟩, ⟨"c", 1⟩]⟩, .between 3 3, .empty, .empty⟩ [])]

/-- The two children have a line in common, and no more than that. -/
theorem lines_of_adjoining_children :
    Document.parse "\ufeff<r>\n<a>\n<b/></a><c/></r>" = .ok ⟨[], adjoiningChildren, []⟩ ∧
    ∃ index, PositionIndex.build "\ufeff<r>\n<a>\n<b/></a><c/></r>" = .ok index ∧
      (∀ path lines, index.get? path = some lines → 1 ≤ lines.first ∧ lines.first ≤ lines.last ∧
        (path ≠ adjoiningChildren.path → ∃ parent outer, path.parent? = some parent ∧
          index.get? parent = some outer ∧ outer.contains lines = true)) ∧
      (∀ x ∈ (Document.mk [] adjoiningChildren []).elements, index.get? x.path = some x.lines) ∧
      (Document.mk [] adjoiningChildren []).elements.Pairwise fun x y =>
        x.lines.first ≤ y.lines.first ∧
          (¬ Relation.TransGen Element.IsParent x y → x.lines.last ≤ y.lines.first) := by
  have hparse : Document.parse "\ufeff<r>\n<a>\n<b/></a><c/></r>" =
      .ok ⟨[], adjoiningChildren, []⟩ := by decide
  exact ⟨hparse, lines_nest_and_follow _ _ hparse⟩

end XmlCompare
