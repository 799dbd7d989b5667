import XmlCompare.Document.Index
import XmlCompare.Proofs.Document.Tracking

/-!
# Paths follow from names

The path of an element is made of names and counts of names, so events that open and close elements
of the same names in the same order give them the same paths, on whatever lines they stand.
-/

set_option autoImplicit false

namespace XmlCompare

namespace Event

/-- Events that differ in lines at most. -/
inductive Aligned : Event → Event → Prop
  | opened {e e' : OpenedElement} : e.name = e'.name → e.attributes = e'.attributes →
    e.path = e'.path → Aligned (.opened e) (.opened e')
  | closed {e e' : ClosedElement} : e.path = e'.path → Aligned (.closed e) (.closed e')
  | text {content : String} : Aligned (.text content) (.text content)
  | comment {content : String} : Aligned (.comment content) (.comment content)

/-- Events that differ in lines at most open elements with the same paths. -/
theorem paths_of_aligned {events events' : List Event} (h : List.Forall₂ Aligned events events') :
    (events.filterMap opened?).map OpenedElement.path =
      (events'.filterMap opened?).map OpenedElement.path := by
  induction h with
  | nil => rfl
  | cons he _ ih =>
    cases he with
    | opened _ _ hpath => simp [opened?, hpath, ih]
    | closed _ => exact ih
    | text => exact ih
    | comment => exact ih

/-- Events that differ in lines at most close elements with the same paths. -/
theorem keys_of_aligned {events events' : List Event} (h : List.Forall₂ Aligned events events') :
    (events.filterMap PositionIndex.entry?).map Prod.fst =
      (events'.filterMap PositionIndex.entry?).map Prod.fst := by
  induction h with
  | nil => rfl
  | cons he _ ih =>
    cases he with
    | opened _ _ _ => exact ih
    | closed hpath => simp [PositionIndex.entry?, hpath, ih]
    | text => exact ih
    | comment => exact ih

namespace State

variable {source source' : String} {s s' r r' : State}

/-- States that give the same paths to what follows. -/
structure Aligned (s r : State) : Prop where
  paths : s.frames.map Frame.path = r.frames.map Frame.path
  counts : s.counts = r.counts

/-- A state is aligned with itself. -/
theorem Aligned.refl (s : State) : s.Aligned s := ⟨rfl, rfl⟩

/-- Aligned states are at the same path. -/
theorem Aligned.path (h : s.Aligned r) : s.path = r.path := by
  have hpaths := h.paths
  unfold State.path
  cases hs : s.frames with
  | nil =>
    rw [hs, List.map_nil, eq_comm, List.map_eq_nil_iff] at hpaths
    rw [hpaths]
  | cons frame frames =>
    rw [hs, List.map_cons, eq_comm, List.map_eq_cons_iff] at hpaths
    obtain ⟨frame', frames', hr, hpath, -⟩ := hpaths
    rw [hr]
    exact hpath.symm

/-- Paths follow from names: moves that differ in paths and lines at most differ in lines only. -/
theorem Aligned.move (h : s.Aligned r) {e e' : Event} (hmove : Moves source s e s')
    (hmove' : Moves source' r e' r') (hsame : e.Same e') : e.Aligned e' ∧ s'.Aligned r' := by
  cases hsame with
  | opened hname hattributes =>
    rename_i e e'
    cases hmove with
    | opened henter =>
      cases hmove' with
      | opened henter' =>
        obtain ⟨-, -, -, hpath, -, rfl⟩ := enter_eq_ok_iff.mp henter
        obtain ⟨-, -, -, hpath', -, rfl⟩ := enter_eq_ok_iff.mp henter'
        have hpaths : e.path = e'.path := by rw [hpath, hpath', hname, h.path, h.counts]
        refine ⟨.opened hname hattributes hpaths, ?_, ?_⟩
        · rw [List.map_cons, List.map_cons, hpaths, h.paths]
        · rw [hname, h.counts]
  | closed =>
    cases hmove with
    | closed hleave =>
      cases hmove' with
      | closed hleave' =>
        obtain ⟨frame, frames, hframes, hpath, -, rfl⟩ := leave_eq_ok_iff.mp hleave
        obtain ⟨frame', frames', hframes', hpath', -, rfl⟩ := leave_eq_ok_iff.mp hleave'
        have hpaths := h.paths
        rw [hframes, hframes', List.map_cons, List.map_cons, List.cons.injEq] at hpaths
        exact ⟨.closed (by rw [hpath, hpath', hpaths.1]), hpaths.2,
          congrArg SiblingCounts.leave h.counts⟩
  | text =>
    cases hmove
    cases hmove'
    exact ⟨.text, h⟩
  | comment =>
    cases hmove
    cases hmove'
    exact ⟨.comment, h⟩

/-- Runs that differ in paths and lines at most differ in lines only. -/
theorem Aligned.run (h : s.Aligned r) {events events' : List Event} (hrun : Run source s events s')
    (hrun' : Run source' r events' r') (hsame : List.Forall₂ Event.Same events events') :
    List.Forall₂ Event.Aligned events events' := by
  induction hsame generalizing s r with
  | nil => exact .nil
  | cons he _ ih =>
    cases hrun with
    | move hmove hrun =>
      cases hrun' with
      | move hmove' hrun' =>
        obtain ⟨haligned, hnext⟩ := h.move hmove hmove' he
        exact .cons haligned (ih hnext hrun hrun')

end State

end Event

end XmlCompare
