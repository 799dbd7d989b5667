import Mathlib.Data.List.Forall2
import XmlCompare.Document.Event

/-!
# Runs of events

The events of a text are those of a run: one event after the other moves the state on, and each
of them is one of four moves. What the moves keep, a run keeps, so a statement about all texts is
proved move by move. A reading that ends well ends in a state where nothing is open and a root has
been seen.

The elements that a run opens are those of the start tags of the text, in the order of the tags.
-/

set_option autoImplicit false

namespace XmlCompare.Event

open Markup (PlacedToken PlacedFault)

/-- The element that an event opens. -/
def opened? : Event → Option OpenedElement
  | opened e => some e
  | closed _ => none
  | text _ => none
  | comment _ => none

namespace State

variable {source : String}

/-- How one event moves the state on while the text `source` is read. -/
inductive Moves (source : String) : State → Event → State → Prop
  | opened {s s' : State} {start : Nat} {content : List Char} {e : OpenedElement} :
    s.enter (.ofText source) start content = .ok (s', e) → Moves source s (.opened e) s'
  | closed {s s' : State} {stop : Nat} {e : ClosedElement} :
    s.leave (.ofText source) stop = .ok (s', e) → Moves source s (.closed e) s'
  | text {s : State} {content : String} : s.frames ≠ [] → Moves source s (.text content) s
  | comment {s : State} {content : String} : Moves source s (.comment content) s

/-- Events that move the state on one after the other. -/
inductive Run (source : String) : State → List Event → State → Prop
  | done {s : State} : Run source s [] s
  | move {s s' s'' : State} {e : Event} {events : List Event} :
    Moves source s e s' → Run source s' events s'' → Run source s (e :: events) s''

/-- One move is a run of one event. -/
theorem Run.single {s s' : State} {e : Event} (h : Moves source s e s') : Run source s [e] s' :=
  .move h .done

/-- Two runs make one if the second begins where the first ends. -/
theorem Run.append {s s' s'' : State} {before after : List Event} (h : Run source s before s')
    (h' : Run source s' after s'') : Run source s (before ++ after) s'' := by
  induction h with
  | done => exact h'
  | move hmove _ ih => exact .move hmove (ih h')

/-- What is entered: the root if nothing is open, else a child of the innermost open element. -/
theorem enter_eq_ok_iff {s s' : State} {lines : LineTable} {start : Nat} {content : List Char}
    {e : OpenedElement} :
    s.enter lines start content = .ok (s', e) ↔
      (s.frames = [] → s.seenRoot = false) ∧
      Markup.Tag.attributes content = .ok e.attributes ∧
      e.name = String.ofList (Markup.Tag.name content) ∧
      e.path = s.path.child e.name (s.counts.next (Name.localPart e.name)) ∧
      e.line = lines.line start ∧
      s' = ⟨⟨e.name, e.path, e.line⟩ :: s.frames,
        s.counts.enter (Name.localPart e.name), true⟩ := by
  obtain ⟨name, attributes, path, line⟩ := e
  unfold enter
  by_cases hroot : (s.frames.isEmpty && s.seenRoot) = true
  · have hroot' : s.frames = [] ∧ s.seenRoot = true := by simpa using hroot
    simp [hroot'.1, hroot'.2]
  · have hroot' : s.frames = [] → s.seenRoot = false := by
      intro hnil
      simpa [hnil] using hroot
    rw [if_neg hroot]
    cases hattr : Markup.Tag.attributes content with
    | error fault => simp
    | ok found =>
      simp only [Except.ok.injEq, Prod.mk.injEq, OpenedElement.mk.injEq]
      constructor
      · rintro ⟨rfl, rfl, rfl, rfl, rfl⟩
        exact ⟨hroot', rfl, rfl, rfl, rfl, rfl⟩
      · rintro ⟨-, rfl, rfl, rfl, rfl, rfl⟩
        exact ⟨rfl, rfl, rfl, rfl, rfl⟩

/-- What is left: the innermost open element, with the line it began on. -/
theorem leave_eq_ok_iff {s s' : State} {lines : LineTable} {stop : Nat} {e : ClosedElement} :
    s.leave lines stop = .ok (s', e) ↔
      ∃ frame frames, s.frames = frame :: frames ∧ e.path = frame.path ∧
        e.lines = .between frame.line (max (lines.line stop) frame.line) ∧
        s' = ⟨frames, s.counts.leave, s.seenRoot⟩ := by
  obtain ⟨path, range⟩ := e
  unfold leave
  cases hframes : s.frames with
  | nil => simp
  | cons frame frames =>
    simp only [Except.ok.injEq, Prod.mk.injEq, ClosedElement.mk.injEq, List.cons.injEq]
    constructor
    · rintro ⟨rfl, rfl, rfl⟩
      exact ⟨frame, frames, ⟨rfl, rfl⟩, rfl, rfl, rfl⟩
    · rintro ⟨frame', frames', ⟨rfl, rfl⟩, rfl, rfl, rfl⟩
      exact ⟨rfl, rfl, rfl⟩

/-- Character data is an event where an element is open, and has to be blank elsewhere. -/
theorem characters_eq_ok_iff {s : State} {lines : LineTable} {start : Nat} {content : List Char}
    {events : List Event} : s.characters lines start content = .ok events ↔
      s.frames ≠ [] ∧ events = [.text (String.ofList content)] ∨
        s.frames = [] ∧ content.all Text.isBlank = true ∧ events = [] := by
  unfold characters
  cases s.frames with
  | nil =>
    by_cases hblank : content.all Text.isBlank = true
    · simp [hblank, @eq_comm _ []]
    · simp [hblank]
  | cons frame frames => simp [@eq_comm _ [Event.text _]]

/-- What a token does to the state, and the events it makes. -/
inductive Takes (lines : LineTable) : State → PlacedToken → State → List Event → Prop
  | startTag {s s' : State} {start stop : Nat} {content : List Char} {e : OpenedElement} :
    s.enter lines start content = .ok (s', e) →
    Takes lines s ⟨.startTag content, start, stop⟩ s' [.opened e]
  | emptyTag {s s₁ s' : State} {start stop : Nat} {content : List Char} {e : OpenedElement}
    {ended : ClosedElement} : s.enter lines start content = .ok (s₁, e) →
    s₁.leave lines start = .ok (s', ended) →
    Takes lines s ⟨.emptyTag content, start, stop⟩ s' [.opened e, .closed ended]
  | endTag {s s' : State} {start stop : Nat} {name : List Char} {ended : ClosedElement} :
    s.leave lines (stop - 1) = .ok (s', ended) →
    Takes lines s ⟨.endTag name, start, stop⟩ s' [.closed ended]
  | text {s : State} {start stop : Nat} {raw content : List Char} {events : List Event} :
    Text.unescape raw = .ok content → s.characters lines start content = .ok events →
    Takes lines s ⟨.text raw, start, stop⟩ s events
  | cdata {s : State} {start stop : Nat} {content : List Char} {events : List Event} :
    s.characters lines start content = .ok events →
    Takes lines s ⟨.cdata content, start, stop⟩ s events
  | comment {s : State} {start stop : Nat} {body : List Char} :
    Takes lines s ⟨.comment body, start, stop⟩ s [.comment (String.ofList body)]
  | skipped {s : State} {start stop : Nat} : Takes lines s ⟨.skipped, start, stop⟩ s []

/-- A step succeeds exactly in one of the ways a token can be taken. -/
theorem step_eq_ok_iff {s s' : State} {lines : LineTable} {t : PlacedToken} {events : List Event} :
    s.step lines t = .ok (s', events) ↔ Takes lines s t s' events := by
  constructor
  · intro h
    obtain ⟨token, start, stop⟩ := t
    unfold step at h
    cases token with
    | startTag content =>
      obtain ⟨⟨s₁, e⟩, henter, h⟩ := bind_eq_ok_iff.mp h
      obtain ⟨rfl, rfl⟩ := Prod.mk.inj (Except.ok.inj h)
      exact .startTag henter
    | emptyTag content =>
      obtain ⟨⟨s₁, e⟩, henter, h⟩ := bind_eq_ok_iff.mp h
      obtain ⟨⟨s₂, ended⟩, hleave, h⟩ := bind_eq_ok_iff.mp h
      obtain ⟨rfl, rfl⟩ := Prod.mk.inj (Except.ok.inj h)
      exact .emptyTag henter hleave
    | endTag name =>
      obtain ⟨⟨s₁, ended⟩, hleave, h⟩ := bind_eq_ok_iff.mp h
      obtain ⟨rfl, rfl⟩ := Prod.mk.inj (Except.ok.inj h)
      exact .endTag hleave
    | text raw =>
      cases hraw : Text.unescape raw with
      | error fault => simp [hraw] at h
      | ok content =>
        simp only [hraw] at h
        obtain ⟨found, hchars, h⟩ := bind_eq_ok_iff.mp h
        obtain ⟨rfl, rfl⟩ := Prod.mk.inj (Except.ok.inj h)
        exact .text hraw hchars
    | cdata content =>
      obtain ⟨found, hchars, h⟩ := bind_eq_ok_iff.mp h
      obtain ⟨rfl, rfl⟩ := Prod.mk.inj (Except.ok.inj h)
      exact .cdata hchars
    | comment body =>
      obtain ⟨rfl, rfl⟩ := Prod.mk.inj (Except.ok.inj h)
      exact .comment
    | skipped =>
      obtain ⟨rfl, rfl⟩ := Prod.mk.inj (Except.ok.inj h)
      exact .skipped
  · intro h
    unfold step
    cases h with
    | startTag henter => exact bind_eq_ok_iff.mpr ⟨_, henter, rfl⟩
    | emptyTag henter hleave =>
      exact bind_eq_ok_iff.mpr ⟨_, henter, bind_eq_ok_iff.mpr ⟨_, hleave, rfl⟩⟩
    | endTag hleave => exact bind_eq_ok_iff.mpr ⟨_, hleave, rfl⟩
    | text hraw hchars =>
      simp only [hraw]
      exact bind_eq_ok_iff.mpr ⟨_, hchars, rfl⟩
    | cdata hchars => exact bind_eq_ok_iff.mpr ⟨_, hchars, rfl⟩
    | comment => rfl
    | skipped => rfl

/-- Character data moves nothing. -/
theorem run_of_characters (source : String) {s : State} {lines : LineTable} {start : Nat}
    {content : List Char} {events : List Event}
    (h : s.characters lines start content = .ok events) :
    Run source s events s ∧ events.filterMap opened? = [] := by
  rcases characters_eq_ok_iff.mp h with ⟨hopen, rfl⟩ | ⟨-, -, rfl⟩
  · exact ⟨.single (.text hopen), rfl⟩
  · exact ⟨.done, rfl⟩

/-- The tag that opens an element is the start tag, or the single tag, it was read from. -/
def Opens (source : String) (t : PlacedToken) (e : OpenedElement) : Prop :=
  ∃ content, (t.token = .startTag content ∨ t.token = .emptyTag content) ∧
    e.name = String.ofList (Markup.Tag.name content) ∧
    Markup.Tag.attributes content = .ok e.attributes ∧
    e.line = (LineTable.ofText source).line t.start

/-- A token that opens an element. -/
def isOpening (t : PlacedToken) : Bool :=
  match t.token with
  | .startTag _ => true
  | .emptyTag _ => true
  | _ => false

/-- The events of one token are a run, and they open an element if the token is a tag that does. -/
theorem run_of_step {s s' : State} {t : PlacedToken} {events : List Event}
    (h : s.step (.ofText source) t = .ok (s', events)) :
    Run source s events s' ∧
      List.Forall₂ (Opens source) ([t].filter isOpening) (events.filterMap opened?) := by
  cases step_eq_ok_iff.mp h with
  | startTag henter =>
    obtain ⟨-, hattr, hname, -, hline, -⟩ := enter_eq_ok_iff.mp henter
    exact ⟨.single (.opened henter), .cons ⟨_, .inl rfl, hname, hattr, hline⟩ .nil⟩
  | emptyTag henter hleave =>
    obtain ⟨-, hattr, hname, -, hline, -⟩ := enter_eq_ok_iff.mp henter
    exact ⟨.move (.opened henter) (.single (.closed hleave)),
      .cons ⟨_, .inr rfl, hname, hattr, hline⟩ .nil⟩
  | endTag hleave => exact ⟨.single (.closed hleave), .nil⟩
  | text _ hchars =>
    obtain ⟨hrun, hopened⟩ := run_of_characters source hchars
    exact ⟨hrun, hopened ▸ .nil⟩
  | cdata hchars =>
    obtain ⟨hrun, hopened⟩ := run_of_characters source hchars
    exact ⟨hrun, hopened ▸ .nil⟩
  | comment => exact ⟨.single .comment, .nil⟩
  | skipped => exact ⟨.done, .nil⟩

/-- Tokens that move the state on one after the other, with the events they make. -/
inductive Steps (source : String) : State → List PlacedToken → List Event → State → Prop
  | done {s : State} : Steps source s [] [] s
  | step {s s' s'' : State} {t : PlacedToken} {tokens : List PlacedToken}
    {events more : List Event} : s.step (.ofText source) t = .ok (s', events) →
    Steps source s' tokens more s'' → Steps source s (t :: tokens) (events ++ more) s''

/-- Two runs over tokens make one if the second begins where the first ends. -/
theorem Steps.append {s s' s'' : State} {before after : List PlacedToken}
    {events more : List Event} (h : Steps source s before events s')
    (h' : Steps source s' after more s'') :
    Steps source s (before ++ after) (events ++ more) s'' := by
  induction h with
  | done => exact h'
  | step hstep _ ih =>
    rw [List.append_assoc]
    exact .step hstep (ih h')

/-- Some tokens are followed one part after the other. -/
theorem Steps.split {s s'' : State} {before after : List PlacedToken} {events : List Event}
    (h : Steps source s (before ++ after) events s'') : ∃ s' first more,
      events = first ++ more ∧ Steps source s before first s' ∧ Steps source s' after more s'' := by
  induction before generalizing s events with
  | nil => exact ⟨s, [], events, rfl, .done, h⟩
  | cons t before ih =>
    cases h with
    | step hstep h =>
      obtain ⟨s', first, more, rfl, hbefore, hafter⟩ := ih h
      exact ⟨s', _, more, (List.append_assoc _ _ _).symm, .step hstep hbefore, hafter⟩

/-- Tokens make a run, which opens the elements of those that are tags, in their order. -/
theorem run_of_steps {s s' : State} {tokens : List PlacedToken} {events : List Event}
    (h : Steps source s tokens events s') : Run source s events s' ∧
      List.Forall₂ (Opens source) (tokens.filter isOpening) (events.filterMap opened?) := by
  induction h with
  | done => exact ⟨.done, .nil⟩
  | step hstep _ ih =>
    obtain ⟨hrun, hopens⟩ := run_of_step hstep
    obtain ⟨hrun', hopens'⟩ := ih
    refine ⟨hrun.append hrun', ?_⟩
    rw [List.filterMap_append, ← List.singleton_append, List.filter_append]
    exact List.rel_append hopens hopens'

/-- A text may end where nothing is open and a root has been seen. -/
theorem finish?_eq_none_iff {s : State} {lines : LineTable} {stop : Nat} :
    s.finish? lines stop = none ↔ s.frames = [] ∧ s.seenRoot = true := by
  unfold finish?
  cases s.frames with
  | nil => simp
  | cons frame frames => simp

end State

open State

variable {source : String}

/-- A reading gives its events exactly if its tokens can be followed to the end, to a state where
nothing is open and a root has been seen. -/
theorem toExcept_ofTokens_eq_ok_iff {stop : Nat} {s : State}
    {r : Reading PlacedToken PlacedFault} {events : List Event} :
    (ofTokens (.ofText source) stop s r).toExcept = .ok events ↔ r.fault? = none ∧
      ∃ s', Steps source s r.items events s' ∧ s'.frames = [] ∧ s'.seenRoot = true := by
  rw [Reading.toExcept_eq_ok_iff]
  induction r generalizing s events with
  | failed fault => simp [ofTokens, Reading.fault?]
  | done =>
    unfold ofTokens
    cases hfinish : s.finish? (.ofText source) stop with
    | none =>
      have hend := finish?_eq_none_iff.mp hfinish
      constructor
      · rintro ⟨-, rfl⟩
        exact ⟨rfl, s, .done, hend⟩
      · rintro ⟨-, s', hsteps, -⟩
        cases hsteps
        exact ⟨rfl, rfl⟩
    | some error =>
      constructor
      · rintro ⟨hfault, -⟩
        cases hfault
      · rintro ⟨-, s', hsteps, hend⟩
        cases hsteps
        rw [finish?_eq_none_iff.mpr hend] at hfinish
        cases hfinish
  | item t rest ih =>
    unfold ofTokens
    cases hstep : s.step (.ofText source) t with
    | error error =>
      constructor
      · rintro ⟨hfault, -⟩
        cases hfault
      · rintro ⟨-, s', hsteps, -⟩
        cases hsteps with
        | step hok _ =>
          rw [hstep] at hok
          cases hok
    | ok moved =>
      obtain ⟨s₁, made⟩ := moved
      simp only [Reading.items_prepend, Reading.fault?_prepend]
      constructor
      · rintro ⟨hfault, rfl⟩
        obtain ⟨hfault', s', hsteps, hend⟩ := ih.mp ⟨hfault, rfl⟩
        exact ⟨hfault', s', .step hstep hsteps, hend⟩
      · rintro ⟨hfault, s', hsteps, hend⟩
        cases hsteps with
        | step hok hsteps =>
          rw [hstep] at hok
          obtain ⟨rfl, rfl⟩ := Prod.mk.inj (Except.ok.inj hok)
          obtain ⟨hfault', rfl⟩ := ih.mpr ⟨hfault, s', hsteps, hend⟩
          exact ⟨hfault', rfl⟩

/-- The events of a text without faults are a run that opens the elements of the tags in order and
closes all of them. -/
theorem run_of_readAll {events : List Event} (h : (readAll source).toExcept = .ok events) :
    ∃ s, Run source .initial events s ∧ s.frames = [] ∧ s.seenRoot = true ∧
      List.Forall₂ (Opens source) ((Markup.Token.readAll source).items.filter isOpening)
        (events.filterMap opened?) := by
  obtain ⟨-, s, hsteps, hframes, hroot⟩ := toExcept_ofTokens_eq_ok_iff.mp h
  obtain ⟨hrun, hopens⟩ := run_of_steps hsteps
  exact ⟨s, hrun, hframes, hroot, hopens⟩

end XmlCompare.Event
