import XmlCompare.Proofs.Markup.Nesting

/-!
# The same tokens in another text

Where tokens stand shows in the paths and lines of elements and in nothing else. So tokens that can
be followed in one text can be followed in another one, from any state in which as many elements are
open, and the events are the same but for paths and lines.

The tokens of one element begin with the opening of that element, end with its closing, and leave as
many elements open as there were before.
-/

set_option autoImplicit false

namespace XmlCompare.Event

open Markup (PlacedToken Token)
open Markup.Token (Whole)

/-- How many elements are open behind an event; one that closes is one of those that are open. -/
def depthAfter? (depth : Nat) : Event → Option Nat
  | opened _ => some (depth + 1)
  | closed _ =>
    match depth with
    | 0 => none
    | depth + 1 => some depth
  | text _ => some depth
  | comment _ => some depth

/-- Events that differ in paths and lines at most. -/
inductive Same : Event → Event → Prop
  | opened {e e' : OpenedElement} : e.name = e'.name → e.attributes = e'.attributes →
    Same (.opened e) (.opened e')
  | closed {e e' : ClosedElement} : Same (.closed e) (.closed e')
  | text {content : String} : Same (.text content) (.text content)
  | comment {content : String} : Same (.comment content) (.comment content)

namespace State

variable {source : String} {s s' r : State} {events : List Event}

/-- A move changes the depth by that of its event. -/
theorem depth_of_moves {e : Event} (h : Moves source s e s') :
    e.depthAfter? s.frames.length = some s'.frames.length := by
  cases h with
  | opened henter =>
    obtain ⟨-, -, -, -, -, rfl⟩ := enter_eq_ok_iff.mp henter
    rfl
  | closed hleave =>
    obtain ⟨frame, frames, hframes, -, -, rfl⟩ := leave_eq_ok_iff.mp hleave
    rw [hframes]
    rfl
  | text _ => rfl
  | comment => rfl

/-- The events tell how many elements are open. -/
theorem depth_of_run (h : Run source s events s') :
    events.foldlM depthAfter? s.frames.length = some s'.frames.length := by
  induction h with
  | done => rfl
  | move hmove _ ih =>
    rw [List.foldlM_cons]
    exact Option.bind_eq_some_iff.mpr ⟨_, depth_of_moves hmove, ih⟩

/-- Once an element has opened, a root has been seen. -/
theorem seenRoot_of_run (h : Run source s events s')
    (hopened : s.seenRoot = true ∨ events.filterMap opened? ≠ []) : s'.seenRoot = true := by
  induction h with
  | done => exact hopened.resolve_right (fun hne => hne rfl)
  | move hmove _ ih =>
    apply ih
    cases hmove with
    | opened henter =>
      obtain ⟨-, -, -, -, -, rfl⟩ := enter_eq_ok_iff.mp henter
      exact .inl rfl
    | closed hleave =>
      obtain ⟨frame, frames, -, -, -, rfl⟩ := leave_eq_ok_iff.mp hleave
      exact hopened
    | text _ => exact hopened
    | comment => exact hopened

/-- A run over a tag that opens has seen the root. -/
theorem seenRoot_of_steps {tokens : List PlacedToken} (h : Steps source s tokens events s')
    (htags : 0 < (tokens.filter isOpening).length) : s'.seenRoot = true := by
  obtain ⟨hrun, hopens⟩ := run_of_steps h
  refine seenRoot_of_run hrun (.inr fun hnil => ?_)
  rw [hopens.length_eq, hnil] at htags
  exact Nat.lt_irrefl _ htags

/-- Where a root has been seen, another element opens only inside an open one. -/
theorem frames_ne_nil_of_run {e : OpenedElement} (h : Run source s (.opened e :: events) s')
    (hseen : s.seenRoot = true) : s.frames ≠ [] := by
  cases h with
  | move hmove _ =>
    cases hmove with
    | opened henter =>
      obtain ⟨hfirst, -⟩ := enter_eq_ok_iff.mp henter
      intro hnil
      rw [hfirst hnil] at hseen
      cases hseen

/-- Character data does not change the depth. -/
theorem depth_of_characters {lines : LineTable} {start : Nat} {content : List Char}
    (h : s.characters lines start content = .ok events) (depth : Nat) :
    events.foldlM depthAfter? depth = some depth := by
  rcases characters_eq_ok_iff.mp h with ⟨-, rfl⟩ | ⟨-, -, rfl⟩ <;> rfl

/-- The events of a token open and close what the token does. -/
theorem depth_of_step {lines : LineTable} {t : PlacedToken}
    (h : s.step lines t = .ok (s', events)) (depth : Nat) :
    events.foldlM depthAfter? depth = t.token.depthAfter? depth := by
  cases step_eq_ok_iff.mp h with
  | startTag _ => rfl
  | emptyTag _ _ => rfl
  | endTag _ => cases depth <;> rfl
  | text _ hchars => exact depth_of_characters hchars depth
  | cdata hchars => exact depth_of_characters hchars depth
  | comment => rfl
  | skipped => rfl

/-- The events of a run change the depth as its tokens do. -/
theorem depth_of_steps {tokens : List PlacedToken} (h : Steps source s tokens events s')
    (depth : Nat) : events.foldlM depthAfter? depth =
      (tokens.map PlacedToken.token).foldlM Token.depthAfter? depth := by
  induction h generalizing depth with
  | done => rfl
  | step hstep _ ih =>
    rw [List.foldlM_append, List.map_cons, List.foldlM_cons, depth_of_step hstep]
    exact congrArg _ (funext ih)

/-! ## The events of one element -/

/-- A run over one token is one step. -/
theorem Steps.single {t : PlacedToken} (h : Steps source s [t] events s') :
    s.step (.ofText source) t = .ok (s', events) := by
  cases h with
  | step hstep hrest =>
    cases hrest
    rw [List.append_nil]
    exact hstep

/-- An element opens, what is inside it opens and closes, and it closes. -/
theorem events_of_whole {tokens : List PlacedToken} (h : Steps source s tokens events s')
    (hwhole : Whole (tokens.map PlacedToken.token)) : ∃ e inner ended,
      events = .opened e :: (inner ++ [.closed ended]) ∧ inner.foldlM depthAfter? 0 = some 0 := by
  generalize htokens : tokens.map PlacedToken.token = whole at hwhole
  cases hwhole with
  | single =>
    obtain ⟨⟨token, start, stop⟩, rest, rfl, rfl, hrest⟩ := List.map_eq_cons_iff.mp htokens
    obtain rfl := List.map_eq_nil_iff.mp hrest
    cases step_eq_ok_iff.mp h.single with
    | emptyTag _ _ => exact ⟨_, [], _, rfl, rfl⟩
  | paired hdepth =>
    obtain ⟨⟨token, start, stop⟩, rest, rfl, rfl, hrest⟩ := List.map_eq_cons_iff.mp htokens
    obtain ⟨inner, ending, rfl, rfl, hending⟩ := List.map_eq_append_iff.mp hrest
    obtain ⟨⟨token', start', stop'⟩, nothing, rfl, rfl, hnothing⟩ := List.map_eq_cons_iff.mp hending
    obtain rfl := List.map_eq_nil_iff.mp hnothing
    cases h with
    | step hstep h =>
      obtain ⟨s₁, made, more, rfl, hinner, h⟩ := h.split
      have hdepth' := depth_of_steps hinner 0
      rw [hdepth] at hdepth'
      cases step_eq_ok_iff.mp hstep with
      | startTag _ =>
        cases step_eq_ok_iff.mp h.single with
        | endTag _ => exact ⟨_, made, _, rfl, hdepth'⟩

/-- Behind an element as much is open as before it. -/
theorem frames_of_whole {tokens : List PlacedToken} (h : Steps source s tokens events s')
    (hwhole : Whole (tokens.map PlacedToken.token)) : s'.frames.length = s.frames.length := by
  have hdepth := depth_of_run (run_of_steps h).1
  rw [depth_of_steps h, hwhole.depth] at hdepth
  exact (Option.some.inj hdepth).symm

/-- Where a root has been seen, an element stands inside an open one. -/
theorem open_of_whole {tokens : List PlacedToken} (h : Steps source s tokens events s')
    (hwhole : Whole (tokens.map PlacedToken.token)) (hseen : s.seenRoot = true) :
    s.frames ≠ [] ∧ s'.frames ≠ [] ∧ s'.seenRoot = true := by
  have hrun := (run_of_steps h).1
  have hframes := frames_of_whole h hwhole
  obtain ⟨e, inner, ended, rfl, -⟩ := events_of_whole h hwhole
  have hopen := frames_ne_nil_of_run hrun hseen
  refine ⟨hopen, ?_, seenRoot_of_run hrun (.inl hseen)⟩
  rw [← List.length_pos_iff, hframes, List.length_pos_iff]
  exact hopen

/-! ## Following tokens elsewhere -/

/-- States that allow the same tokens to follow. -/
structure Same (s r : State) : Prop where
  frames : s.frames.length = r.frames.length
  seenRoot : s.seenRoot = r.seenRoot

/-- A state allows the same tokens as itself. -/
theorem Same.refl (s : State) : s.Same s := ⟨rfl, rfl⟩

/-- No element is open in a state exactly if none is open in the other. -/
theorem Same.frames_eq_nil_iff (h : s.Same r) : s.frames = [] ↔ r.frames = [] := by
  rw [← List.length_eq_zero_iff, h.frames, List.length_eq_zero_iff]

/-- An element that can open in a state can open in the other, wherever it stands. -/
theorem Same.enter {lines : LineTable} {start : Nat} {content : List Char} {e : OpenedElement}
    (h : s.Same r) (henter : s.enter lines start content = .ok (s', e)) (lines' : LineTable)
    (start' : Nat) : ∃ r' e', r.enter lines' start' content = .ok (r', e') ∧ s'.Same r' ∧
      Event.Same (.opened e) (.opened e') := by
  obtain ⟨hfirst, hattributes, hname, -, -, rfl⟩ := enter_eq_ok_iff.mp henter
  have hfirst' : r.frames = [] → r.seenRoot = false := by
    intro hnil
    rw [← h.seenRoot]
    exact hfirst (h.frames_eq_nil_iff.mpr hnil)
  let e' : OpenedElement := ⟨e.name, e.attributes,
    r.path.child e.name (r.counts.next (Name.localPart e.name)), lines'.line start'⟩
  refine ⟨⟨⟨e'.name, e'.path, e'.line⟩ :: r.frames, r.counts.enter (Name.localPart e'.name), true⟩,
    e', enter_eq_ok_iff.mpr ⟨hfirst', hattributes, hname, rfl, rfl, rfl⟩, ⟨?_, rfl⟩,
    .opened rfl rfl⟩
  rw [List.length_cons, List.length_cons, h.frames]

/-- An element that can close in a state can close in the other, wherever it stands. -/
theorem Same.leave {lines : LineTable} {stop : Nat} {ended : ClosedElement} (h : s.Same r)
    (hleave : s.leave lines stop = .ok (s', ended)) (lines' : LineTable) (stop' : Nat) :
    ∃ r' ended', r.leave lines' stop' = .ok (r', ended') ∧ s'.Same r' ∧
      Event.Same (.closed ended) (.closed ended') := by
  obtain ⟨frame, frames, hframes, -, -, rfl⟩ := leave_eq_ok_iff.mp hleave
  have hlength := h.frames
  rw [hframes] at hlength
  obtain ⟨frame', frames', hframes'⟩ := List.exists_cons_of_length_eq_add_one hlength.symm
  rw [hframes', List.length_cons, List.length_cons, Nat.add_right_cancel_iff] at hlength
  exact ⟨_, ⟨frame'.path, _⟩, leave_eq_ok_iff.mpr ⟨frame', frames', hframes', rfl, rfl, rfl⟩,
    ⟨hlength, h.seenRoot⟩, .closed⟩

/-- Character data that a state allows gives the same events in the other. -/
theorem Same.characters {lines : LineTable} {start : Nat} {content : List Char} (h : s.Same r)
    (hchars : s.characters lines start content = .ok events) (lines' : LineTable) (start' : Nat) :
    r.characters lines' start' content = .ok events := by
  rw [characters_eq_ok_iff] at hchars ⊢
  rw [Ne, ← h.frames_eq_nil_iff]
  exact hchars

/-- Events of character data have no paths and lines to differ in. -/
theorem sames_of_characters {lines : LineTable} {start : Nat} {content : List Char}
    (h : s.characters lines start content = .ok events) :
    List.Forall₂ Event.Same events events := by
  rcases characters_eq_ok_iff.mp h with ⟨-, rfl⟩ | ⟨-, -, rfl⟩
  · exact .cons .text .nil
  · exact .nil

/-- A token that can be followed in one text can be followed in another one. -/
theorem Same.step {lines : LineTable} {t t' : PlacedToken} (h : s.Same r)
    (hstep : s.step lines t = .ok (s', events)) (lines' : LineTable) (htoken : t'.token = t.token) :
    ∃ r' events', r.step lines' t' = .ok (r', events') ∧ s'.Same r' ∧
      List.Forall₂ Event.Same events events' := by
  obtain ⟨token, start', stop'⟩ := t'
  obtain rfl : token = t.token := htoken
  simp only [step_eq_ok_iff] at hstep ⊢
  cases hstep with
  | startTag henter =>
    obtain ⟨r', e', henter', hsame, hopened⟩ := h.enter henter lines' start'
    exact ⟨r', _, .startTag henter', hsame, .cons hopened .nil⟩
  | emptyTag henter hleave =>
    obtain ⟨r₁, e', henter', hsame, hopened⟩ := h.enter henter lines' start'
    obtain ⟨r', ended', hleave', hsame', hclosed⟩ := hsame.leave hleave lines' start'
    exact ⟨r', _, .emptyTag henter' hleave', hsame', .cons hopened (.cons hclosed .nil)⟩
  | endTag hleave =>
    obtain ⟨r', ended', hleave', hsame, hclosed⟩ := h.leave hleave lines' (stop' - 1)
    exact ⟨r', _, .endTag hleave', hsame, .cons hclosed .nil⟩
  | text hraw hchars =>
    exact ⟨r, events, .text hraw (h.characters hchars lines' start'), h, sames_of_characters hchars⟩
  | cdata hchars =>
    exact ⟨r, events, .cdata (h.characters hchars lines' start'), h, sames_of_characters hchars⟩
  | comment => exact ⟨r, _, .comment, h, .cons .comment .nil⟩
  | skipped => exact ⟨r, _, .skipped, h, .nil⟩

/-- Tokens that can be followed in one text can be followed in another one. -/
theorem Same.steps {tokens tokens' : List PlacedToken} (h : s.Same r)
    (hsteps : Steps source s tokens events s') (source' : String)
    (htokens : tokens'.map PlacedToken.token = tokens.map PlacedToken.token) :
    ∃ r' events', Steps source' r tokens' events' r' ∧ s'.Same r' ∧
      List.Forall₂ Event.Same events events' := by
  induction hsteps generalizing r tokens' with
  | done =>
    obtain rfl := List.map_eq_nil_iff.mp htokens
    exact ⟨r, [], .done, h, .nil⟩
  | step hstep _ ih =>
    rw [List.map_cons, List.map_eq_cons_iff] at htokens
    obtain ⟨t', tokens', rfl, htoken, htokens⟩ := htokens
    obtain ⟨r₁, made, hstep', hsame, hmade⟩ := h.step hstep (.ofText source') htoken
    obtain ⟨r', more, hsteps', hsame', hmore⟩ := ih hsame htokens
    exact ⟨r', made ++ more, .step hstep' hsteps', hsame', List.rel_append hmade hmore⟩

end State

end XmlCompare.Event
