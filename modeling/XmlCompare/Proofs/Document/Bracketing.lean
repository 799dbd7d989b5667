import XmlCompare.Proofs.Document.Tracking

/-!
# The shape of events

Whatever a text holds, its events are the beginning of comments, one element and comments again,
where an element opens, goes on with texts, comments and elements, and closes. What has come of that
so far is told by the elements that are still open: each of them has a whole number of texts,
comments and elements behind its opening, and the next one opens behind those. A state keeps just
these elements, so an element that closes is the innermost of them.

An end tag finds no open element only if the reader of the tokens lets it through, and this one
compares end tags with the start tags before them.
-/

set_option autoImplicit false

namespace XmlCompare

open Markup (PlacedToken PlacedFault SyntaxFault Token)

/-- What goes on after a step that may fail fails if the step does or what follows. -/
theorem bind_eq_error_iff {ε α β : Type} {x : Except ε α} {f : α → Except ε β} {fault : ε} :
    (x >>= f) = .error fault ↔ x = .error fault ∨ ∃ a, x = .ok a ∧ f a = .error fault := by
  cases x with
  | error fault' => simp [bind, Except.bind]
  | ok a => simp [bind, Except.bind]

namespace Event

/-- Texts, comments and whole elements, one after the other. An element opens and closes around what
stands inside it. -/
inductive IsContent : List Event → Prop
  | nil : IsContent []
  | text {content : String} {rest : List Event} : IsContent rest → IsContent (.text content :: rest)
  | comment {content : String} {rest : List Event} :
    IsContent rest → IsContent (.comment content :: rest)
  | element {e : OpenedElement} {ended : ClosedElement} {inner rest : List Event} :
    IsContent inner → IsContent rest → IsContent (.opened e :: (inner ++ .closed ended :: rest))

/-- Events that are comments and nothing else. -/
inductive IsComments : List Event → Prop
  | nil : IsComments []
  | comment {content : String} {rest : List Event} :
    IsComments rest → IsComments (.comment content :: rest)

/-- The events of a whole document: an element with comments before and behind it. -/
inductive IsDocument : List Event → Prop
  | intro {prolog inner epilog : List Event} {e : OpenedElement} {ended : ClosedElement} :
    IsComments prolog → IsContent inner → IsComments epilog →
    IsDocument (prolog ++ .opened e :: (inner ++ .closed ended :: epilog))

/-- The elements that are open behind an event, innermost first. -/
def unclosedAfter (unclosed : List OpenedElement) : Event → List OpenedElement
  | opened e => e :: unclosed
  | closed _ => unclosed.tail
  | text _ => unclosed
  | comment _ => unclosed

/-- The elements that some events open and do not close, innermost first. -/
def unclosed (events : List Event) : List OpenedElement := events.foldl unclosedAfter []

variable {events more : List Event}

/-- Content goes on with content. -/
theorem IsContent.append (h : IsContent events) (h' : IsContent more) :
    IsContent (events ++ more) := by
  induction h with
  | nil => exact h'
  | text _ ih => exact .text ih
  | comment _ ih => exact .comment ih
  | element hinner _ _ ih =>
    rw [List.cons_append, List.append_assoc, List.cons_append]
    exact .element hinner ih

/-- Comments go on with comments. -/
theorem IsComments.append (h : IsComments events) (h' : IsComments more) :
    IsComments (events ++ more) := by
  induction h with
  | nil => exact h'
  | comment _ ih => exact .comment ih

/-- What is whole leaves open what was open before. -/
theorem IsContent.foldl_unclosedAfter (h : IsContent events) (before : List OpenedElement) :
    events.foldl unclosedAfter before = before := by
  induction h generalizing before with
  | nil => rfl
  | text _ ih => exact ih before
  | comment _ ih => exact ih before
  | element _ _ ihinner ihrest =>
    rw [List.foldl_cons, List.foldl_append, ihinner, List.foldl_cons]
    exact ihrest before

/-- Comments are content. -/
theorem IsComments.isContent (h : IsComments events) : IsContent events := by
  induction h with
  | nil => exact .nil
  | comment _ ih => exact .comment ih

/-- The events of a document are content. -/
theorem IsDocument.isContent (h : IsDocument events) : IsContent events := by
  cases h with
  | intro hprolog hinner hepilog =>
    exact hprolog.isContent.append (.element hinner hepilog.isContent)

/-! ## The beginning of a document -/

/-- How far the events of a document have come: whether an element has been opened, and which ones
are open, innermost first. -/
inductive Begins : Bool → List OpenedElement → List Event → Prop
  | before {prolog : List Event} : IsComments prolog → Begins false [] prolog
  | inside {seen : Bool} {outer inner : List Event} {e : OpenedElement}
    {around : List OpenedElement} : Begins seen around outer → (around = [] → seen = false) →
    IsContent inner → Begins true (e :: around) (outer ++ .opened e :: inner)
  | behind {events : List Event} : IsDocument events → Begins true [] events

namespace Begins

variable {seen : Bool} {e : OpenedElement} {around : List OpenedElement}

/-- A document may go on with an element that opens, unless that were a second root. -/
theorem opened (h : Begins seen around events) (hfirst : around = [] → seen = false)
    (e : OpenedElement) : Begins true (e :: around) (events ++ [.opened e]) :=
  .inside h hfirst .nil

/-- What is whole goes into the innermost open element. -/
theorem append (h : Begins seen (e :: around) events) (hmore : IsContent more) :
    Begins seen (e :: around) (events ++ more) := by
  cases h with
  | inside houter hfirst hinner =>
    rw [List.append_assoc, List.cons_append]
    exact .inside houter hfirst (hinner.append hmore)

/-- Closing the root makes a document, and closing another element makes it a part of the content of
the one around it. -/
theorem closed (h : Begins seen (e :: around) events) (ended : ClosedElement) :
    Begins seen around (events ++ [.closed ended]) := by
  cases h with
  | inside houter hfirst hinner =>
    rw [List.append_assoc, List.cons_append]
    cases houter with
    | before hprolog => exact .behind (.intro hprolog hinner .nil)
    | inside houter hfirst' hinner' =>
      exact (Begins.inside houter hfirst' hinner').append (.element hinner .nil)
    -- Behind the root no element has opened.
    | behind _ => cases hfirst rfl

/-- A comment may stand anywhere. -/
theorem comment (h : Begins seen around events) (content : String) :
    Begins seen around (events ++ [.comment content]) := by
  cases h with
  | before hprolog => exact .before (hprolog.append (.comment .nil))
  | inside houter hfirst hinner =>
    exact (Begins.inside houter hfirst hinner).append (.comment .nil)
  | behind hdocument =>
    cases hdocument with
    | intro hprolog hinner hepilog =>
      simp only [List.append_assoc, List.cons_append]
      exact .behind (.intro hprolog hinner (hepilog.append (.comment .nil)))

/-- The open elements are those that the events open and do not close. -/
theorem unclosed_eq (h : Begins seen around events) : unclosed events = around := by
  induction h with
  | before hprolog => exact hprolog.isContent.foldl_unclosedAfter []
  | inside _ _ hinner ih =>
    rw [unclosed] at ih
    rw [unclosed, List.foldl_append, ih, List.foldl_cons]
    exact hinner.foldl_unclosedAfter _
  | behind hdocument => exact hdocument.isContent.foldl_unclosedAfter []

/-- The beginning of a document goes on to a whole one: whatever is open can be closed. -/
theorem exists_document (h : Begins seen around events) : ∃ more, IsDocument (events ++ more) := by
  induction around generalizing seen events with
  | nil =>
    cases h with
    | before hprolog =>
      -- There is no root yet, and any element will do.
      let e : OpenedElement := ⟨"", [], .document, 1⟩
      exact ⟨.opened e :: ([] ++ [.closed ⟨.document, .single 1⟩]), .intro hprolog .nil .nil⟩
    | behind hdocument => exact ⟨[], (List.append_nil events).symm ▸ hdocument⟩
  | cons e around ih =>
    obtain ⟨more, hdocument⟩ := ih (h.closed ⟨e.path, .single e.line⟩)
    rw [List.append_assoc] at hdocument
    exact ⟨_, hdocument⟩

end Begins

/-! ## States and events -/

namespace State

variable {source : String} {s s' s'' : State}

/-- What a state keeps of an open element. -/
def frameOf (e : OpenedElement) : Frame := ⟨e.name, e.path, e.line⟩

/-- A state that is reached with some events keeps the elements that they leave open, and knows
whether an element has been opened. -/
structure KeepsTrack (s : State) (events : List Event) : Prop where
  begins : Begins s.seenRoot (unclosed events) events
  frames : s.frames = (unclosed events).map frameOf
  /-- Elements open on lines, which are numbered from one. -/
  lines : ∀ e ∈ unclosed events, 1 ≤ e.line

/-- In the beginning nothing is open and nothing has been opened. -/
theorem keepsTrack_initial : KeepsTrack .initial [] := ⟨.before .nil, rfl, by simp [unclosed]⟩

/-- A state that has come as far as some events keeps track of them. -/
theorem KeepsTrack.of_begins {seen : Bool} {counts : SiblingCounts} {around : List OpenedElement}
    (h : Begins seen around events) (hlines : ∀ e ∈ around, 1 ≤ e.line) :
    KeepsTrack ⟨around.map frameOf, counts, seen⟩ events := by
  obtain rfl := h.unclosed_eq
  exact ⟨h, rfl, hlines⟩

/-- What closes is the innermost open element. -/
def Closes (before : List Event) (ended : ClosedElement) : Prop :=
  ∃ e around, unclosed before = e :: around ∧ ended.path = e.path ∧ ended.lines.first = e.line

/-- What closes is what was open innermost, and the state keeps track of the rest. -/
theorem KeepsTrack.leave {lines : LineTable} {stop : Nat} {ended : ClosedElement}
    (h : s.KeepsTrack events) (hleave : s.leave lines stop = .ok (s', ended)) :
    Closes events ended ∧ s'.KeepsTrack (events ++ [.closed ended]) := by
  obtain ⟨frame, frames, hframes, hpath, hlines, rfl⟩ := leave_eq_ok_iff.mp hleave
  have hbegins := h.begins
  have hnumbers := h.lines
  rw [h.frames] at hframes
  obtain ⟨e, around, hunclosed, rfl, rfl⟩ := List.map_eq_cons_iff.mp hframes
  rw [hunclosed] at hbegins hnumbers
  obtain ⟨hnumber, hnumbers⟩ := List.forall_mem_cons.mp hnumbers
  refine ⟨⟨e, around, hunclosed, hpath, ?_⟩, .of_begins (hbegins.closed ended) hnumbers⟩
  rw [hlines]
  exact (LineRange.between_of_le hnumber (Nat.le_max_right _ _)).1

/-- A state keeps track of an element that opens. -/
theorem KeepsTrack.enter {start : Nat} {content : List Char} {e : OpenedElement}
    (h : s.KeepsTrack events) (henter : s.enter (.ofText source) start content = .ok (s', e)) :
    s'.KeepsTrack (events ++ [.opened e]) := by
  obtain ⟨hfirst, -, -, -, hline, rfl⟩ := enter_eq_ok_iff.mp henter
  have hnumber : 1 ≤ e.line := hline ▸ LineTable.one_le_line_ofText source start
  have hfirst' : unclosed events = [] → s.seenRoot = false := fun hnil =>
    hfirst (by rw [h.frames, hnil, List.map_nil])
  rw [h.frames]
  exact .of_begins (h.begins.opened hfirst' e) (List.forall_mem_cons.mpr ⟨hnumber, h.lines⟩)

/-- Where nothing opens or closes, the state keeps what it has kept. -/
theorem KeepsTrack.stay (h : s.KeepsTrack events)
    (hbegins : Begins s.seenRoot (unclosed events) (events ++ more)) :
    s.KeepsTrack (events ++ more) := by
  refine ⟨?_, ?_, ?_⟩ <;> rw [hbegins.unclosed_eq]
  · exact hbegins
  · exact h.frames
  · exact h.lines

/-- A state keeps track of the event that moves it on. -/
theorem KeepsTrack.move {e : Event} (h : s.KeepsTrack events) (hmove : Moves source s e s') :
    s'.KeepsTrack (events ++ [e]) := by
  cases hmove with
  | opened henter => exact h.enter henter
  | closed hleave => exact (h.leave hleave).2
  | text hopen =>
    refine h.stay ?_
    rw [h.frames, Ne, List.map_eq_nil_iff] at hopen
    obtain ⟨e, around, hunclosed⟩ := List.exists_cons_of_ne_nil hopen
    have hbegins := h.begins
    rw [hunclosed] at hbegins ⊢
    exact hbegins.append (.text .nil)
  | comment => exact h.stay (h.begins.comment _)

/-- A state keeps track over a whole run. -/
theorem KeepsTrack.run (h : s.KeepsTrack events) (hrun : Run source s more s') :
    s'.KeepsTrack (events ++ more) := by
  induction hrun generalizing events with
  | done =>
    rw [List.append_nil]
    exact h
  | move hmove _ ih =>
    have hnext := ih (h.move hmove)
    rwa [List.append_assoc] at hnext

/-- A run goes through one part after the other. -/
theorem Run.split {before after : List Event} (h : Run source s (before ++ after) s'') :
    ∃ s', Run source s before s' ∧ Run source s' after s'' := by
  induction before generalizing s with
  | nil => exact ⟨s, .done, h⟩
  | cons e before ih =>
    cases h with
    | move hmove hrest =>
      obtain ⟨s', hbefore, hafter⟩ := ih hrest
      exact ⟨s', .move hmove hbefore, hafter⟩

/-- In a run every element that closes is the innermost open one. -/
theorem closes_of_run {before after : List Event} {ended : ClosedElement}
    (h : Run source .initial (before ++ .closed ended :: after) s) : Closes before ended := by
  obtain ⟨s₁, hbefore, hafter⟩ := h.split
  cases hafter with
  | move hmove _ =>
    cases hmove with
    | closed hleave => exact ((keepsTrack_initial.run hbefore).leave hleave).1

end State

open State

/-- The events of any reading of tokens are a run, whether it ends well or not. If it does, the run
ends where nothing is open and a root has been seen. -/
theorem exists_run_of_ofTokens (source : String) (stop : Nat) (s : State)
    (r : Reading PlacedToken PlacedFault) :
    ∃ s', Run source s (ofTokens (.ofText source) stop s r).items s' ∧
      ((ofTokens (.ofText source) stop s r).fault? = none →
        s'.frames = [] ∧ s'.seenRoot = true) := by
  induction r generalizing s with
  | failed fault => exact ⟨s, .done, fun hnone => by cases hnone⟩
  | done =>
    unfold ofTokens
    cases hfinish : s.finish? (.ofText source) stop with
    | none => exact ⟨s, .done, fun _ => finish?_eq_none_iff.mp hfinish⟩
    | some error => exact ⟨s, .done, fun hnone => by cases hnone⟩
  | item t rest ih =>
    unfold ofTokens
    cases hstep : s.step (.ofText source) t with
    | error error => exact ⟨s, .done, fun hnone => by cases hnone⟩
    | ok moved =>
      obtain ⟨s₁, made⟩ := moved
      obtain ⟨s', hrun, hend⟩ := ih s₁
      simp only [Reading.items_prepend, Reading.fault?_prepend]
      exact ⟨s', (run_of_step hstep).1.append hrun, hend⟩

end Event

/-! ## End tags without start tags -/

namespace Markup.Token

/-- A token that cannot be read is no matter of start tags. -/
theorem ne_strayEndTag_of_readOne {start : Nat} {first : Char} {cs : List Char}
    {fault : PlacedFault} (h : readOne start first cs = .error fault) :
    fault.fault ≠ .strayEndTag := by
  unfold readOne readMarkup readDeclaration readInstruction at h
  repeat' split at h
  all_goals cases h
  all_goals exact SyntaxFault.noConfusion

/-- Reading tokens finds no stray end tag. -/
theorem ne_strayEndTag_of_readFrom (c : Text.Cursor) :
    ∀ fault ∈ (readFrom c).fault?, fault.fault ≠ .strayEndTag := by
  fun_induction readFrom c with
  | case1 => nofun
  | case2 c first cs hrest fault hfault =>
    intro found hfound
    obtain rfl := Option.some.inj hfound
    exact ne_strayEndTag_of_readOne hfault
  | case3 c first cs hrest token next hread hshorter ih => exact ih

variable {names names' : List (List Char)} {r : Reading PlacedToken PlacedFault}

/-- The check of end tags has faults of its own. -/
theorem ne_strayEndTag_of_matchTags (h : ∀ fault ∈ r.fault?, fault.fault ≠ .strayEndTag) :
    ∀ fault ∈ (matchTags names r).fault?, fault.fault ≠ .strayEndTag := by
  induction r generalizing names with
  | done => nofun
  | failed fault => exact h
  | item t rest ih =>
    unfold matchTags
    split
    · exact ih h
    · split
      · intro fault hfault
        obtain rfl := Option.some.inj hfault
        exact SyntaxFault.noConfusion
      · split
        · exact ih h
        · intro fault hfault
          obtain rfl := Option.some.inj hfault
          exact SyntaxFault.noConfusion
    · exact ih h

/-- The check of end tags lets one through only if it has the name of the innermost start tag that
is open. -/
theorem exists_names_of_matchTags (names : List (List Char))
    (r : Reading PlacedToken PlacedFault) : ∃ names',
      ((matchTags names r).items.map PlacedToken.token).foldlM namesAfter? names = some names' := by
  induction r generalizing names with
  | done => exact ⟨names, rfl⟩
  | failed fault => exact ⟨names, rfl⟩
  | item t rest ih =>
    cases hnames : namesAfter? names t.token with
    | none =>
      obtain ⟨fault, hfailed⟩ := matchTags_of_none hnames rest
      rw [hfailed]
      exact ⟨names, rfl⟩
    | some next =>
      obtain ⟨names', hrest⟩ := ih next
      rw [matchTags_of_some hnames, Reading.items, List.map_cons, List.foldlM_cons]
      exact ⟨names', Option.bind_eq_some_iff.mpr ⟨next, hnames, hrest⟩⟩

/-- There are as many open elements as there are names of them. -/
theorem depthAfter?_of_namesAfter? {t : Token} (h : namesAfter? names t = some names') :
    depthAfter? names.length t = some names'.length := by
  cases t with
  | endTag name =>
    cases names with
    | nil => cases h
    | cons innermost names =>
      rw [namesAfter?, Option.ite_none_right_eq_some] at h
      obtain rfl := Option.some.inj h.2
      rfl
  | _ =>
    obtain rfl := Option.some.inj h
    rfl

end Markup.Token

namespace Event

open Markup.Token (namesAfter? depthAfter?_of_namesAfter?)

namespace State

variable {s : State} {lines : LineTable}

/-- What keeps an element from opening is no fault of the markup. -/
theorem ne_markup_of_enter {start : Nat} {content : List Char} {error : ParseError}
    (h : s.enter lines start content = .error error) (fault : SyntaxFault) :
    error.fault ≠ .markup fault := by
  unfold enter at h
  repeat' split at h
  all_goals cases h
  all_goals exact DocumentFault.noConfusion

/-- What is wrong with character data is no fault of the markup. -/
theorem ne_markup_of_characters {start : Nat} {content : List Char} {error : ParseError}
    (h : s.characters lines start content = .error error) (fault : SyntaxFault) :
    error.fault ≠ .markup fault := by
  unfold characters at h
  repeat' split at h
  all_goals cases h
  all_goals exact DocumentFault.noConfusion

/-- What is wrong at the end is no fault of the markup. -/
theorem ne_markup_of_finish? {stop : Nat} {error : ParseError}
    (h : s.finish? lines stop = some error) (fault : SyntaxFault) :
    error.fault ≠ .markup fault := by
  unfold finish? at h
  repeat' split at h
  all_goals cases h
  all_goals exact DocumentFault.noConfusion

/-- Closing an element fails only where none is open. -/
theorem frames_eq_nil_of_leave {stop : Nat} {error : ParseError}
    (h : s.leave lines stop = .error error) : s.frames = [] := by
  unfold leave at h
  split at h
  · assumption
  · cases h

/-- Following a token fails for the sake of start tags only at an end tag where nothing is open. -/
theorem frames_eq_nil_of_step {t : PlacedToken} {error : ParseError} {fault : SyntaxFault}
    (h : s.step lines t = .error error) (hfault : error.fault = .markup fault) :
    (∃ name, t.token = .endTag name) ∧ s.frames = [] := by
  obtain ⟨token, start, stop⟩ := t
  unfold step at h
  cases token with
  | startTag content =>
    rcases bind_eq_error_iff.mp h with henter | ⟨moved, -, h⟩
    · exact absurd hfault (ne_markup_of_enter henter fault)
    · cases h
  | emptyTag content =>
    rcases bind_eq_error_iff.mp h with henter | ⟨⟨s₁, e⟩, henter, h⟩
    · exact absurd hfault (ne_markup_of_enter henter fault)
    · rcases bind_eq_error_iff.mp h with hleave | ⟨moved, -, h⟩
      · obtain ⟨-, -, -, -, -, rfl⟩ := enter_eq_ok_iff.mp henter
        cases frames_eq_nil_of_leave hleave
      · cases h
  | endTag name =>
    rcases bind_eq_error_iff.mp h with hleave | ⟨moved, -, h⟩
    · exact ⟨⟨name, rfl⟩, frames_eq_nil_of_leave hleave⟩
    · cases h
  | text raw =>
    cases hraw : Text.unescape raw with
    | error entity =>
      simp only [hraw] at h
      cases h
      cases hfault
    | ok content =>
      simp only [hraw] at h
      rcases bind_eq_error_iff.mp h with hchars | ⟨events, -, h⟩
      · exact absurd hfault (ne_markup_of_characters hchars fault)
      · cases h
  | cdata content =>
    rcases bind_eq_error_iff.mp h with hchars | ⟨events, -, h⟩
    · exact absurd hfault (ne_markup_of_characters hchars fault)
    · cases h
  | comment body => cases h
  | skipped => cases h

/-- Where the open elements are those with the names, a token that the names allow can be followed
without an end tag too many. -/
theorem ne_strayEndTag_of_step {names names' : List (List Char)} {t : PlacedToken}
    {error : ParseError} (h : s.step lines t = .error error)
    (hnames : namesAfter? names t.token = some names') (hlength : names.length = s.frames.length) :
    error.fault ≠ .markup .strayEndTag := by
  intro hfault
  obtain ⟨⟨name, htoken⟩, hframes⟩ := frames_eq_nil_of_step h hfault
  rw [hframes, List.length_nil, List.length_eq_zero_iff] at hlength
  rw [htoken, hlength] at hnames
  cases hnames

/-- A token keeps as many names as elements open. -/
theorem length_frames_of_step {source : String} {s' : State} {names names' : List (List Char)}
    {t : PlacedToken} {events : List Event} (h : s.step (.ofText source) t = .ok (s', events))
    (hnames : namesAfter? names t.token = some names') (hlength : names.length = s.frames.length) :
    names'.length = s'.frames.length := by
  have hdepth := depth_of_run (run_of_step h).1
  rw [depth_of_step h, ← hlength, depthAfter?_of_namesAfter? hnames] at hdepth
  exact Option.some.inj hdepth

end State

/-- If a reader of tokens lets an end tag through only with the name of the innermost start tag that
is open, and has no such fault itself, no end tag is met where nothing is open. -/
theorem ne_strayEndTag_of_ofTokens {source : String} {stop : Nat} {s : State}
    {names names' : List (List Char)} {r : Reading PlacedToken PlacedFault}
    (hfaults : ∀ fault ∈ r.fault?, fault.fault ≠ .strayEndTag)
    (hnames : (r.items.map PlacedToken.token).foldlM namesAfter? names = some names')
    (hlength : names.length = s.frames.length) :
    ∀ error ∈ (ofTokens (.ofText source) stop s r).fault?,
      error.fault ≠ .markup .strayEndTag := by
  induction r generalizing s names with
  | done =>
    unfold ofTokens
    cases hfinish : s.finish? (.ofText source) stop with
    | none =>
      intro found hfound
      cases hfound
    | some error =>
      intro found hfound
      obtain rfl := Option.some.inj hfound
      exact State.ne_markup_of_finish? hfinish .strayEndTag
  | failed fault =>
    intro error herror hfault
    obtain rfl := Option.some.inj herror
    exact hfaults fault rfl (DocumentFault.markup.inj hfault)
  | item t rest ih =>
    rw [Reading.items, List.map_cons, List.foldlM_cons] at hnames
    obtain ⟨next, hnext, hrest⟩ := Option.bind_eq_some_iff.mp hnames
    unfold ofTokens
    cases hstep : s.step (.ofText source) t with
    | error error =>
      intro found hfound
      obtain rfl := Option.some.inj hfound
      exact State.ne_strayEndTag_of_step hstep hnext hlength
    | ok moved =>
      obtain ⟨s₁, made⟩ := moved
      simp only [Reading.fault?_prepend]
      exact ih hfaults hrest (State.length_frames_of_step hstep hnext hlength)

end Event

open Event in
/-- Whatever a text holds, its events are the beginning of the events of a whole document, and all
of them if the reading ends well. Every element that closes is the innermost open one: it has the
path of that, and its lines begin on the line where that has opened. No end tag is met where no
element is open. -/
theorem events_are_bracketed (source : String) :
    (∃ more, IsDocument ((Event.readAll source).items ++ more)) ∧
      (∀ before ended after, (Event.readAll source).items = before ++ .closed ended :: after →
        ∃ e around, unclosed before = e :: around ∧ ended.path = e.path ∧
          ended.lines.first = e.line) ∧
      ((Event.readAll source).fault? = none → IsDocument (Event.readAll source).items) ∧
      ∀ error ∈ (Event.readAll source).fault?, error.fault ≠ .markup .strayEndTag := by
  obtain ⟨s, hrun, hend⟩ := exists_run_of_ofTokens source
    (Text.byteSize (Token.dropByteOrderMark source.toList)) .initial (Token.readAll source)
  have htrack := State.keepsTrack_initial.run hrun
  refine ⟨htrack.begins.exists_document, ?_, ?_, ?_⟩
  · intro before ended after hsplit
    rw [← Event.readAll, hsplit] at hrun
    exact State.closes_of_run hrun
  · intro hfault
    obtain ⟨hframes, hseen⟩ := hend hfault
    have hbegins := htrack.begins
    rw [htrack.frames, List.map_eq_nil_iff] at hframes
    rw [hseen, hframes] at hbegins
    cases hbegins with
    | behind hdocument => exact hdocument
  · obtain ⟨names, hnames⟩ := Token.exists_names_of_matchTags []
      (Token.readFrom ⟨0, Token.dropByteOrderMark source.toList⟩)
    exact ne_strayEndTag_of_ofTokens
      (Token.ne_strayEndTag_of_matchTags (Token.ne_strayEndTag_of_readFrom _)) hnames rfl

end XmlCompare
