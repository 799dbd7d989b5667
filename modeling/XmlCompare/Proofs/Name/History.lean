import Mathlib.Data.List.Forall2
import XmlCompare.Name.Scope

/-!
# What scopes remember

Scopes keep the bindings that are in force and forget the others. A history forgets nothing: it
numbers the scopes in the order in which they open, and notes every binding with the number of the
scope that is the innermost one at that time. What an abbreviation stands for can be read off the
history: it is the address that was noted last in the innermost open scope with a note of the
abbreviation.

A scope that has been closed has no part in that any more. So whatever happens between the opening
and the closing of a scope, names expand as they did before it was opened.
-/

set_option autoImplicit false

namespace XmlCompare

/-- What has been noted while scopes opened and closed. Scopes are numbered in the order in which
they open; the outermost one has the number zero and is never closed. -/
structure History (α : Type) where
  /-- All notes, latest first, each with the number of the scope in which it was made. -/
  notes : List (Nat × α)
  /-- The innermost open scope. -/
  inner : Nat
  /-- The open scopes around it, from the inside out. -/
  outer : List Nat
  /-- The scope that was opened last. -/
  opened : Nat
  /-- A scope inside another one has been opened later. -/
  descending : (inner :: outer).Pairwise (· > ·)
  inner_le_opened : inner ≤ opened
  noted_le_opened : ∀ n ∈ notes, n.1 ≤ opened

namespace History

variable {α κ ν : Type}

/-- Only the outermost scope is open, and nothing has been noted. -/
def start : History α := ⟨[], 0, [], 0, List.pairwise_singleton _ _, Nat.le_refl 0, nofun⟩

/-- Makes a note in the innermost open scope. -/
def note (h : History α) (a : α) : History α where
  notes := (h.inner, a) :: h.notes
  inner := h.inner
  outer := h.outer
  opened := h.opened
  descending := h.descending
  inner_le_opened := h.inner_le_opened
  noted_le_opened := List.forall_mem_cons.mpr ⟨h.inner_le_opened, h.noted_le_opened⟩

/-- The number of an open scope is among those that have been given. -/
theorem le_opened_of_open {h : History α} {scope : Nat} (hopen : scope ∈ h.inner :: h.outer) :
    scope ≤ h.opened := by
  rcases List.mem_cons.mp hopen with rfl | houter
  · exact h.inner_le_opened
  · have hlt := (List.pairwise_cons.mp h.descending).1 scope houter
    exact Nat.le_of_lt (Nat.lt_of_lt_of_le hlt h.inner_le_opened)

/-- Opens a scope. -/
def enter (h : History α) : History α where
  notes := h.notes
  inner := h.opened + 1
  outer := h.inner :: h.outer
  opened := h.opened + 1
  descending := List.pairwise_cons.mpr
    ⟨fun _ hopen => Nat.lt_succ_of_le (le_opened_of_open hopen), h.descending⟩
  inner_le_opened := Nat.le_refl _
  noted_le_opened := fun n hn => Nat.le_succ_of_le (h.noted_le_opened n hn)

/-- Closes the innermost open scope, unless it is the outermost one. -/
def leave (h : History α) : History α :=
  match houter : h.outer with
  | [] => h
  | inner :: outer =>
    { notes := h.notes
      inner := inner
      outer := outer
      opened := h.opened
      descending := houter ▸ (List.pairwise_cons.mp h.descending).2
      inner_le_opened := le_opened_of_open (List.mem_cons_of_mem _ (by simp [houter]))
      noted_le_opened := h.noted_le_opened }

/-- The notes that were made in a scope, latest first. -/
def notesIn (h : History α) (scope : Nat) : List α :=
  (h.notes.filter (·.1 = scope)).map Prod.snd

/-- A value that was noted last for a key in the innermost open scope with a note for that key. -/
def Latest (h : History (κ × ν)) (key : κ) (value : ν) : Prop :=
  ∃ inside scope around later earlier, h.inner :: h.outer = inside ++ scope :: around ∧
    (∀ i ∈ inside, ∀ n ∈ h.notesIn i, n.1 ≠ key) ∧
    h.notesIn scope = later ++ (key, value) :: earlier ∧ ∀ n ∈ later, n.1 ≠ key

/-! ## Where notes are found -/

/-- The outermost scope stays open. -/
theorem leave_of_nil {h : History α} (houter : h.outer = []) : h.leave = h := by
  unfold leave
  split
  · rfl
  · rename_i hcons
    rw [houter] at hcons
    cases hcons

/-- Closing a scope goes back to the one around it and keeps all notes. -/
theorem leave_of_cons {h : History α} {inner : Nat} {outer : List Nat}
    (houter : h.outer = inner :: outer) :
    h.leave.inner = inner ∧ h.leave.outer = outer ∧ h.leave.notes = h.notes := by
  unfold leave
  split
  · rename_i hnil
    rw [houter] at hnil
    cases hnil
  · rename_i hcons
    rw [houter] at hcons
    obtain ⟨rfl, rfl⟩ := List.cons.inj hcons
    exact ⟨rfl, rfl, rfl⟩

/-- Closing a scope keeps the notes in every scope. -/
theorem notesIn_leave (h : History α) (scope : Nat) : h.leave.notesIn scope = h.notesIn scope := by
  cases houter : h.outer with
  | nil => rw [leave_of_nil houter]
  | cons inner outer => simp [notesIn, (leave_of_cons houter).2.2]

/-- A note is made in the innermost open scope. -/
theorem notesIn_note_inner (h : History α) (a : α) :
    (h.note a).notesIn h.inner = a :: h.notesIn h.inner := by
  simp [notesIn, note]

/-- A note is made in no other scope. -/
theorem notesIn_note_of_ne (h : History α) (a : α) {scope : Nat} (hne : h.inner ≠ scope) :
    (h.note a).notesIn scope = h.notesIn scope := by
  simp [notesIn, note, hne]

/-- In the scope that opens nothing has been noted. -/
theorem notesIn_enter_inner (h : History α) : h.enter.notesIn h.enter.inner = [] := by
  rw [notesIn, List.map_eq_nil_iff, List.filter_eq_nil_iff]
  intro n hn
  have hle : n.1 ≤ h.opened := h.noted_le_opened n hn
  have hne : n.1 ≠ h.enter.inner := Nat.ne_of_lt (Nat.lt_succ_of_le hle)
  simpa using hne

/-- What is latest is found by looking through the open scopes from the inside out. -/
theorem latest_iff [BEq κ] [LawfulBEq κ] {h : History (κ × ν)} {key : κ} {value : ν} :
    h.Latest key value ↔
      (h.inner :: h.outer).findSome? (fun scope => (h.notesIn scope).lookup key) = some value := by
  rw [List.findSome?_eq_some_iff]
  simp only [List.lookup_eq_some_iff, List.lookup_eq_none_iff, bne_iff_ne, ne_comm (a := key)]
  constructor
  · rintro ⟨inside, scope, around, later, earlier, hopen, hinside, hnotes, hlater⟩
    exact ⟨inside, scope, around, hopen, ⟨later, earlier, hnotes, hlater⟩, hinside⟩
  · rintro ⟨inside, scope, around, hopen, ⟨later, earlier, hnotes, hlater⟩, hinside⟩
    exact ⟨inside, scope, around, later, earlier, hopen, hinside, hnotes, hlater⟩

/-! ## What is kept beside each open scope -/

section Beside

variable {β : Type} {h : History α} {b b' : β} {bs : List β}

/-- A note changes nothing around the innermost scope. -/
theorem forall₂_note {P : List α → β → Prop}
    (houter : List.Forall₂ (fun scope b => P (h.notesIn scope) b) h.outer bs) (a : α) :
    List.Forall₂ (fun scope b => P ((h.note a).notesIn scope) b) h.outer bs := by
  -- The scopes around the innermost one are others, so their notes stay.
  have hne : ∀ scope ∈ h.outer, h.inner ≠ scope := fun scope hscope =>
    Nat.ne_of_gt ((List.pairwise_cons.mp h.descending).1 scope hscope)
  refine ((List.forall₂_and_left _ _).mpr ⟨hne, houter⟩).imp ?_
  rintro scope b ⟨hscope, hb⟩
  rwa [h.notesIn_note_of_ne a hscope]

/-- Where one scope is open, it stays open. -/
theorem leave_of_forall₂ {R : Nat → β → Prop} (hopen : List.Forall₂ R (h.inner :: h.outer) [b]) :
    h.leave = h :=
  leave_of_nil (List.forall₂_nil_right_iff.mp (List.forall₂_cons.mp hopen).2)

/-- What is kept beside a scope goes when the scope is closed. -/
theorem forall₂_leave {R : Nat → β → Prop}
    (hopen : List.Forall₂ R (h.inner :: h.outer) (b :: b' :: bs)) :
    List.Forall₂ R (h.leave.inner :: h.leave.outer) (b' :: bs) := by
  obtain ⟨-, houter⟩ := List.forall₂_cons.mp hopen
  obtain ⟨scope, scopes, -, -, hscopes⟩ := List.forall₂_cons_right_iff.mp houter
  obtain ⟨hinner, houter', -⟩ := leave_of_cons hscopes
  rwa [hinner, houter', ← hscopes]

end Beside

end History

namespace Scopes

/-- What can be done to scopes. -/
inductive Operation
  | enter (declarations : List (String × String))
  | bind (abbreviation uri : String)
  | leave
  deriving DecidableEq

/-- How many scopes have been opened and not closed behind an operation; one that closes a scope
closes one of these. -/
def Operation.depthAfter? (depth : Nat) : Operation → Option Nat
  | enter _ => some (depth + 1)
  | bind _ _ => some depth
  | leave =>
    match depth with
    | 0 => none
    | depth + 1 => some depth

/-- The scopes behind an operation. -/
def after (s : Scopes) : Operation → Scopes
  | .enter declarations => s.enter declarations
  | .bind abbreviation uri => s.bind abbreviation uri
  | .leave => s.leave

/-- The scopes behind some operations. -/
def run (s : Scopes) (operations : List Operation) : Scopes := operations.foldl after s

end Scopes

namespace History

/-- The history of the scopes of a document: `xml` is bound from the start. -/
def document : History (String × String) := start.note ("xml", Scopes.xmlNamespace)

/-- Notes what an operation binds, in the scope in which it binds it. -/
def after (h : History (String × String)) : Scopes.Operation → History (String × String)
  | .enter declarations => declarations.foldl note h.enter
  | .bind abbreviation uri => h.note (abbreviation, uri)
  | .leave => h.leave

/-- The history behind some operations. -/
def run (h : History (String × String)) (operations : List Scopes.Operation) :
    History (String × String) := operations.foldl after h

end History

namespace Scopes

open History

/-- Scopes that bind in each open scope what has been noted last in it. -/
def Recalls (s : Scopes) (h : History (String × String)) : Prop :=
  List.Forall₂
    (fun number (scope : Declarations) => ∀ p, scope.get? p = (h.notesIn number).lookup p)
    (h.inner :: h.outer) (s.inner :: s.outer)

variable {s : Scopes} {h : History (String × String)}

/-- To bind is to make a note. -/
theorem Recalls.bind (hs : s.Recalls h) (p uri : String) :
    (s.bind p uri).Recalls (h.note (p, uri)) := by
  obtain ⟨hinner, houter⟩ := List.forall₂_cons.mp hs
  refine .cons (fun q => ?_) ?_
  · have hnotes : (h.note (p, uri)).notesIn (h.note (p, uri)).inner =
        (p, uri) :: h.notesIn h.inner := h.notesIn_note_inner (p, uri)
    show (s.inner.insert p uri).get? q = _
    rw [Dictionary.get?_insert, hnotes, List.lookup_cons, hinner q]
    by_cases hq : p = q
    · rw [if_pos hq, beq_iff_eq.mpr hq.symm]
    · rw [if_neg hq, beq_eq_false_iff_ne.mpr (Ne.symm hq)]
  · exact forall₂_note (P := fun notes (scope : Declarations) =>
      ∀ q, scope.get? q = notes.lookup q) houter (p, uri)

/-- In the beginning the scopes bind what the history has noted. -/
theorem recalls_document : document.Recalls .document := by
  have hstart : Recalls ⟨Dictionary.empty, []⟩ History.start := .cons (fun _ => rfl) .nil
  exact hstart.bind "xml" xmlNamespace

/-- The scope of an element begins empty, and its declarations are bound in it one by one. -/
theorem enter_eq (s : Scopes) (declarations : List (String × String)) :
    s.enter declarations = declarations.foldl (fun s d => s.bind d.1 d.2) (s.enter []) := by
  suffices hfold : ∀ scope : Declarations,
      Scopes.mk (scope.insertMany declarations) (s.inner :: s.outer) =
        declarations.foldl (fun s d => s.bind d.1 d.2) (Scopes.mk scope (s.inner :: s.outer)) from
    hfold .empty
  induction declarations with
  | nil => exact fun _ => rfl
  | cons d declarations ih => exact fun scope => ih (scope.insert d.1 d.2)

/-- To enter is to open a scope and note the declarations in it. -/
theorem Recalls.enter (hs : s.Recalls h) (declarations : List (String × String)) :
    (s.enter declarations).Recalls (declarations.foldl note h.enter) := by
  have hempty : (s.enter []).Recalls h.enter := by
    refine .cons (fun p => ?_) hs
    rw [notesIn_enter_inner]
    rfl
  rw [enter_eq]
  generalize s.enter [] = s' at hempty
  generalize h.enter = h' at hempty
  induction declarations generalizing s' h' with
  | nil => exact hempty
  | cons d declarations ih => exact ih _ _ (hempty.bind d.1 d.2)

/-- To leave is to close the innermost scope. -/
theorem Recalls.leave (hs : s.Recalls h) : s.leave.Recalls h.leave := by
  obtain ⟨scope, around⟩ := s
  cases around with
  | nil =>
    rw [leave_of_forall₂ hs]
    exact hs
  | cons scope' around =>
    unfold Recalls
    simp only [notesIn_leave]
    exact forall₂_leave hs

/-- Whatever is done, the scopes bind what the history tells. -/
theorem Recalls.run (hs : s.Recalls h) (operations : List Operation) :
    (s.run operations).Recalls (h.run operations) := by
  induction operations generalizing s h with
  | nil => exact hs
  | cons operation operations ih =>
    refine ih ?_
    cases operation with
    | enter declarations => exact hs.enter declarations
    | bind p uri => exact hs.bind p uri
    | leave => exact hs.leave

/-- What an abbreviation stands for is what has been noted last for it. -/
theorem Recalls.resolve_eq_some_iff (hs : s.Recalls h) (p uri : String) :
    s.resolve p = some uri ↔ h.Latest p uri := by
  rw [latest_iff, Scopes.resolve]
  have hfound : (s.inner :: s.outer).findSome? (·.get? p) =
      (h.inner :: h.outer).findSome? fun scope => (h.notesIn scope).lookup p := by
    unfold Recalls at hs
    generalize s.inner :: s.outer = scopes at hs
    generalize h.inner :: h.outer = numbers at hs
    induction hs with
    | nil => rfl
    | cons hscope _ ih => rw [List.findSome?_cons, List.findSome?_cons, hscope p, ih]
  rw [hfound]

/-! ## Scopes that are closed again -/

/-- Operations that close no more scopes than they have opened leave what is around these alone. -/
theorem exists_run_of_depth {operations : List Operation} {depth depth' : Nat}
    (hdepth : operations.foldlM Operation.depthAfter? depth = some depth')
    (base : List Declarations) (scope : Declarations) {inside : List Declarations}
    (hlength : inside.length = depth) :
    ∃ scope' inside', Scopes.run ⟨scope, inside ++ base⟩ operations = ⟨scope', inside' ++ base⟩ ∧
      inside'.length = depth' := by
  induction operations generalizing depth scope inside with
  | nil => exact ⟨scope, inside, rfl, hlength.trans (Option.some.inj hdepth)⟩
  | cons operation operations ih =>
    rw [List.foldlM_cons] at hdepth
    obtain ⟨next, hnext, hdepth⟩ := Option.bind_eq_some_iff.mp hdepth
    cases operation with
    | enter declarations =>
      obtain rfl := Option.some.inj hnext
      exact @ih _ hdepth _ (scope :: inside) (congrArg Nat.succ hlength)
    | bind p uri =>
      obtain rfl := Option.some.inj hnext
      exact ih hdepth _ hlength
    | leave =>
      cases inside with
      | nil =>
        subst hlength
        cases hnext
      | cons scope' inside =>
        subst hlength
        obtain rfl := Option.some.inj hnext
        exact ih hdepth _ rfl

/-- When a scope is closed, everything is as it was before it was opened. -/
theorem leave_run_enter {operations : List Operation}
    (hdepth : operations.foldlM Operation.depthAfter? 0 = some 0) (s : Scopes)
    (declarations : List (String × String)) :
    ((s.enter declarations).run operations).leave = s := by
  obtain ⟨scope, inside, hrun, hlength⟩ :=
    @exists_run_of_depth _ _ _ hdepth (s.inner :: s.outer) (.ofList declarations) [] rfl
  obtain rfl := List.eq_nil_of_length_eq_zero hlength
  exact congrArg Scopes.leave hrun

end Scopes

/-- Whatever has been done to the scopes of a document, an abbreviation stands for the address to
which it was bound last in the innermost open scope that binds it, and for nothing if there is none.
And when a scope is closed that was opened with some declarations, and in which scopes have been
opened and closed again, then every abbreviation, every name of an element and every name of an
attribute means what it meant before the scope was opened. -/
theorem names_mean_what_was_bound_last (operations : List Scopes.Operation)
    (declarations : List (String × String)) (inside : List Scopes.Operation)
    (hinside : inside.foldlM Scopes.Operation.depthAfter? 0 = some 0) :
    let s := Scopes.document.run operations
    let later := ((s.enter declarations).run inside).leave
    (∀ p uri, s.resolve p = some uri ↔ (History.document.run operations).Latest p uri) ∧
      (∀ p, later.resolve p = s.resolve p) ∧
      (∀ name, later.elementName name = s.elementName name) ∧
      ∀ name, later.attributeName name = s.attributeName name := by
  intro s later
  have hlater : later = s := Scopes.leave_run_enter hinside s declarations
  rw [hlater]
  exact ⟨(Scopes.recalls_document.run operations).resolve_eq_some_iff, fun _ => rfl, fun _ => rfl,
    fun _ => rfl⟩

/-- An abbreviation is bound in the document, twice in an element, and again in the document when
the element has been closed, and the document not. -/
def reboundAbbreviation : List Scopes.Operation :=
  [.bind "a" "u", .enter [("a", "v"), ("a", "w")], .leave, .leave, .bind "a" "x"]

/-- An element that binds an abbreviation, behind another binding. -/
def bindingElement : List Scopes.Operation := [.bind "b" "y", .enter [("a", "z")], .leave]

/-- The abbreviation stands for the last address, and still does behind an element that bound it
otherwise. -/
theorem rebound_abbreviation_means_last :
    bindingElement.foldlM Scopes.Operation.depthAfter? 0 = some 0 ∧
    let s := Scopes.document.run reboundAbbreviation
    let later := ((s.enter [("a", "v")]).run bindingElement).leave
    s.resolve "a" = some "x" ∧ (History.document.run reboundAbbreviation).Latest "a" "x" ∧
      later.resolve "a" = some "x" ∧ later.elementName "a:i" = s.elementName "a:i" ∧
      later.attributeName "b:i" = s.attributeName "b:i" := by
  have hinside : bindingElement.foldlM Scopes.Operation.depthAfter? 0 = some 0 := by decide
  obtain ⟨hlatest, hresolve, helement, hattribute⟩ :=
    names_mean_what_was_bound_last reboundAbbreviation [("a", "v")] bindingElement hinside
  have hbound : (Scopes.document.run reboundAbbreviation).resolve "a" = some "x" := by decide
  exact ⟨hinside, hbound, (hlatest "a" "x").mp hbound, (hresolve "a").trans hbound, helement "a:i",
    hattribute "b:i"⟩

end XmlCompare
