import Mathlib.Data.List.Induction
import XmlCompare.Path.Ordinal
import XmlCompare.Proofs.Name.History

/-!
# What an ordinal counts

The counts that give ordinals come and go with the open elements. Next to them stands a history that
forgets nothing: it numbers the elements in the order in which they are entered, the document being
number zero, and notes every name with the element in which it was entered. Every open element
counts its own notes. So the ordinal of a child is one more than the children of its name that have
been entered before while the same element was the innermost one, and no others.

An element that has been left again has no part in what is counted around it, and what is counted
around an element has no part in what is counted inside.
-/

set_option autoImplicit false

namespace XmlCompare

namespace SiblingCounts

/-- What can be done to sibling counts. -/
inductive Operation
  | enter (name : String)
  | leave
  deriving DecidableEq

/-- How many elements have been entered and not left behind an operation; one that leaves an element
leaves one of these. -/
def Operation.depthAfter? (depth : Nat) : Operation → Option Nat
  | enter _ => some (depth + 1)
  | leave =>
    match depth with
    | 0 => none
    | depth + 1 => some depth

/-- The counts behind an operation. -/
def after (c : SiblingCounts) : Operation → SiblingCounts
  | .enter name => c.enter name
  | .leave => c.leave

/-- The counts behind some operations. -/
def run (c : SiblingCounts) (operations : List Operation) : SiblingCounts :=
  operations.foldl after c

end SiblingCounts

namespace History

/-- Notes the name of a child in the innermost open element, and enters the child. -/
def follow (h : History String) : SiblingCounts.Operation → History String
  | .enter name => (h.note name).enter
  | .leave => h.leave

/-- The history of the elements of a document: nothing has been entered. -/
def ofOperations (operations : List SiblingCounts.Operation) : History String :=
  operations.foldl follow start

end History

namespace SiblingCounts

open History

/-- The number of the element that is the innermost open one behind some operations. -/
def innermost (operations : List Operation) : Nat := (ofOperations operations).inner

/-- Counts that have, in each open element, as many children of a name as have been noted in it. -/
def Tallies (c : SiblingCounts) (h : History String) : Prop :=
  List.Forall₂
    (fun number (counts : NameCounts) =>
      ∀ name, (counts.get? name).getD 0 = (h.notesIn number).count name)
    (h.inner :: h.outer) (c.inner :: c.outer)

variable {c : SiblingCounts} {h : History String}

/-- In the beginning nothing has been counted and nothing noted. -/
theorem tallies_start : document.Tallies .start := .cons (fun _ => rfl) .nil

/-- The next ordinal of a name is one more than it has been noted. -/
theorem Tallies.next_eq (hc : c.Tallies h) (name : String) :
    c.next name = (h.notesIn h.inner).count name + 1 := by
  rw [next, (List.forall₂_cons.mp hc).1 name]

/-- A child is counted in the innermost element, and in no other one. -/
theorem Tallies.count (hc : c.Tallies h) (name : String) :
    Tallies ⟨c.inner.insert name (c.next name), c.outer⟩ (h.note name) := by
  obtain ⟨hinner, houter⟩ := List.forall₂_cons.mp hc
  refine .cons (fun other => ?_) ?_
  · have hnotes : (h.note name).notesIn (h.note name).inner = name :: h.notesIn h.inner :=
      h.notesIn_note_inner name
    rw [hnotes, Dictionary.get?_insert]
    by_cases hname : name = other
    · subst hname
      simp [hc.next_eq]
    · simp [hname, hinner]
  · exact forall₂_note (P := fun notes (counts : NameCounts) =>
      ∀ other, (counts.get? other).getD 0 = notes.count other) houter name

/-- To enter is to note a name and open a scope. -/
theorem Tallies.enter (hc : c.Tallies h) (name : String) :
    (c.enter name).Tallies (h.note name).enter := by
  refine .cons (fun other => ?_) (hc.count name)
  rw [notesIn_enter_inner]
  rfl

/-- To leave is to close the innermost scope. -/
theorem Tallies.leave (hc : c.Tallies h) : c.leave.Tallies h.leave := by
  obtain ⟨counts, around⟩ := c
  cases around with
  | nil =>
    rw [leave_of_forall₂ hc]
    exact hc
  | cons counts' around =>
    unfold Tallies
    simp only [notesIn_leave]
    exact forall₂_leave hc

/-- Counts tally with the notes behind an operation. -/
theorem Tallies.after (hc : c.Tallies h) (operation : Operation) :
    (c.after operation).Tallies (h.follow operation) := by
  cases operation with
  | enter name => exact hc.enter name
  | leave => exact hc.leave

/-- Whatever is done, every open element has counted its own notes. -/
theorem tallies_run (operations : List Operation) :
    (document.run operations).Tallies (ofOperations operations) := by
  induction operations using List.reverseRecOn with
  | nil => exact tallies_start
  | append_singleton operations operation ih =>
    simpa [run, ofOperations] using ih.after operation

/-! ## Notes are calls -/

/-- An operation adds a note for a name exactly if it enters an element of that name, in the
innermost open one. -/
theorem count_notesIn_follow (h : History String) (operation : Operation) (number : Nat)
    (name : String) :
    ((h.follow operation).notesIn number).count name =
      (h.notesIn number).count name +
        if operation = .enter name ∧ h.inner = number then 1 else 0 := by
  cases operation with
  | enter entered =>
    have hnotes : (h.follow (.enter entered)).notesIn number = (h.note entered).notesIn number := rfl
    rw [hnotes]
    by_cases hnumber : h.inner = number
    · subst hnumber
      rw [notesIn_note_inner, List.count_cons]
      simp
    · rw [notesIn_note_of_ne _ _ hnumber]
      simp [hnumber]
  | leave => simp [follow, notesIn_leave]

/-- The notes of a name in an element are the calls with that name that have been made while the
element was the innermost open one. -/
theorem count_notesIn (operations : List Operation) (number : Nat) (name : String) :
    ((ofOperations operations).notesIn number).count name =
      (List.range operations.length).countP fun i =>
        operations[i]? = some (.enter name) ∧ innermost (operations.take i) = number := by
  induction operations using List.reverseRecOn with
  | nil => rfl
  | append_singleton operations operation ih =>
    have hfollow : ofOperations (operations ++ [operation]) =
        (ofOperations operations).follow operation := by simp [ofOperations]
    have hearlier : ∀ i ∈ List.range operations.length,
        (operations ++ [operation])[i]? = operations[i]? ∧
          (operations ++ [operation]).take i = operations.take i := by
      intro i hi
      have hlt := List.mem_range.mp hi
      exact ⟨List.getElem?_append_left hlt, List.take_append_of_le_length (Nat.le_of_lt hlt)⟩
    rw [hfollow, count_notesIn_follow, ih, List.length_append, List.length_singleton,
      List.range_succ, List.countP_append]
    congr 1
    · apply List.countP_congr
      intro i hi
      rw [(hearlier i hi).1, (hearlier i hi).2]
    · simp [List.countP_singleton, innermost]

/-- The next ordinal of a name is one more than the calls that have entered an element of that name
in the same open element. -/
theorem next_eq_calls (operations : List Operation) (name : String) :
    (document.run operations).next name =
      1 + (List.range operations.length).countP fun i =>
        operations[i]? = some (.enter name) ∧
          innermost (operations.take i) = innermost operations := by
  rw [(tallies_run operations).next_eq, count_notesIn, Nat.add_comm]
  rfl

/-- Where no element is open there is nothing to leave. -/
theorem leave_of_innermost {operations : List Operation} (h : innermost operations = 0) :
    (document.run operations).leave = document.run operations := by
  have houter : (ofOperations operations).outer = [] := by
    rw [List.eq_nil_iff_forall_not_mem]
    intro number hnumber
    have hlt := (List.pairwise_cons.mp (ofOperations operations).descending).1 number hnumber
    rw [show (ofOperations operations).inner = 0 from h] at hlt
    exact Nat.not_lt_zero _ hlt
  have hcounts := (List.forall₂_cons.mp (tallies_run operations)).2
  rw [houter, List.forall₂_nil_left_iff] at hcounts
  rw [leave, hcounts]

/-! ## Elements by themselves -/

/-- Operations that leave no more elements than they have entered do the same whatever is around
these. -/
theorem exists_run_of_depth {operations : List Operation} {depth depth' : Nat}
    (hdepth : operations.foldlM Operation.depthAfter? depth = some depth') (counts : NameCounts)
    {inside : List NameCounts} (hlength : inside.length = depth) :
    ∃ counts' inside', inside'.length = depth' ∧
      ∀ base, run ⟨counts, inside ++ base⟩ operations = ⟨counts', inside' ++ base⟩ := by
  induction operations generalizing depth counts inside with
  | nil => exact ⟨counts, inside, hlength.trans (Option.some.inj hdepth), fun _ => rfl⟩
  | cons operation operations ih =>
    rw [List.foldlM_cons] at hdepth
    obtain ⟨next, hnext, hdepth⟩ := Option.bind_eq_some_iff.mp hdepth
    cases operation with
    | enter name =>
      obtain rfl := Option.some.inj hnext
      let counted := counts.insert name ((counts.get? name).getD 0 + 1)
      exact @ih _ hdepth .empty (counted :: inside) (congrArg Nat.succ hlength)
    | leave =>
      cases inside with
      | nil =>
        subst hlength
        cases hnext
      | cons counts' inside =>
        subst hlength
        obtain rfl := Option.some.inj hnext
        exact ih hdepth counts' rfl

/-- Inside an element children are counted as in a document of their own. -/
theorem next_run_enter {operations : List Operation} {depth : Nat}
    (hdepth : operations.foldlM Operation.depthAfter? 0 = some depth) (c : SiblingCounts)
    (name other : String) :
    ((c.enter name).run operations).next other = (document.run operations).next other := by
  obtain ⟨counts, inside, -, hrun⟩ := @exists_run_of_depth _ _ _ hdepth .empty [] rfl
  have hinside : (c.enter name).run operations =
      ⟨counts, inside ++ (c.enter name).outer⟩ := hrun _
  have halone : document.run operations = ⟨counts, inside ++ []⟩ := hrun []
  rw [hinside, halone, next, next]

/-- What has happened inside an element makes no difference when it has been left. -/
theorem leave_run_enter {operations : List Operation}
    (hdepth : operations.foldlM Operation.depthAfter? 0 = some 0) (c : SiblingCounts)
    (name : String) : ((c.enter name).run operations).leave = (c.enter name).leave := by
  obtain ⟨counts, inside, hlength, hrun⟩ := @exists_run_of_depth _ _ _ hdepth .empty [] rfl
  obtain rfl := List.eq_nil_of_length_eq_zero hlength
  have hinside : (c.enter name).run operations = ⟨counts, (c.enter name).outer⟩ := hrun _
  rw [hinside]
  rfl

end SiblingCounts

open SiblingCounts (innermost)

/-- Whatever has been entered and left, the ordinal of a child is one more than the earlier children
of its name that were entered while the element that is the innermost open one now, or the document,
was the innermost one; where nothing is open, leaving changes nothing. And however the counts stand,
children inside an element get the ordinals they get in a document of their own, and when it has
been left everything is as if nothing had been entered in it. -/
theorem ordinals_count_siblings (operations inside : List SiblingCounts.Operation) {depth : Nat}
    (hinside : inside.foldlM SiblingCounts.Operation.depthAfter? 0 = some depth) :
    let c := SiblingCounts.document.run operations
    (∀ name, c.next name = 1 + (List.range operations.length).countP fun i =>
        operations[i]? = some (.enter name) ∧
          innermost (operations.take i) = innermost operations) ∧
      (innermost operations = 0 → c.leave = c) ∧
      ∀ name,
        (∀ other, ((c.enter name).run inside).next other =
          (SiblingCounts.document.run inside).next other) ∧
        (depth = 0 → ((c.enter name).run inside).leave = (c.enter name).leave) := by
  intro c
  refine ⟨SiblingCounts.next_eq_calls operations, SiblingCounts.leave_of_innermost, ?_⟩
  intro name
  refine ⟨SiblingCounts.next_run_enter hinside c name, ?_⟩
  rintro rfl
  exact SiblingCounts.leave_run_enter hinside c name

/-- An element with two children, of which the first has a child with the name of the second one.
Before it, the document is left to no effect. -/
def nestedSiblings : List SiblingCounts.Operation :=
  [.leave, .enter "r", .enter "c", .enter "l", .leave, .leave, .enter "l", .leave]

/-- A child with a child of its own, entered and left. -/
def childWithChild : List SiblingCounts.Operation := [.enter "c", .enter "c", .leave, .leave]

/-- The next child has the name of the first one and is the second of it. Inside, counting begins
again. -/
theorem second_child_of_nestedSiblings :
    childWithChild.foldlM SiblingCounts.Operation.depthAfter? 0 = some 0 ∧
    let c := SiblingCounts.document.run nestedSiblings
    c.next "c" = 2 ∧
      ((List.range nestedSiblings.length).countP fun i =>
        nestedSiblings[i]? = some (.enter "c") ∧
          innermost (nestedSiblings.take i) = innermost nestedSiblings) = 1 ∧
      ((c.enter "c").run childWithChild).next "c" = 2 ∧
      ((c.enter "c").run childWithChild).leave = (c.enter "c").leave := by
  have hinside : childWithChild.foldlM SiblingCounts.Operation.depthAfter? 0 = some 0 := by decide
  obtain ⟨hcalls, -, hchild⟩ := ordinals_count_siblings nestedSiblings childWithChild hinside
  have hnext : (SiblingCounts.document.run nestedSiblings).next "c" = 2 := by decide
  have hcount := hcalls "c"
  rw [hnext] at hcount
  obtain ⟨hown, hleft⟩ := hchild "c"
  exact ⟨hinside, hnext, by omega, (hown "c").trans (by decide), hleft rfl⟩

end XmlCompare
