/-!
# Readings

A reader hands out items one after the other until it comes to the end of what it reads or to a
fault. A reading records the whole of that: the items in order, and how they end. What was handed
out before a fault is part of the reading; `toExcept` keeps it only when there is no fault.
-/

set_option autoImplicit false

namespace XmlCompare

/-- What goes on after a step that may fail ends well exactly if the step does and what follows. -/
theorem bind_eq_ok_iff {ε α β : Type} {x : Except ε α} {f : α → Except ε β} {b : β} :
    (x >>= f) = .ok b ↔ ∃ a, x = .ok a ∧ f a = .ok b := by
  cases x with
  | error fault => simp [bind, Except.bind]
  | ok a => simp [bind, Except.bind]

/-- Items of type `α` that end well or with a fault of type `ε`. -/
inductive Reading (α ε : Type)
  | done
  | failed (fault : ε)
  | item (value : α) (rest : Reading α ε)
  deriving DecidableEq, Repr

namespace Reading

variable {α ε : Type}

/-- What was read before the reading ended. -/
def items : Reading α ε → List α
  | done => []
  | failed _ => []
  | item value rest => value :: rest.items

/-- What the reading ended with, if it failed. -/
def fault? : Reading α ε → Option ε
  | done => none
  | failed fault => some fault
  | item _ rest => rest.fault?

/-- The reading with some items put in front. -/
def prepend (values : List α) (r : Reading α ε) : Reading α ε := values.foldr item r

/-- All items, if no fault came. -/
def toExcept (r : Reading α ε) : Except ε (List α) :=
  match r.fault? with
  | some fault => .error fault
  | none => .ok r.items

/-- What is put in front of a reading is read first. -/
@[simp] theorem items_prepend (values : List α) (r : Reading α ε) :
    (r.prepend values).items = values ++ r.items := by
  induction values with
  | nil => rfl
  | cons v vs ih =>
    show v :: (r.prepend vs).items = _
    rw [ih]
    rfl

/-- What is put in front of a reading does not change how it ends. -/
@[simp] theorem fault?_prepend (values : List α) (r : Reading α ε) :
    (r.prepend values).fault? = r.fault? := by
  induction values with
  | nil => rfl
  | cons v vs ih => exact ih

/-- A reading gives all its items exactly when it ends without a fault. -/
theorem toExcept_eq_ok_iff {r : Reading α ε} {values : List α} :
    r.toExcept = .ok values ↔ r.fault? = none ∧ r.items = values := by
  unfold toExcept
  cases r.fault? <;> simp

end Reading

end XmlCompare
