import XmlCompare.Name.Qualified

/-!
# Positional paths

An element is addressed by the steps that lead to it from the document. A step is a local name and
an ordinal, counted from one among the siblings of that local name. Paths are ordered step by
step, steps by name and then by ordinal, and a path comes before its extensions.
-/

set_option autoImplicit false

namespace XmlCompare

/-- One step of a path: the `ordinal`-th child with the local name `name`. -/
structure Step where
  name : String
  ordinal : Nat
  deriving DecidableEq, Repr, Inhabited

/-- The steps from the document down to an element; none for the document itself. -/
structure Path where
  steps : List Step
  deriving DecidableEq, Repr, Inhabited

namespace Step

/-- Steps are ordered by name, and by ordinal under one name. -/
def compare (a b : Step) : Ordering :=
  (Ord.compare a.name b.name).then (Ord.compare a.ordinal b.ordinal)

end Step

namespace Path

/-- The path of the document, which has no steps. -/
def document : Path := ⟨[]⟩

/-- The path of a child. Of the child's name only the local part counts. -/
def child (p : Path) (name : String) (ordinal : Nat) : Path :=
  ⟨p.steps ++ [⟨Name.localPart name, ordinal⟩]⟩

/-- The path of the parent; the document has none. -/
def parent? (p : Path) : Option Path :=
  if p.steps.isEmpty then none else some ⟨p.steps.dropLast⟩

/-- The number of steps. -/
def depth (p : Path) : Nat := p.steps.length

/-- The path of a root element: one step, with ordinal one. -/
def isDocumentElement (p : Path) : Bool :=
  match p.steps with
  | [step] => step.ordinal = 1
  | _ => false

/-- Paths are ordered step by step. -/
def compare (p q : Path) : Ordering := List.compareLex Step.compare p.steps q.steps

/-- The document has no parent. -/
@[simp] theorem parent?_document : document.parent? = none := rfl

/-- The parent of a child is what it is a child of. -/
@[simp] theorem parent?_child (p : Path) (name : String) (ordinal : Nat) :
    (p.child name ordinal).parent? = some p := by
  simp [child, parent?]

/-- The path of a child has one step more, whose name is without abbreviation. -/
theorem steps_child (p : Path) (name : String) (ordinal : Nat) :
    (p.child name ordinal).steps = p.steps ++ [⟨Name.localPart name, ordinal⟩] := rfl

/-- Paths of children of one parent differ in the local part of the name or in the ordinal. -/
@[simp] theorem child_inj {p : Path} {name name' : String} {ordinal ordinal' : Nat} :
    p.child name ordinal = p.child name' ordinal' ↔
      Name.localPart name = Name.localPart name' ∧ ordinal = ordinal' := by
  simp [child]

/-- The document is at depth zero. -/
@[simp] theorem depth_document : document.depth = 0 := rfl

/-- A child is one step deeper. -/
@[simp] theorem depth_child (p : Path) (name : String) (ordinal : Nat) :
    (p.child name ordinal).depth = p.depth + 1 := by
  simp [child, depth]

/-- The root element is at depth one. -/
theorem depth_eq_one_of_isDocumentElement {p : Path} (h : p.isDocumentElement = true) :
    p.depth = 1 := by
  rw [isDocumentElement] at h
  split at h
  · rename_i hp
    rw [depth, hp]
    rfl
  · cases h

end Path

end XmlCompare
