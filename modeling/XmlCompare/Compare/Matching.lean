import XmlCompare.Compare.Selector

/-!
# Matching siblings

Before the children of two elements are compared, every control child is paired with at most one
test child. The selectors are used one after the other, and each sees only what is still unpaired.
In a pass of a selector the control children look for a partner in turn; the search begins behind
the test child that was taken last in the pass and wraps around, so siblings that keep their order
pair up in order.
-/

set_option autoImplicit false

namespace XmlCompare

/-- Which test child each control child is paired with, by position, and the test children that
nobody is paired with, in order. -/
structure Matching where
  partners : List (Option Nat)
  unmatchedTest : List Nat
  deriving DecidableEq, Repr

namespace Matching

/-- The test children that are free, each with its position, in the order of a search that begins
at `cursor` and wraps around. -/
def searchOrder (cursor : Nat) (free : List (Element × Nat)) : List (Element × Nat) :=
  free.filter (cursor ≤ ·.2) ++ free.filter (·.2 < cursor)

/-- The position of the first free test child in search order that the selector accepts. -/
def choose (accepts : Selector) (cursor : Nat) (free : List (Element × Nat)) (control : Element) :
    Option Nat :=
  ((searchOrder cursor free).find? fun candidate => accepts control candidate.1).map Prod.snd

/-- One pass of a selector over the control children and the partners they have so far: the
partners afterwards. -/
def pass (accepts : Selector) (cursor : Nat) (free : List (Element × Nat)) :
    List (Element × Option Nat) → List (Option Nat)
  | [] => []
  | (_, some i) :: rest => some i :: pass accepts cursor free rest
  | (control, none) :: rest =>
    match choose accepts cursor free control with
    | some i => some i :: pass accepts (i + 1) (free.filter (·.2 ≠ i)) rest
    | none => none :: pass accepts cursor free rest

/-- The test children that are nobody's partner, each with its position. -/
def freeChildren (test : List Element) (partners : List (Option Nat)) : List (Element × Nat) :=
  test.zipIdx.filter fun candidate => !partners.contains (some candidate.2)

/-- The partners after a pass of a further selector. -/
def refine (control test : List Element) (partners : List (Option Nat)) (accepts : Selector) :
    List (Option Nat) :=
  pass accepts 0 (freeChildren test partners) (control.zip partners)

/-- The matching of two lists of siblings by some selectors. -/
def ofChildren (selectors : List Selector) (control test : List Element) : Matching :=
  let partners := selectors.foldl (refine control test) (control.map fun _ => none)
  ⟨partners, (freeChildren test partners).map Prod.snd⟩

/-- The test child that the control child at a position is paired with. -/
def partner? (m : Matching) (control : Nat) : Option Nat := m.partners[control]?.join

/-- The pairs, control position first, in control order. -/
def pairs (m : Matching) : List (Nat × Nat) :=
  m.partners.zipIdx.filterMap fun (partner, control) => partner.map fun test => (control, test)

/-- The control child next to which a test child without partner belongs: the partner of the
nearest paired test sibling before it, else of the nearest one behind it. -/
def anchor? (m : Matching) (test : Nat) : Option Nat :=
  let before := (m.pairs.filter (·.2 < test)).maxOn? Prod.snd
  let behind := (m.pairs.filter (test < ·.2)).minOn? Prod.snd
  (before.or behind).map Prod.fst

end Matching

end XmlCompare
