import Mathlib.Data.List.Forall2
import XmlCompare.Document.Tree

/-!
# Trees that grow in lockstep

Two trees that grow from events of the same sorts have as many open elements at any time. What is
asked of their scopes, of the elements that are open and of a root that has closed is a parameter:
text, comments and closing elements keep it if it is kept where something is pushed into an open
element and where that element closes. How an element opens depends on what is asked.
-/

set_option autoImplicit false

namespace XmlCompare.Growth

/-- Growing trees with related scopes, open elements and roots. -/
structure Lockstep (ofScopes : Scopes → Scopes → Prop) (ofOpen : OpenNode → OpenNode → Prop)
    (ofClosed : Element → Element → Prop) (g g' : Growth) : Prop where
  scopes : ofScopes g.scopes g'.scopes
  stack : List.Forall₂ ofOpen g.stack g'.stack
  root : Option.Rel ofClosed g.root g'.root

variable {ofScopes : Scopes → Scopes → Prop} {ofOpen : OpenNode → OpenNode → Prop}
  {ofClosed : Element → Element → Prop} {g g' : Growth}

/-- Growing trees stay related when text is added to both. -/
theorem Lockstep.addText (h : Lockstep ofScopes ofOpen ofClosed g g') {content content' : String}
    (htext : ∀ o o', ofOpen o o' → ofOpen (o.pushText content) (o'.pushText content')) :
    Lockstep ofScopes ofOpen ofClosed (g.addText content) (g'.addText content') := by
  obtain ⟨_, stack, _, _, _⟩ := g
  obtain ⟨_, stack', _, _, _⟩ := g'
  cases h.stack with
  | nil => exact h
  | cons ho hrest => exact ⟨h.scopes, .cons (htext _ _ ho) hrest, h.root⟩

/-- Growing trees stay related when a comment is added to both. -/
theorem Lockstep.addComment (h : Lockstep ofScopes ofOpen ofClosed g g')
    {content content' : String} (hcomment : ∀ o o', ofOpen o o' →
      ofOpen (o.push (.comment content)) (o'.push (.comment content'))) :
    Lockstep ofScopes ofOpen ofClosed (g.addComment content) (g'.addComment content') := by
  obtain ⟨_, stack, _, _, _⟩ := g
  obtain ⟨_, stack', _, _, _⟩ := g'
  cases h.stack with
  | nil =>
    -- Comments at the top are no part of the tree.
    unfold Growth.addComment
    dsimp only
    split <;> split <;> exact ⟨h.scopes, .nil, h.root⟩
  | cons ho hrest => exact ⟨h.scopes, .cons (hcomment _ _ ho) hrest, h.root⟩

/-- Growing trees stay related when an element is closed in both. -/
theorem Lockstep.closeElement (h : Lockstep ofScopes ofOpen ofClosed g g')
    {lines lines' : LineRange} (hleave : ∀ s s', ofScopes s s' → ofScopes s.leave s'.leave)
    (hclose : ∀ o o', ofOpen o o' → ofClosed (o.close lines) (o'.close lines'))
    (hpush : ∀ o o' parent parent', ofOpen o o' → ofOpen parent parent' →
      ofOpen (parent.push (.element (o.close lines))) (parent'.push (.element (o'.close lines')))) :
    Lockstep ofScopes ofOpen ofClosed (g.closeElement lines) (g'.closeElement lines') := by
  obtain ⟨_, stack, _, _, _⟩ := g
  obtain ⟨_, stack', _, _, _⟩ := g'
  have hscopes := hleave _ _ h.scopes
  cases h.stack with
  | nil => exact ⟨hscopes, .nil, h.root⟩
  | cons ho hrest =>
    cases hrest with
    | nil => exact ⟨hscopes, .nil, .some (hclose _ _ ho)⟩
    | cons hparent hrest => exact ⟨hscopes, .cons (hpush _ _ _ _ ho hparent) hrest, h.root⟩

end XmlCompare.Growth
