import XmlCompare.Proofs.Document.Merging

/-!
# Empty text

A text without characters may make a node of its own while a tree grows, but it never stays: either
text that follows it is put into the same node, or it is dropped with the blank text when the
element closes. So a document does not show where empty text was read.
-/

set_option autoImplicit false

namespace XmlCompare

namespace Node

/-- Nodes that are the same but for one empty text, which stands by itself in the first ones. -/
inductive Padded : List Node → List Node → Prop
  | same {nodes : List Node} : Padded nodes nodes
  | padded {before after : List Node} : Settled before →
    (∀ content, after.head? ≠ some (.text content)) →
    Padded (before ++ .text "" :: after) (before ++ after)

variable {nodes nodes' before after : List Node}

/-- Text is added to the last one of some nodes, whatever stands before it. -/
theorem appendText_append (h : after ≠ []) (content : String) (before : List Node) :
    appendText content (before ++ after) = before ++ appendText content after := by
  induction before with
  | nil => rfl
  | cons node before ih =>
    rw [List.cons_append, appendText_cons _ _ (by simp [h]), ih, List.cons_append]

/-- Where text is added, nodes begin with no text if they did not do so before. -/
theorem head?_appendText (hne : after ≠ []) (h : ∀ content, after.head? ≠ some (.text content))
    (more : String) : ∀ content, (appendText more after).head? ≠ some (.text content) := by
  obtain ⟨node, rest, rfl⟩ := List.exists_cons_of_ne_nil hne
  cases node with
  | text last => exact absurd rfl (h last)
  | element x => exact fun content => nofun
  | comment last => exact fun content => nofun

/-- An empty text takes in the text that follows it. -/
theorem Padded.appendText (h : Padded nodes nodes') (content : String) :
    Padded (appendText content nodes) (appendText content nodes') := by
  cases h with
  | same => exact .same
  | @padded before after hbefore hafter =>
    by_cases hnil : after = []
    · subst hnil
      rw [appendText_concat_text, String.empty_append, List.append_nil,
        appendText_of_settled hbefore]
      exact .same
    · rw [appendText_append (List.cons_ne_nil _ _), appendText_cons _ _ hnil,
        appendText_append hnil]
      exact .padded hbefore (head?_appendText hnil hafter content)

/-- Padded nodes stay so with a node behind them that is no text. -/
theorem Padded.concat (h : Padded nodes nodes') {node : Node} (hnode : node.text? = none) :
    Padded (nodes ++ [node]) (nodes' ++ [node]) := by
  cases h with
  | same => exact .same
  | @padded before after hbefore hafter =>
    rw [List.append_assoc, List.append_assoc, List.cons_append]
    refine .padded hbefore fun content hhead => ?_
    cases after with
    | nil =>
      obtain rfl := Option.some.inj hhead
      cases hnode
    | cons first after => exact hafter content hhead

/-- Nothing is left of an empty text where blank text is dropped. -/
theorem Padded.filter (h : Padded nodes nodes') :
    nodes.filter (!·.isBlankText) = nodes'.filter (!·.isBlankText) := by
  cases h with
  | same => rfl
  | padded =>
    rw [List.filter_append, List.filter_append, List.filter_cons_of_neg (by decide)]

end Node

/-- Open elements that are the same but for one empty text. -/
structure OpenNode.Padded (o o' : OpenNode) : Prop where
  heading : o.heading = o'.heading
  children : Node.Padded o.children o'.children

/-- Growing trees that are the same but for empty text in the elements that are open. -/
structure Growth.Padded (g g' : Growth) : Prop where
  scopes : g.scopes = g'.scopes
  stack : List.Forall₂ OpenNode.Padded g.stack g'.stack
  root : g.root = g'.root
  prolog : g.prolog = g'.prolog
  epilog : g.epilog = g'.epilog

/-- An open element is padded with nothing. -/
theorem OpenNode.Padded.refl (o : OpenNode) : o.Padded o := ⟨rfl, .same⟩

variable {o o' : OpenNode}

/-- Padded elements stay so when text is added to both. -/
theorem OpenNode.Padded.pushText (h : o.Padded o') (content : String) :
    (o.pushText content).Padded (o'.pushText content) :=
  ⟨h.heading, h.children.appendText content⟩

/-- Padded elements stay so with a child behind that is no text. -/
theorem OpenNode.Padded.push (h : o.Padded o') {node : Node} (hnode : node.text? = none) :
    (o.push node).Padded (o'.push node) :=
  ⟨h.heading, h.children.concat hnode⟩

/-- When they close, the elements are the same. -/
theorem OpenNode.Padded.close (h : o.Padded o') (lines : LineRange) :
    o.close lines = o'.close lines := by
  rw [OpenNode.close, OpenNode.close, h.heading, h.children.filter]

namespace Growth

variable {g g' : Growth}

/-- A tree is padded with nothing. -/
theorem Padded.refl (g : Growth) : g.Padded g :=
  ⟨rfl, List.forall₂_same.mpr fun o _ => .refl o, rfl, rfl, rfl⟩

/-- What comes of empty text. -/
theorem padded_addText_empty (g : Growth) : (g.addText "").Padded g := by
  obtain ⟨scopes, stack, root, prolog, epilog⟩ := g
  cases stack with
  | nil => exact .refl _
  | cons o stack =>
    have ho : (o.pushText "").Padded o := by
      refine ⟨rfl, ?_⟩
      show Node.Padded (Node.appendText "" o.children) o.children
      rcases Node.appendText_cases "" o.children with
        ⟨hsettled, happend⟩ | ⟨init, last, hlast, happend⟩
      · have hpadded : Node.Padded (o.children ++ [.text ""]) (o.children ++ []) :=
          .padded hsettled nofun
        rwa [List.append_nil, ← happend] at hpadded
      · rw [happend, hlast, String.append_empty]
        exact .same
    exact ⟨rfl, .cons ho (List.forall₂_same.mpr fun o _ => .refl o), rfl, rfl, rfl⟩

/-- Whatever happens, empty text makes no other difference. -/
theorem padded_step (h : g.Padded g') (e : Event) : (g.step e).Padded (g'.step e) := by
  obtain ⟨scopes, stack, root, prolog, epilog⟩ := g
  obtain ⟨_, stack', _, _, _⟩ := g'
  obtain ⟨rfl, hstack, rfl, rfl, rfl⟩ := h
  cases e with
  | opened e => exact ⟨rfl, .cons (.refl _) hstack, rfl, rfl, rfl⟩
  | text content =>
    cases hstack with
    | nil => exact .refl _
    | cons ho hrest => exact ⟨rfl, .cons (ho.pushText content) hrest, rfl, rfl, rfl⟩
  | comment content =>
    cases hstack with
    | nil => exact .refl _
    | cons ho hrest => exact ⟨rfl, .cons (ho.push rfl) hrest, rfl, rfl, rfl⟩
  | closed e =>
    cases hstack with
    | nil => exact .refl _
    | @cons o o' _ _ ho hrest =>
      cases hrest with
      | nil => exact ⟨rfl, .nil, congrArg some (ho.close e.lines), rfl, rfl⟩
      | @cons parent parent' _ _ hparent hrest =>
        have hpushed : (parent.push (.element (o.close e.lines))).Padded
            (parent'.push (.element (o'.close e.lines))) := by
          rw [ho.close]
          exact hparent.push rfl
        exact ⟨rfl, .cons hpushed hrest, rfl, rfl, rfl⟩

/-- Padded trees stay so over the same events. -/
theorem padded_foldl (h : g.Padded g') (events : List Event) :
    (events.foldl step g).Padded (events.foldl step g') := by
  induction events generalizing g g' with
  | nil => exact h
  | cons e events ih => exact ih (padded_step h e)

end Growth

/-- A document does not show where empty text was read. -/
theorem Document.ofEvents?_empty_text (before after : List Event) :
    ofEvents? (before ++ .text "" :: after) = ofEvents? (before ++ after) := by
  have hpadded := Growth.padded_foldl
    (Growth.padded_addText_empty (before.foldl Growth.step .initial)) after
  have hstep : (before ++ .text "" :: after).foldl Growth.step .initial =
      after.foldl Growth.step ((before.foldl Growth.step .initial).addText "") := by
    rw [List.foldl_append]
    rfl
  rw [ofEvents?, ofEvents?, hstep, List.foldl_append]
  simp only [hpadded.root, hpadded.prolog, hpadded.epilog]

end XmlCompare
