import Mathlib.Logic.Function.Iterate
import XmlCompare.Document.Tree
import XmlCompare.Proofs.Document.Growth
import XmlCompare.Proofs.Document.Lockstep
import XmlCompare.Proofs.Document.Removal
import XmlCompare.Proofs.Document.Tracking
import XmlCompare.Proofs.Text.Words

/-!
# A tree that grows without one element

Two trees grow side by side from the same events, but in one of them an element opens and closes
that the other one lacks. Where it stands, the text before it and the text behind it are two nodes;
in the other tree they are one. Blank text goes when the element around it closes, so the two may
lose different nodes. As long as the texts meet in blanks, the words stay the same, and the one tree
without the element agrees with the other.
-/

set_option autoImplicit false

namespace XmlCompare

open Text (Rejoined unlessBlank words words_rejoined)

namespace Node

/-- The characters of the text among some nodes that is not blank. -/
def keptText (nodes : List Node) : List Char :=
  nodes.flatMap fun node => node.text?.elim [] fun content => unlessBlank content.toList

/-- The text of the first node comes first, unless it is blank. -/
theorem keptText_cons (node : Node) (nodes : List Node) : keptText (node :: nodes) =
    (node.text?.elim [] fun content => unlessBlank content.toList) ++ keptText nodes :=
  List.flatMap_cons

/-- What is left of texts when the blank ones are dropped. -/
theorem toList_join_kept (nodes : List Node) :
    (String.join ((nodes.filter (!·.isBlankText)).filterMap text?)).toList = keptText nodes := by
  rw [String.toList_join]
  induction nodes with
  | nil => rfl
  | cons node rest ih =>
    rw [keptText_cons, ← ih]
    cases node with
    | element e => rfl
    | comment content => rfl
    | text content =>
      by_cases hblank : Text.isBlankText content = true
      · have hnone : unlessBlank content.toList = [] := if_pos hblank
        simp [isBlankText, text?, hblank, hnone]
      · have hall : unlessBlank content.toList = content.toList := if_neg hblank
        simp [isBlankText, text?, hblank, hall]

/-- Text goes to the end, past a node that is not the last one. -/
theorem appendText_cons (content : String) (node : Node) {rest : List Node} (h : rest ≠ []) :
    appendText content (node :: rest) = node :: appendText content rest := by
  obtain ⟨next, rest, rfl⟩ := List.exists_cons_of_ne_nil h
  cases node <;> rfl

/-- Nodes of two trees of which the second lacks the element at a path. Where it lacks the element,
there is a hole. -/
inductive Thinned (p : Path) (holed : Prop) : List Node → List Node → Prop
  | nil : Thinned p holed [] []
  | text {content : String} {nodes nodes' : List Node} : Thinned p holed nodes nodes' →
    Thinned p holed (.text content :: nodes) (.text content :: nodes')
  | comment {content : String} {nodes nodes' : List Node} : Thinned p holed nodes nodes' →
    Thinned p holed (.comment content :: nodes) (.comment content :: nodes')
  | element {a b : Element} {nodes nodes' : List Node} : a.path ≠ p → (a.without p).Agree b →
    Thinned p holed nodes nodes' → Thinned p holed (.element a :: nodes) (.element b :: nodes')
  | hole {x : Element} {before behind joined : String} {nodes nodes' : List Node} : holed →
    x.path = p → Rejoined before.toList behind.toList joined.toList →
    Thinned p holed nodes nodes' →
    Thinned p holed (.text before :: .element x :: .text behind :: nodes) (.text joined :: nodes')

variable {p : Path} {holed : Prop} {nodes nodes' more more' : List Node}

/-- There are no nodes on the one side exactly if there are none on the other. -/
theorem Thinned.nil_iff (h : Thinned p holed nodes nodes') : nodes = [] ↔ nodes' = [] := by
  cases h <;> simp

/-- Nodes that are thinned stay so with more of them behind. -/
theorem Thinned.append (h : Thinned p holed nodes nodes') (h' : Thinned p holed more more') :
    Thinned p holed (nodes ++ more) (nodes' ++ more') := by
  induction h with
  | nil => exact h'
  | text _ ih => exact .text ih
  | comment _ ih => exact .comment ih
  | element hne hagree _ ih => exact .element hne hagree ih
  | hole hholed hx hjoined _ ih => exact .hole hholed hx hjoined ih

/-- Nodes that are thinned stay so when text is added to both. -/
theorem Thinned.appendText (h : Thinned p holed nodes nodes') (content : String) :
    Thinned p holed (appendText content nodes) (appendText content nodes') := by
  induction h with
  | nil => exact .text .nil
  | @text last nodes nodes' hrest ih =>
    by_cases hnil : nodes = []
    · obtain rfl := hnil
      obtain rfl := hrest.nil_iff.mp rfl
      exact .text .nil
    · rw [appendText_cons _ _ hnil, appendText_cons _ _ (hrest.nil_iff.not.mp hnil)]
      exact .text ih
  | comment _ ih => exact .comment ih
  | element hne hagree _ ih => exact .element hne hagree ih
  | @hole x before behind joined nodes nodes' hholed hx hjoined hrest ih =>
    by_cases hnil : nodes = []
    · obtain rfl := hnil
      obtain rfl := hrest.nil_iff.mp rfl
      refine .hole hholed hx ?_ .nil
      rw [String.toList_append, String.toList_append]
      exact hjoined.append content.toList
    · rw [appendText_cons _ _ (hrest.nil_iff.not.mp hnil)]
      have hbehind : Node.appendText content (.text before :: .element x :: .text behind :: nodes) =
          .text before :: .element x :: .text behind :: Node.appendText content nodes := by
        rw [← appendText_cons content (.text behind) hnil]
        rfl
      rw [hbehind]
      exact .hole hholed hx hjoined ih

/-- Nodes without a hole stay thinned where a hole is allowed. -/
theorem Thinned.weaken (h : Thinned p False nodes nodes') : Thinned p holed nodes nodes' := by
  induction h with
  | nil => exact .nil
  | text _ ih => exact .text ih
  | comment _ ih => exact .comment ih
  | element hne hagree _ ih => exact .element hne hagree ih
  | hole hfalse => exact hfalse.elim

/-- A hole is made where an element comes in between two texts. -/
theorem Thinned.dig {x : Element} {before behind joined : String} (hx : x.path = p)
    (hjoined : Rejoined before.toList behind.toList joined.toList)
    (h : Thinned p False nodes nodes') :
    Thinned p True (Node.appendText behind (Node.appendText before nodes ++ [.element x]))
      (Node.appendText joined nodes') := by
  have hbehind : ∀ nodes : List Node, Node.appendText behind (nodes ++ [.element x]) =
      nodes ++ [.element x, .text behind] := by
    intro nodes
    induction nodes with
    | nil => rfl
    | cons node rest ih =>
      rw [List.cons_append, appendText_cons _ _ (by simp), ih]
      rfl
  rw [hbehind]
  induction h with
  | nil => exact .hole trivial hx hjoined .nil
  | @text last nodes nodes' hrest ih =>
    by_cases hnil : nodes = []
    · obtain rfl := hnil
      obtain rfl := hrest.nil_iff.mp rfl
      refine .hole trivial hx ?_ .nil
      rw [String.toList_append, String.toList_append]
      exact hjoined.prepend last.toList
    · rw [appendText_cons _ _ hnil, appendText_cons _ _ (hrest.nil_iff.not.mp hnil)]
      exact .text ih
  | comment _ ih => exact .comment ih
  | element hne hagree _ ih => exact .element hne hagree ih
  | hole hfalse => exact hfalse.elim

/-- The elements that are there agree. -/
theorem Thinned.elements (h : Thinned p holed nodes nodes') :
    List.Forall₂ (fun a b => (a.without p).Agree b)
      ((nodes.filterMap element?).filter (·.path ≠ p)) (nodes'.filterMap element?) := by
  induction h with
  | nil => exact .nil
  | text _ ih => exact ih
  | comment _ ih => exact ih
  | element hne hagree _ ih =>
    simp only [List.filterMap_cons, element?]
    rw [List.filter_cons_of_pos (by simpa using hne)]
    exact .cons hagree ih
  | hole _ hx _ _ ih =>
    simp only [List.filterMap_cons, element?]
    rw [List.filter_cons_of_neg (by simpa using hx)]
    exact ih

/-- The words are the same on both sides, whatever comes before them. -/
theorem Thinned.words_keptText (h : Thinned p holed nodes nodes') (before : List Char) :
    words (before ++ keptText nodes) = words (before ++ keptText nodes') := by
  induction h generalizing before with
  | nil => rfl
  | @text content _ _ _ ih =>
    rw [keptText_cons, keptText_cons, ← List.append_assoc, ← List.append_assoc]
    exact ih _
  | comment _ ih => exact ih before
  | element _ _ _ ih => exact ih before
  | @hole x first second joined nodes nodes' _ _ hjoined _ ih =>
    have hparts := words_rejoined hjoined before (keptText nodes)
    have hrest := ih (before ++ unlessBlank joined.toList)
    simp only [List.append_assoc] at hparts hrest
    exact hparts.trans hrest

end Node

/-- Elements that close have the same text if the text among their nodes that is not blank has the
same words. -/
theorem OpenNode.textContent_close {o o' : OpenNode}
    (h : words (Node.keptText o.children) = words (Node.keptText o'.children))
    (lines lines' : LineRange) : (o.close lines).textContent = (o'.close lines').textContent := by
  show Text.normalized (String.join ((o.children.filter (!·.isBlankText)).filterMap Node.text?)) =
    Text.normalized (String.join ((o'.children.filter (!·.isBlankText)).filterMap Node.text?))
  simp only [Text.normalized, Text.normalize, Node.toList_join_kept, h]

/-- Open elements of two trees of which the second lacks the element at a path. -/
structure OpenNode.Thinned (p : Path) (holed : Prop) (o o' : OpenNode) : Prop where
  expanded : o.heading.expanded = o'.heading.expanded
  attributes : o.heading.attributes = o'.heading.attributes
  path : o.heading.path ≠ p
  children : Node.Thinned p holed o.children o'.children

/-- An open element without a hole stays thinned where a hole is allowed. -/
theorem OpenNode.Thinned.weaken {p : Path} {holed : Prop} {o o' : OpenNode}
    (h : o.Thinned p False o') : o.Thinned p holed o' :=
  ⟨h.expanded, h.attributes, h.path, h.children.weaken⟩

/-- Without the element the one tree agrees with the other when an element of both closes. -/
theorem OpenNode.Thinned.close {p : Path} {holed : Prop} {o o' : OpenNode}
    (h : o.Thinned p holed o') (lines lines' : LineRange) :
    ((o.close lines).without p).Agree (o'.close lines') := by
  refine Element.agree_iff.mpr ⟨⟨?_, ?_, ?_⟩, ?_⟩
  · rw [Element.expanded, Element.heading_without]
    exact h.expanded
  · intro name
    rw [Element.attributes, Element.heading_without]
    exact congrArg (fun found => (found.get? name).map Attribute.value) h.attributes
  · have hwords := h.children.words_keptText []
    rw [List.nil_append, List.nil_append] at hwords
    rw [Element.textContent_without]
    exact OpenNode.textContent_close hwords lines lines'
  · rw [Element.childElements_without, List.forall₂_map_left_iff, childElements_close,
      childElements_close]
    exact h.children.elements

/-- Growing trees of which the second lacks the element at a path. -/
structure Growth.Thinned (p : Path) (holed : Prop) (g g' : Growth) : Prop where
  scopes : g.scopes = g'.scopes
  stack : List.Forall₂ (OpenNode.Thinned p holed) g.stack g'.stack
  root : Option.Rel (fun a b => (a.without p).Agree b) g.root g'.root

namespace Growth

variable {p : Path} {holed : Prop} {g g' : Growth}

/-- In the beginning there is nothing to lack. -/
theorem thinned_initial (p : Path) (holed : Prop) : Growth.initial.Thinned p holed .initial :=
  ⟨rfl, .nil, .none⟩

/-- To be thinned is to be related part by part. -/
theorem thinned_iff_lockstep : g.Thinned p holed g' ↔
    Lockstep Eq (OpenNode.Thinned p holed) (fun a b => (a.without p).Agree b) g g' :=
  ⟨fun h => ⟨h.scopes, h.stack, h.root⟩, fun h => ⟨h.scopes, h.stack, h.root⟩⟩

/-- Growing trees stay thinned when text is added to both. -/
theorem Thinned.addText (h : g.Thinned p holed g') (content : String) :
    (g.addText content).Thinned p holed (g'.addText content) := by
  rw [thinned_iff_lockstep] at h ⊢
  exact h.addText fun _ _ ho =>
    ⟨ho.expanded, ho.attributes, ho.path, ho.children.appendText content⟩

/-- Growing trees stay thinned when a comment is added to both. -/
theorem Thinned.addComment (h : g.Thinned p holed g') (content : String) :
    (g.addComment content).Thinned p holed (g'.addComment content) := by
  rw [thinned_iff_lockstep] at h ⊢
  exact h.addComment fun _ _ ho =>
    ⟨ho.expanded, ho.attributes, ho.path, ho.children.append (.comment .nil)⟩

/-- Growing trees stay thinned when an element at another path opens in both. -/
theorem Thinned.openElement (h : g.Thinned p holed g') {e e' : OpenedElement}
    (hname : e.name = e'.name) (hattributes : e.attributes = e'.attributes) (hpath : e.path ≠ p) :
    (g.openElement e).Thinned p holed (g'.openElement e') := by
  unfold Growth.openElement Heading.ofOpened
  rw [hname, hattributes, h.scopes]
  exact ⟨rfl, .cons ⟨rfl, rfl, hpath, .nil⟩ h.stack, h.root⟩

/-- Growing trees stay thinned when an element is closed in both. -/
theorem Thinned.closeElement (h : g.Thinned p holed g') (lines lines' : LineRange) :
    (g.closeElement lines).Thinned p holed (g'.closeElement lines') := by
  rw [thinned_iff_lockstep] at h ⊢
  refine h.closeElement (fun _ _ hs => congrArg Scopes.leave hs)
    (fun _ _ ho => ho.close lines lines') ?_
  intro o o' parent parent' ho hparent
  exact ⟨hparent.expanded, hparent.attributes, hparent.path,
    hparent.children.append (.element ho.path (ho.close lines lines') .nil)⟩

/-- One event grows the trees in the same way. -/
theorem Thinned.step (h : g.Thinned p holed g') {e e' : Event} (hsame : e.Same e')
    (hpath : ∀ x ∈ e.opened?, x.path ≠ p) : (g.step e).Thinned p holed (g'.step e') := by
  cases hsame with
  | opened hname hattributes => exact h.openElement hname hattributes (hpath _ rfl)
  | closed => exact h.closeElement _ _
  | text => exact h.addText _
  | comment => exact h.addComment _

/-- Growing trees stay thinned over the same events, as long as nothing opens at the path. -/
theorem Thinned.steps (h : g.Thinned p holed g') {events events' : List Event}
    (hsame : List.Forall₂ Event.Same events events')
    (hpath : ∀ x ∈ events.filterMap Event.opened?, x.path ≠ p) :
    (events.foldl Growth.step g).Thinned p holed (events'.foldl Growth.step g') := by
  induction hsame generalizing g g' with
  | nil => exact h
  | @cons e e' events events' he _ ih =>
    refine ih (h.step he ?_) ?_
    · intro x hx
      exact hpath x (List.mem_filterMap.mpr ⟨e, List.mem_cons_self, hx⟩)
    · intro x hx
      obtain ⟨y, hy, hyx⟩ := List.mem_filterMap.mp hx
      exact hpath x (List.mem_filterMap.mpr ⟨y, List.mem_cons_of_mem _ hy, hyx⟩)

/-! ## While the element is open -/

/-- A tree that has grown from `outer` by an element with the given heading that is still open, with
`depth` elements open inside it. -/
structure Within (g outer : Growth) (heading : Heading) (depth : Nat) : Prop where
  stack : ∃ inside o, g.stack = inside ++ o :: outer.stack ∧ inside.length = depth ∧
    o.heading = heading
  scopes : Scopes.leave^[depth + 1] g.scopes = outer.scopes
  root : g.root = outer.root

variable {outer : Growth} {heading : Heading} {depth depth' : Nat}

/-- A tree in which an element has just opened is within that element. -/
theorem within_openElement (outer : Growth) (e : OpenedElement) :
    (outer.openElement e).Within outer (Heading.ofOpened outer.scopes e) 0 :=
  ⟨⟨[], _, rfl, rfl, rfl⟩, rfl, rfl⟩

/-- Text goes to the innermost open element. -/
theorem step_text {o : OpenNode} {rest : List OpenNode} (hstack : g.stack = o :: rest)
    (content : String) :
    g.step (.text content) = { g with stack := o.pushText content :: rest } := by
  unfold Growth.step Growth.addText
  rw [hstack]

/-- What goes into the innermost open element leaves the others alone. -/
theorem Within.touch (h : g.Within outer heading depth) {top top' : OpenNode}
    {rest : List OpenNode} (hstack : g.stack = top :: rest) (hstack' : g'.stack = top' :: rest)
    (hheading : top'.heading = top.heading) (hscopes : g'.scopes = g.scopes)
    (hroot : g'.root = g.root) : g'.Within outer heading depth := by
  obtain ⟨⟨inside, o, hsplit, hlength, ho⟩, hleave, hroot'⟩ := h
  rw [hstack] at hsplit
  refine ⟨?_, by rw [hscopes, hleave], by rw [hroot, hroot']⟩
  cases inside with
  | nil =>
    obtain ⟨rfl, rfl⟩ := List.cons.inj hsplit
    exact ⟨[], top', hstack', hlength, by rw [hheading, ho]⟩
  | cons first inside =>
    obtain ⟨rfl, rfl⟩ := List.cons.inj hsplit
    exact ⟨top' :: inside, o, hstack', hlength, ho⟩

/-- Within an element there is one that is open. -/
theorem Within.exists_top (h : g.Within outer heading depth) :
    ∃ top rest, g.stack = top :: rest := by
  obtain ⟨⟨inside, o, hstack, -⟩, -⟩ := h
  rw [hstack]
  exact List.exists_cons_of_ne_nil (by simp)

/-- What happens inside the element leaves alone what is around it. -/
theorem Within.step {e : Event} (h : g.Within outer heading depth)
    (hdepth : e.depthAfter? depth = some depth') : (g.step e).Within outer heading depth' := by
  obtain ⟨top, rest, hstack⟩ := h.exists_top
  cases e with
  | opened e =>
    obtain rfl := Option.some.inj hdepth
    obtain ⟨⟨inside, o, hsplit, hlength, ho⟩, hleave, hroot⟩ := h
    refine ⟨⟨⟨Heading.ofOpened g.scopes e, []⟩ :: inside, o, ?_, ?_, ho⟩, ?_, hroot⟩
    · rw [List.cons_append, ← hsplit]
      rfl
    · rw [List.length_cons, hlength]
    · rw [Function.iterate_succ_apply]
      exact hleave
  | closed ended =>
    cases depth with
    | zero => cases hdepth
    | succ depth =>
      obtain rfl := Option.some.inj hdepth
      obtain ⟨⟨inside, o, hsplit, hlength, ho⟩, hleave, hroot⟩ := h
      obtain ⟨first, inside, rfl⟩ := List.exists_cons_of_length_eq_add_one hlength
      rw [hstack, List.cons_append] at hsplit
      obtain ⟨rfl, rfl⟩ := List.cons.inj hsplit
      have hleft : Within { g with scopes := g.scopes.leave, stack := inside ++ o :: outer.stack }
          outer heading depth :=
        ⟨⟨inside, o, rfl, Nat.succ.inj hlength, ho⟩, hleave, hroot⟩
      obtain ⟨parent, around, haround⟩ := hleft.exists_top
      have hclosed : g.step (.closed ended) = { g with
          scopes := g.scopes.leave,
          stack := parent.push (.element (top.close ended.lines)) :: around } := by
        unfold Growth.step Growth.closeElement
        rw [hstack, show inside ++ o :: outer.stack = parent :: around from haround]
      rw [hclosed]
      exact hleft.touch haround rfl rfl rfl rfl
  | text content =>
    obtain rfl := Option.some.inj hdepth
    rw [step_text hstack]
    exact h.touch hstack rfl rfl rfl rfl
  | comment content =>
    obtain rfl := Option.some.inj hdepth
    have hadded : g.step (.comment content) =
        { g with stack := top.push (.comment content) :: rest } := by
      unfold Growth.step Growth.addComment
      rw [hstack]
    rw [hadded]
    exact h.touch hstack rfl rfl rfl rfl

/-- Events that close no more than they open stay within the element. -/
theorem Within.steps {events : List Event} (h : g.Within outer heading depth)
    (hdepth : events.foldlM Event.depthAfter? depth = some depth') :
    (events.foldl Growth.step g).Within outer heading depth' := by
  induction events generalizing g depth with
  | nil =>
    obtain rfl := Option.some.inj hdepth
    exact h
  | cons e events ih =>
    rw [List.foldlM_cons] at hdepth
    obtain ⟨next, hnext, hrest⟩ := Option.bind_eq_some_iff.mp hdepth
    exact ih (h.step hnext) hrest

/-- When the element closes, it has become a child of the element around it, and that is all. -/
theorem foldl_element {e : OpenedElement} {inner : List Event} {o : OpenNode}
    {rest : List OpenNode} (hstack : outer.stack = o :: rest)
    (hdepth : inner.foldlM Event.depthAfter? 0 = some 0) (ended : ClosedElement) :
    ∃ x : Element, x.path = e.path ∧
      ((.opened e :: (inner ++ [.closed ended])).foldl Growth.step outer).stack =
        o.push (.element x) :: rest ∧
      ((.opened e :: (inner ++ [.closed ended])).foldl Growth.step outer).scopes = outer.scopes ∧
      ((.opened e :: (inner ++ [.closed ended])).foldl Growth.step outer).root = outer.root := by
  have hinside := (within_openElement outer e).steps hdepth
  rw [List.foldl_cons, List.foldl_append, List.foldl_cons, List.foldl_nil]
  change (inner.foldl Growth.step (outer.step (.opened e))).Within _ _ _ at hinside
  generalize inner.foldl Growth.step (outer.step (.opened e)) = g at hinside ⊢
  obtain ⟨⟨inside, last, hsplit, hlength, hheading⟩, hleave, hroot⟩ := hinside
  obtain rfl := List.eq_nil_of_length_eq_zero hlength
  rw [List.nil_append, hstack] at hsplit
  have hclosed : g.step (.closed ended) = { g with
      scopes := g.scopes.leave, stack := o.push (.element (last.close ended.lines)) :: rest } := by
    unfold Growth.step Growth.closeElement
    rw [hsplit]
  rw [hclosed]
  exact ⟨last.close ended.lines, congrArg Heading.path hheading, rfl, hleave, hroot⟩

/-- Between two texts that are one text in the other tree an element leaves a hole. -/
theorem Thinned.dig (h : g.Thinned p False g') (hopen : g.stack ≠ []) {e : OpenedElement}
    (hpath : e.path = p) {inner : List Event}
    (hdepth : inner.foldlM Event.depthAfter? 0 = some 0) (ended : ClosedElement)
    {before behind joined : String}
    (hjoined : Rejoined before.toList behind.toList joined.toList) :
    Growth.Thinned p True (List.foldl Growth.step g
      ([.text before] ++ (.opened e :: (inner ++ [.closed ended])) ++ [.text behind]))
      (g'.step (.text joined)) := by
  obtain ⟨o, rest, hstack⟩ := List.exists_cons_of_ne_nil hopen
  have hstack' := h.stack
  rw [hstack, List.forall₂_cons_left_iff] at hstack'
  obtain ⟨o', rest', ho, hrest, hstack'⟩ := hstack'
  have hbefore : (g.step (.text before)).stack = o.pushText before :: rest := by
    rw [step_text hstack]
  obtain ⟨x, hx, hxstack, hxscopes, hxroot⟩ := @foldl_element _ e _ _ _ hbefore hdepth ended
  generalize Event.opened e :: (inner ++ [.closed ended]) = whole at hxstack hxscopes hxroot ⊢
  rw [List.foldl_append, List.foldl_append, List.foldl_cons, List.foldl_nil, List.foldl_cons,
    List.foldl_nil, step_text hxstack, step_text hstack']
  rw [step_text hstack] at hxscopes hxroot ⊢
  refine ⟨hxscopes.trans h.scopes, ?_, ?_⟩
  · refine .cons ⟨ho.expanded, ho.attributes, ho.path, ?_⟩ (hrest.imp fun _ _ => (·.weaken))
    exact ho.children.dig (hx.trans hpath) hjoined
  · rw [hxroot]
    exact h.root

/-- While the reading has open elements, so has the tree. -/
theorem stack_ne_nil_of_run {source : String} {events : List Event} {s : Event.State}
    (hrun : Event.State.Run source .initial events s) (hopen : s.frames ≠ []) :
    (events.foldl Growth.step .initial).stack ≠ [] := by
  obtain ⟨hfollows, -⟩ := @follows_run _ .initial _ _ _ Sketch.follows_initial hrun
  intro hnil
  have hframes := hfollows.frames
  rw [Growth.sketch, hnil] at hframes
  exact hopen hframes

end Growth

/-- The events of a text that has an element inside another one, and those of a text that goes on
there. `count` elements open before the element. -/
inductive Event.Excised (source : String) (e : OpenedElement) (count : Nat) :
    List Event → List Event → Prop
  | intro {before before' inner after after' : List Event} {s : Event.State}
    {ended : ClosedElement} {first second joined : String} :
    Event.State.Run source .initial before s → s.frames ≠ [] →
    (before.filterMap Event.opened?).length = count →
    inner.foldlM Event.depthAfter? 0 = some 0 →
    Rejoined first.toList second.toList joined.toList →
    List.Forall₂ Event.Same before before' → List.Forall₂ Event.Same after after' →
    Excised source e count (before ++ ([.text first] ++ (.opened e :: (inner ++ [.closed ended])) ++
      [.text second]) ++ after) (before' ++ [.text joined] ++ after')

namespace Event.Excised

variable {source : String} {e : OpenedElement} {count : Nat} {events events' : List Event}

/-- The element is the one that opens behind `count` others. -/
theorem opened (h : Excised source e count events events') :
    (events.filterMap Event.opened?)[count]? = some e := by
  cases h with
  | intro _ _ hcount _ _ _ _ => simp [← hcount, List.filterMap_cons, Event.opened?]

/-- If no two elements open with one path, the trees grow side by side, and where the element is a
hole is left. -/
theorem thinned (h : Excised source e count events events')
    (hnodup : ((events.filterMap Event.opened?).map OpenedElement.path).Nodup) :
    Growth.Thinned e.path True (events.foldl Growth.step .initial)
      (events'.foldl Growth.step .initial) := by
  cases h with
  | @intro before before' inner after after' s ended first second joined hrun hopen _ hdepth
      hjoined hbefore hafter =>
    have hopened : List.filterMap Event.opened? (before ++ ([.text first] ++
        (.opened e :: (inner ++ [.closed ended])) ++ [.text second]) ++ after) =
          before.filterMap Event.opened? ++
            e :: (inner.filterMap Event.opened? ++ after.filterMap Event.opened?) := by
      simp [List.filterMap_cons, Event.opened?]
    rw [hopened, List.map_append, List.map_cons, List.nodup_append, List.nodup_cons] at hnodup
    obtain ⟨-, ⟨hbehind, -⟩, hdisjoint⟩ := hnodup
    have hfront : ∀ y ∈ before.filterMap Event.opened?, y.path ≠ e.path := fun y hy =>
      hdisjoint _ (List.mem_map_of_mem hy) _ List.mem_cons_self
    have hback : ∀ y ∈ after.filterMap Event.opened?, y.path ≠ e.path := by
      intro y hy heq
      apply hbehind
      rw [← heq]
      exact List.mem_map_of_mem (List.mem_append_right _ hy)
    have hgrown := (Growth.thinned_initial e.path False).steps hbefore hfront
    have hdug := hgrown.dig (Growth.stack_ne_nil_of_run hrun hopen) rfl hdepth ended hjoined
    simpa only [List.foldl_append, List.foldl_cons, List.foldl_nil] using hdug.steps hafter hback

end Event.Excised

end XmlCompare
