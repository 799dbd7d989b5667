import XmlCompare.Proofs.Document.Addressing
import XmlCompare.Proofs.Document.Thinning

/-!
# Comments in character data

Comments take no part in a comparison, but they cut the character data around them: what stands
before a comment and what stands behind it are two nodes of the tree. Blank text goes when the
element around it closes, so the cut may take blanks away that kept words apart. Where it does not,
two trees that grow from the same events, but for comments, agree.
-/

set_option autoImplicit false

namespace XmlCompare

open Text (Steady unlessBlank words)

namespace Event

/-- An event that opens or closes an element. -/
def isTag : Event → Bool
  | opened _ => true
  | closed _ => true
  | text _ => false
  | comment _ => false

/-- The event is a comment. -/
def isComment : Event → Bool
  | opened _ => false
  | closed _ => false
  | text _ => false
  | comment _ => true

/-- The characters of the text among some events. -/
def textOf (events : List Event) : List Char :=
  events.flatMap fun
    | text content => content.toList
    | _ => []

/-- Puts texts together that follow each other. -/
def joinTexts : List Event → List Event
  | [] => []
  | text content :: rest =>
    match joinTexts rest with
    | text more :: others => text (content ++ more) :: others
    | others => text content :: others
  | e :: rest => e :: joinTexts rest

/-- The events without the comments, where texts that then follow each other are put together. -/
def plain (events : List Event) : List Event := joinTexts (events.filter (!·.isComment))

/-- The pieces into which comments cut the text of some events. -/
def pieces (events : List Event) : List (List Char) := (events.splitOnP isComment).map textOf

/-- The pieces of text between tags: for every stretch of events between two tags, those into which
comments cut its text. -/
def stretches (events : List Event) : List (List (List Char)) := (events.splitOnP isTag).map pieces

variable {stretch stretch' rest rest' : List Event}

/-- The characters of a text come before those of what follows. -/
theorem textOf_text (content : String) (rest : List Event) :
    textOf (.text content :: rest) = content.toList ++ textOf rest := rfl

/-- A comment has no characters of text. -/
theorem textOf_comment (content : String) (rest : List Event) :
    textOf (.comment content :: rest) = textOf rest := rfl

/-- Without events there is one piece, which is empty. -/
theorem pieces_nil : pieces [] = [[]] := rfl

/-- A text belongs to the first piece. -/
theorem pieces_text (content : String) (rest : List Event) :
    pieces (.text content :: rest) = (pieces rest).modifyHead (content.toList ++ ·) := by
  rw [pieces, List.splitOnP_cons_eq_if_modifyHead, if_neg (by simp [isComment])]
  cases hsplit : rest.splitOnP isComment with
  | nil => exact absurd hsplit (List.splitOnP_ne_nil _ _)
  | cons first others =>
    rw [pieces, hsplit]
    rfl

/-- A comment ends the first piece. -/
theorem pieces_comment (content : String) (rest : List Event) :
    pieces (.comment content :: rest) = [] :: pieces rest := by
  have hcomment : (Event.comment content).isComment = true := rfl
  rw [pieces, List.splitOnP_cons_eq_if_modifyHead, if_pos hcomment]
  rfl

/-- The pieces of a stretch are its text. -/
theorem flatten_pieces (h : ∀ e ∈ stretch, e.isTag = false) :
    (pieces stretch).flatten = textOf stretch := by
  induction stretch with
  | nil => rfl
  | cons e rest ih =>
    obtain ⟨he, hrest⟩ := List.forall_mem_cons.mp h
    cases e with
    | opened e => cases he
    | closed e => cases he
    | comment content =>
      rw [pieces_comment, textOf_comment, List.flatten_cons, ih hrest]
      rfl
    | text content =>
      rw [pieces_text, textOf_text, ← ih hrest]
      cases hpieces : pieces rest with
      | nil =>
        have hne := List.splitOnP_ne_nil isComment rest
        exact absurd (List.map_eq_nil_iff.mp hpieces) hne
      | cons first others => simp

/-- A tag is no comment. -/
theorem isComment_of_isTag {tag : Event} (htag : tag.isTag = true) : tag.isComment = false := by
  cases tag with
  | comment content => cases htag
  | _ => rfl

/-- A tag stands between texts, so what follows is joined by itself. -/
theorem joinTexts_cons_tag {tag : Event} (htag : tag.isTag = true) (rest : List Event) :
    joinTexts (tag :: rest) = tag :: joinTexts rest := by
  cases tag with
  | text content => cases htag
  | _ => rfl

/-- What stands before a tag and what stands behind it are joined by themselves. -/
theorem joinTexts_append_tag {tag : Event} (htag : tag.isTag = true) (events rest : List Event) :
    joinTexts (events ++ tag :: rest) = joinTexts events ++ tag :: joinTexts rest := by
  induction events with
  | nil => exact joinTexts_cons_tag htag rest
  | cons e events ih =>
    cases e with
    | text content =>
      rw [List.cons_append, joinTexts, joinTexts, ih]
      cases joinTexts events with
      | nil =>
        -- The text ends before the tag.
        cases tag with
        | text content => cases htag
        | _ => rfl
      | cons first others => cases first <;> rfl
    | _ => exact congrArg _ ih

/-- A tag sets apart what stands before it and what stands behind it. -/
theorem plain_append_tag {tag : Event} (htag : tag.isTag = true) (events rest : List Event) :
    plain (events ++ tag :: rest) = plain events ++ tag :: plain rest := by
  have hrest : (tag :: rest).filter (!·.isComment) = tag :: rest.filter (!·.isComment) :=
    List.filter_cons_of_pos (by rw [isComment_of_isTag htag]; rfl)
  rw [plain, List.filter_append, hrest, joinTexts_append_tag htag]
  rfl

/-- A tag stays where it is when comments are dropped. -/
theorem plain_cons_tag {tag : Event} (htag : tag.isTag = true) (rest : List Event) :
    plain (tag :: rest) = tag :: plain rest :=
  plain_append_tag htag [] rest

/-- Without its comments a stretch is one text, or nothing. -/
theorem plain_stretch (h : ∀ e ∈ stretch, e.isTag = false) :
    plain stretch = [] ∧ textOf stretch = [] ∨
      ∃ content, plain stretch = [.text content] ∧ content.toList = textOf stretch := by
  induction stretch with
  | nil => exact .inl ⟨rfl, rfl⟩
  | cons e rest ih =>
    obtain ⟨he, hrest⟩ := List.forall_mem_cons.mp h
    cases e with
    | opened e => cases he
    | closed e => cases he
    | comment content => exact ih hrest
    | text content =>
      have hplain : plain (.text content :: rest) = joinTexts (.text content ::
          rest.filter (!·.isComment)) := rfl
      rw [hplain, joinTexts, textOf_text]
      rcases ih hrest with ⟨hnil, htext⟩ | ⟨more, hmore, htext⟩
      · rw [plain] at hnil
        rw [hnil, htext]
        exact .inr ⟨content, rfl, (List.append_nil _).symm⟩
      · rw [plain] at hmore
        rw [hmore, ← htext]
        exact .inr ⟨content ++ more, rfl, String.toList_append⟩

/-- What follows a stretch, if it is anything, begins with a tag. -/
def FollowsStretch (more : List Event) : Prop :=
  more = [] ∨ ∃ tag rest, more = tag :: rest ∧ tag.isTag = true

/-- Events begin with a stretch, behind which they end or go on with a tag. -/
theorem exists_stretch (events : List Event) : ∃ stretch more, events = stretch ++ more ∧
    (∀ e ∈ stretch, e.isTag = false) ∧ FollowsStretch more := by
  induction events with
  | nil => exact ⟨[], [], rfl, by simp, .inl rfl⟩
  | cons e events ih =>
    by_cases htag : e.isTag = true
    · exact ⟨[], e :: events, rfl, by simp, .inr ⟨e, events, rfl, htag⟩⟩
    · obtain ⟨stretch, more, rfl, hstretch, hmore⟩ := ih
      exact ⟨e :: stretch, more, rfl,
        List.forall_mem_cons.mpr ⟨by simpa using htag, hstretch⟩, hmore⟩

end Event

/-! ## The nodes of a stretch -/

namespace Node

/-- What the events of a stretch add to some nodes. -/
def absorb (nodes : List Node) : Event → List Node
  | .text content => appendText content nodes
  | .comment content => nodes ++ [.comment content]
  | .opened _ => nodes
  | .closed _ => nodes

/-- The last one of some nodes is no text, so a text that follows is a node of its own. -/
def Settled (nodes : List Node) : Prop := ∀ content, nodes.getLast? ≠ some (.text content)

variable {nodes : List Node}

/-- Where there are no nodes, a text is a node of its own. -/
theorem settled_nil : Settled [] := by
  intro content h
  cases h

/-- Behind a comment a text is a node of its own. -/
theorem settled_comment (nodes : List Node) (content : String) :
    Settled (nodes ++ [.comment content]) := by
  intro content' h
  simp at h

/-- Behind an element a text is a node of its own. -/
theorem settled_element (nodes : List Node) (x : Element) : Settled (nodes ++ [.element x]) := by
  intro content' h
  simp at h

/-- Text behind settled nodes becomes a node. -/
theorem appendText_of_settled (h : Settled nodes) (content : String) :
    appendText content nodes = nodes ++ [.text content] := by
  induction nodes with
  | nil => rfl
  | cons node rest ih =>
    by_cases hnil : rest = []
    · subst hnil
      cases node with
      | text last => exact absurd rfl (h last)
      | element x => rfl
      | comment last => rfl
    · have hrest : Settled rest := by
        intro last hlast
        apply h last
        rw [List.getLast?_cons, hlast]
        rfl
      rw [appendText_cons _ _ hnil, ih hrest, List.cons_append]

/-- Text behind text goes on with it. -/
theorem appendText_concat_text (content last : String) (nodes : List Node) :
    appendText content (nodes ++ [.text last]) = nodes ++ [.text (last ++ content)] := by
  induction nodes with
  | nil => rfl
  | cons node rest ih => rw [List.cons_append, appendText_cons _ _ (by simp), ih, List.cons_append]

/-- The text of two runs of nodes follows each other. -/
theorem keptText_append (nodes more : List Node) :
    keptText (nodes ++ more) = keptText nodes ++ keptText more :=
  List.flatMap_append

/-- A stretch adds no element. -/
theorem elements_absorb (stretch : List Event) (nodes : List Node) :
    (stretch.foldl absorb nodes).filterMap element? = nodes.filterMap element? := by
  induction stretch generalizing nodes with
  | nil => rfl
  | cons e rest ih =>
    rw [List.foldl_cons, ih]
    cases e with
    | text content => exact elements_appendText content nodes
    | comment content => simp [absorb, List.filterMap_cons, element?]
    | opened _ => rfl
    | closed _ => rfl

/-- A stretch adds the text of its pieces, without those that are blank. The first piece belongs to
the last node, if that is text. -/
theorem keptText_absorb {stretch : List Event} (h : ∀ e ∈ stretch, e.isTag = false) :
    (∀ nodes, Settled nodes → keptText (stretch.foldl absorb nodes) =
      keptText nodes ++ (Event.pieces stretch).flatMap unlessBlank) ∧
    ∀ nodes last, keptText (stretch.foldl absorb (nodes ++ [.text last])) = keptText nodes ++
      ((Event.pieces stretch).modifyHead (last.toList ++ ·)).flatMap unlessBlank := by
  induction stretch with
  | nil =>
    constructor
    · intro nodes _
      simp [Event.pieces_nil, unlessBlank]
    · intro nodes last
      simp [Event.pieces_nil, keptText, text?]
  | cons e rest ih =>
    obtain ⟨he, hrest⟩ := List.forall_mem_cons.mp h
    obtain ⟨hsettled, hpending⟩ := ih hrest
    cases e with
    | opened e => cases he
    | closed e => cases he
    | text content =>
      rw [Event.pieces_text]
      constructor
      · intro nodes hnodes
        rw [List.foldl_cons, absorb, appendText_of_settled hnodes, hpending]
      · intro nodes last
        have happend : ((last ++ content).toList ++ ·) =
            (last.toList ++ ·) ∘ (content.toList ++ ·) := by
          funext cs
          simp
        rw [List.foldl_cons, absorb, appendText_concat_text, hpending, List.modifyHead_modifyHead,
          happend]
    | comment content =>
      rw [Event.pieces_comment]
      constructor
      · intro nodes _
        rw [List.foldl_cons, absorb, hsettled _ (settled_comment _ _), keptText_append]
        simp [keptText, text?, unlessBlank]
      · intro nodes last
        rw [List.foldl_cons, absorb, hsettled _ (settled_comment _ _), keptText_append,
          keptText_append]
        simp [keptText, text?]

end Node

/-! ## Trees that differ in comments -/

/-- Open elements of two trees that agree as far as they have been read, but for comments and for
where their text is cut. -/
structure OpenNode.Akin (o o' : OpenNode) : Prop where
  expanded : o.heading.expanded = o'.heading.expanded
  attributes : o.heading.attributes = o'.heading.attributes
  elements : List.Forall₂ Element.Agree (o.children.filterMap Node.element?)
    (o'.children.filterMap Node.element?)
  words : ∀ before after, words (before ++ Node.keptText o.children ++ after) =
    words (before ++ Node.keptText o'.children ++ after)

/-- Growing trees that agree but for comments and for where text is cut. -/
structure Growth.Akin (g g' : Growth) : Prop where
  scopes : g.scopes = g'.scopes
  stack : List.Forall₂ OpenNode.Akin g.stack g'.stack
  root : Option.Rel Element.Agree g.root g'.root

/-- No text is going on: a text that comes next is a node of its own. -/
def Growth.Settled (g : Growth) : Prop := ∀ o ∈ g.stack.head?, Node.Settled o.children

/-- The elements agree when they close. -/
theorem OpenNode.Akin.close {o o' : OpenNode} (h : o.Akin o') (lines lines' : LineRange) :
    (o.close lines).Agree (o'.close lines') := by
  have hwords := h.words [] []
  simp only [List.nil_append, List.append_nil] at hwords
  refine .intro ⟨h.expanded, fun name => ?_, textContent_close hwords lines lines'⟩ ?_
  · exact congrArg (fun found => (found.get? name).map Attribute.value) h.attributes
  · rw [childElements_close, childElements_close]
    exact h.elements

/-- An element that has closed becomes a child of the element around it. -/
theorem OpenNode.Akin.push {o o' : OpenNode} (h : o.Akin o') {x x' : Element} (hx : x.Agree x') :
    (o.push (.element x)).Akin (o'.push (.element x')) := by
  refine ⟨h.expanded, h.attributes, ?_, ?_⟩
  · simp only [OpenNode.push, List.filterMap_append]
    exact List.rel_append h.elements (.cons hx .nil)
  · intro before after
    simp only [OpenNode.push, Node.keptText_append]
    simpa [Node.keptText, Node.text?] using h.words before after

/-- A stretch and another one with the same text add the same words. -/
theorem OpenNode.Akin.absorb {o o' : OpenNode} (h : o.Akin o') (hsettled : Node.Settled o.children)
    (hsettled' : Node.Settled o'.children) {stretch stretch' : List Event}
    (htags : ∀ e ∈ stretch, e.isTag = false) (htags' : ∀ e ∈ stretch', e.isTag = false)
    (htext : Event.textOf stretch = Event.textOf stretch') (hsteady : Steady (Event.pieces stretch))
    (hsteady' : Steady (Event.pieces stretch')) :
    OpenNode.Akin ⟨o.heading, stretch.foldl Node.absorb o.children⟩
      ⟨o'.heading, stretch'.foldl Node.absorb o'.children⟩ := by
  refine ⟨h.expanded, h.attributes, ?_, fun before after => ?_⟩
  · rw [Node.elements_absorb, Node.elements_absorb]
    exact h.elements
  · have hkept := (Node.keptText_absorb htags).1 _ hsettled
    have hkept' := (Node.keptText_absorb htags').1 _ hsettled'
    have hwhole := hsteady (before ++ Node.keptText o.children) after
    have hwhole' := hsteady' (before ++ Node.keptText o'.children) after
    have hmoved := h.words before (unlessBlank (Event.textOf stretch) ++ after)
    rw [Event.flatten_pieces htags] at hwhole
    rw [Event.flatten_pieces htags', ← htext] at hwhole'
    simp only [List.append_assoc] at hwhole hwhole' hmoved
    rw [hkept, hkept']
    simp only [List.append_assoc]
    rw [hwhole, hwhole', hmoved]

namespace Growth

variable {g g' : Growth}

/-- In the beginning the two trees agree. -/
theorem akin_initial : Growth.initial.Akin .initial := ⟨rfl, .nil, .none⟩

/-- In the beginning no text is going on. -/
theorem settled_initial : Growth.initial.Settled := by
  intro o ho
  cases ho

/-- A stretch goes into the innermost open element, if there is one. -/
theorem foldl_stretch {stretch : List Event} (htags : ∀ e ∈ stretch, e.isTag = false) :
    (stretch.foldl step g).scopes = g.scopes ∧ (stretch.foldl step g).root = g.root ∧
      (stretch.foldl step g).stack = match g.stack with
        | [] => []
        | o :: rest => ⟨o.heading, stretch.foldl Node.absorb o.children⟩ :: rest := by
  induction stretch generalizing g with
  | nil =>
    refine ⟨rfl, rfl, ?_⟩
    cases hstack : g.stack with
    | nil => exact hstack
    | cons o rest => exact hstack
  | cons e stretch ih =>
    obtain ⟨he, hrest⟩ := List.forall_mem_cons.mp htags
    obtain ⟨hscopes, hroot, hstack⟩ := @ih (g.step e) hrest
    rw [List.foldl_cons, hscopes, hroot, hstack]
    cases e with
    | opened e => cases he
    | closed e => cases he
    | text content =>
      simp only [step, addText]
      cases hg : g.stack with
      | nil => exact ⟨rfl, rfl, by rw [hg]⟩
      | cons o rest => exact ⟨rfl, rfl, rfl⟩
    | comment content =>
      simp only [step, addComment]
      cases hg : g.stack with
      | nil =>
        dsimp only
        split <;> exact ⟨rfl, rfl, rfl⟩
      | cons o rest => exact ⟨rfl, rfl, rfl⟩

/-- Two stretches with the same text keep trees akin. -/
theorem Akin.stretch (h : g.Akin g') (hsettled : g.Settled) (hsettled' : g'.Settled)
    {stretch stretch' : List Event} (htags : ∀ e ∈ stretch, e.isTag = false)
    (htags' : ∀ e ∈ stretch', e.isTag = false)
    (htext : Event.textOf stretch = Event.textOf stretch') (hsteady : Steady (Event.pieces stretch))
    (hsteady' : Steady (Event.pieces stretch')) :
    (stretch.foldl step g).Akin (stretch'.foldl step g') := by
  obtain ⟨hscopes, hroot, hstack⟩ := foldl_stretch (g := g) htags
  obtain ⟨hscopes', hroot', hstack'⟩ := foldl_stretch (g := g') htags'
  refine ⟨?_, ?_, ?_⟩
  · rw [hscopes, hscopes', h.scopes]
  · have hboth := h.stack
    rw [hstack, hstack']
    cases hg : g.stack with
    | nil =>
      rw [hg, List.forall₂_nil_left_iff] at hboth
      rw [hboth]
      exact .nil
    | cons o rest =>
      rw [hg, List.forall₂_cons_left_iff] at hboth
      obtain ⟨o', rest', ho, hrest, hg'⟩ := hboth
      rw [hg']
      exact .cons (ho.absorb (hsettled o (by rw [hg]; rfl)) (hsettled' o' (by rw [hg']; rfl)) htags
        htags' htext hsteady hsteady') hrest
  · rw [hroot, hroot']
    exact h.root

/-- Growing trees stay akin when an element opens in both. -/
theorem Akin.openElement (h : g.Akin g') {e e' : OpenedElement} (hname : e.name = e'.name)
    (hattributes : e.attributes = e'.attributes) :
    (g.openElement e).Akin (g'.openElement e') := by
  unfold Growth.openElement Heading.ofOpened
  rw [hname, hattributes, h.scopes]
  exact ⟨rfl, .cons ⟨rfl, rfl, .nil, fun _ _ => rfl⟩ h.stack, h.root⟩

/-- Where an element has just opened no text is going on. -/
theorem settled_openElement (g : Growth) (e : OpenedElement) : (g.openElement e).Settled := by
  rintro o ⟨⟩
  exact Node.settled_nil

/-- To be akin is to be related part by part. -/
theorem akin_iff_lockstep :
    g.Akin g' ↔ Lockstep Eq OpenNode.Akin Element.Agree g g' :=
  ⟨fun h => ⟨h.scopes, h.stack, h.root⟩, fun h => ⟨h.scopes, h.stack, h.root⟩⟩

/-- Growing trees stay akin when an element is closed in both. -/
theorem Akin.closeElement (h : g.Akin g') (lines lines' : LineRange) :
    (g.closeElement lines).Akin (g'.closeElement lines') := by
  rw [akin_iff_lockstep] at h ⊢
  exact h.closeElement (fun _ _ hs => congrArg Scopes.leave hs)
    (fun _ _ ho => ho.close lines lines')
    (fun _ _ _ _ ho hparent => hparent.push (ho.close lines lines'))

/-- Where an element has just closed no text is going on. -/
theorem settled_closeElement (g : Growth) (lines : LineRange) : (g.closeElement lines).Settled := by
  unfold Growth.closeElement
  cases hg : g.stack with
  | nil => rintro o ⟨⟩
  | cons o rest =>
    cases rest with
    | nil => rintro o ⟨⟩
    | cons parent rest =>
      rintro o ⟨⟩
      exact Node.settled_element _ _

/-- A tag grows both trees in the same way, and behind it no text goes on. -/
theorem Akin.tag (h : g.Akin g') {tag tag' : Event} (htag : tag.isTag = true)
    (haligned : tag.Aligned tag') :
    (g.step tag).Akin (g'.step tag') ∧ (g.step tag).Settled ∧ (g'.step tag').Settled := by
  cases haligned with
  | opened hname hattributes _ =>
    exact ⟨h.openElement hname hattributes, settled_openElement _ _, settled_openElement _ _⟩
  | closed _ => exact ⟨h.closeElement _ _, settled_closeElement _ _, settled_closeElement _ _⟩
  | text => cases htag
  | comment => cases htag

end Growth

namespace Event

/-- Stretches that are the same without their comments have the same text, if what follows them does
not begin with text. -/
theorem aligned_of_stretch {stretch stretch' more more' : List Event}
    (htags : ∀ e ∈ stretch, e.isTag = false) (htags' : ∀ e ∈ stretch', e.isTag = false)
    (hmore : ∀ e ∈ more.head?, e.isTag = true) (hmore' : ∀ e ∈ more'.head?, e.isTag = true)
    (h : List.Forall₂ Aligned (plain stretch ++ more) (plain stretch' ++ more')) :
    textOf stretch = textOf stretch' ∧ List.Forall₂ Aligned more more' := by
  have hnone : ∀ {content : String} {rest more : List Event},
      (∀ e ∈ more.head?, e.isTag = true) → ¬ List.Forall₂ Aligned (.text content :: rest) more ∧
        ¬ List.Forall₂ Aligned more (.text content :: rest) := by
    intro content rest more htag
    constructor
    · rintro (_ | ⟨⟨⟩, -⟩)
      cases htag _ rfl
    · rintro (_ | ⟨⟨⟩, -⟩)
      cases htag _ rfl
  rcases plain_stretch htags with ⟨hnil, htext⟩ | ⟨content, hone, htext⟩
  · rcases plain_stretch htags' with ⟨hnil', htext'⟩ | ⟨content', hone', -⟩
    · rw [hnil, hnil'] at h
      exact ⟨htext.trans htext'.symm, h⟩
    · rw [hnil, hone'] at h
      exact absurd h (hnone hmore).2
  · rcases plain_stretch htags' with ⟨hnil', -⟩ | ⟨content', hone', htext'⟩
    · rw [hone, hnil'] at h
      exact absurd h (hnone hmore').1
    · rw [hone, hone'] at h
      cases h with
      | cons hhead htail =>
        cases hhead
        exact ⟨htext.symm.trans htext', htail⟩

/-- Comments can be dropped from a stretch and from what follows it one by one. -/
theorem plain_append {more : List Event} (stretch : List Event) (hmore : FollowsStretch more) :
    plain (stretch ++ more) = plain stretch ++ plain more ∧
      ∀ e ∈ (plain more).head?, e.isTag = true := by
  rcases hmore with rfl | ⟨tag, rest, rfl, htag⟩
  · rw [List.append_nil]
    exact ⟨(List.append_nil _).symm, by rintro e ⟨⟩⟩
  · rw [plain_append_tag htag, plain_cons_tag htag]
    refine ⟨rfl, ?_⟩
    rintro e ⟨⟩
    exact htag

/-- Up to the first tag there is one stretch, and the others follow the tag. -/
theorem stretches_append_tag {stretch : List Event} (htags : ∀ e ∈ stretch, e.isTag = false)
    {tag : Event} (htag : tag.isTag = true) (rest : List Event) :
    stretches (stretch ++ tag :: rest) = pieces stretch :: stretches rest := by
  rw [stretches, List.splitOnP_append_cons_of_forall_mem htags tag htag]
  rfl

/-- The pieces of a stretch in front of a tag or the end are among those between tags. -/
theorem pieces_mem_stretches {stretch more : List Event} (htags : ∀ e ∈ stretch, e.isTag = false)
    (hmore : FollowsStretch more) : pieces stretch ∈ stretches (stretch ++ more) := by
  rcases hmore with rfl | ⟨tag, rest, rfl, htag⟩
  · rw [List.append_nil, stretches, List.splitOnP_eq_singleton htags]
    exact List.mem_cons_self
  · rw [stretches_append_tag htags htag]
    exact List.mem_cons_self

end Event

/-- Events that are the same without their comments keep trees akin, if comments cut no blanks off
that keep words apart. -/
theorem Growth.Akin.steps {g g' : Growth} (h : g.Akin g') (hsettled : g.Settled)
    (hsettled' : g'.Settled) {events events' : List Event}
    (hplain : List.Forall₂ Event.Aligned (Event.plain events) (Event.plain events'))
    (hsteady : ∀ pieces ∈ Event.stretches events, Steady pieces)
    (hsteady' : ∀ pieces ∈ Event.stretches events', Steady pieces) :
    (events.foldl Growth.step g).Akin (events'.foldl Growth.step g') := by
  induction hlength : events.length using Nat.strongRecOn generalizing events events' g g' with
  | ind n ih =>
    obtain ⟨stretch, more, rfl, htags, hmore⟩ := Event.exists_stretch events
    obtain ⟨stretch', more', rfl, htags', hmore'⟩ := Event.exists_stretch events'
    obtain ⟨hsplit, hhead⟩ := Event.plain_append stretch hmore
    obtain ⟨hsplit', hhead'⟩ := Event.plain_append stretch' hmore'
    rw [hsplit, hsplit'] at hplain
    obtain ⟨htext, hplain⟩ := Event.aligned_of_stretch htags htags' hhead hhead' hplain
    have hgrown := h.stretch hsettled hsettled' htags htags' htext
      (hsteady _ (Event.pieces_mem_stretches htags hmore))
      (hsteady' _ (Event.pieces_mem_stretches htags' hmore'))
    rw [List.foldl_append, List.foldl_append]
    rcases hmore with rfl | ⟨tag, rest, rfl, htag⟩
    · rcases hmore' with rfl | ⟨tag', rest', rfl, htag'⟩
      · exact hgrown
      · rw [Event.plain_cons_tag htag'] at hplain
        cases hplain
    · rcases hmore' with rfl | ⟨tag', rest', rfl, htag'⟩
      · rw [Event.plain_cons_tag htag] at hplain
        cases hplain
      · rw [Event.plain_cons_tag htag, Event.plain_cons_tag htag'] at hplain
        obtain ⟨haligned, hplain⟩ := List.forall₂_cons.mp hplain
        obtain ⟨hnext, hnextSettled, hnextSettled'⟩ := hgrown.tag htag haligned
        rw [Event.stretches_append_tag htags htag] at hsteady
        rw [Event.stretches_append_tag htags' htag'] at hsteady'
        refine ih rest.length ?_ hnext hnextSettled hnextSettled' hplain
          (List.forall_mem_cons.mp hsteady).2 (List.forall_mem_cons.mp hsteady').2 rfl
        rw [← hlength, List.length_append, List.length_cons]
        omega

end XmlCompare
