import XmlCompare.Document.Printer
import XmlCompare.Proofs.Document.Excision
import XmlCompare.Proofs.Document.Merging
import XmlCompare.Proofs.Markup.Writing

/-!
# What a tree is read from

Not every tree is read from a text. Where one is, names hold no blanks, a comment goes on to the
first place where it may end, texts are not blank and no two of them are neighbours, and every name
is expanded in the scopes of the elements around it. Every event keeps a growing tree that way.
-/

set_option autoImplicit false

namespace XmlCompare

open Markup (PlacedToken Token)
open Markup.Tag (Unbroken)
open Markup.Token.Piece (IsBody join place)

/-- The entries of the dictionary of a list are entries of the list. -/
theorem Dictionary.mem_of_mem_ofList {κ ν : Type} [DecidableEq κ] {l : List (κ × ν)} {e : κ × ν}
    (h : e ∈ (ofList l).entries) : e ∈ l := by
  have hput : ∀ {k : κ} {v : ν} {found : List (κ × ν)}, e ∈ put k v found →
      e = (k, v) ∨ e ∈ found := by
    intro k v found hmem
    induction found with
    | nil => exact .inl (List.mem_singleton.mp hmem)
    | cons first found ih =>
      rw [put] at hmem
      split at hmem
      · exact (List.mem_cons.mp hmem).imp_right (List.mem_cons_of_mem _)
      · rcases List.mem_cons.mp hmem with rfl | hmem
        · exact .inr List.mem_cons_self
        · exact (ih hmem).imp_right (List.mem_cons_of_mem _)
  suffices hmany : ∀ {d : Dictionary κ ν}, e ∈ (d.insertMany l).entries → e ∈ d.entries ∨ e ∈ l by
    exact (hmany h).resolve_left (by simp [empty])
  clear h
  induction l with
  | nil => exact fun h => .inl h
  | cons first l ih =>
    intro d h
    rcases ih h with h | h
    · rcases hput h with rfl | h
      · exact .inr List.mem_cons_self
      · exact .inl h
    · exact .inr (List.mem_cons_of_mem _ h)

/-! ## Headings -/

/-- A name that declares an abbreviation is `xmlns`, or the abbreviation with `xmlns:` in front. -/
theorem Name.eq_of_declares? {name abbreviation : String}
    (h : declares? name = some abbreviation) : name = "xmlns" ∧ abbreviation = "" ∨
      name.toList = "xmlns:".toList ++ abbreviation.toList := by
  unfold declares? at h
  split at h
  · exact .inl ⟨‹_›, (Option.some.inj h).symm⟩
  · obtain ⟨cs, hcs, rfl⟩ := Option.map_eq_some_iff.mp h
    have hname := Text.dropStart?_eq_some_iff.mp hcs
    rw [← @String.toList_ofList cs] at hname
    exact .inr hname

namespace Heading

/-- The characters of the name with which an abbreviation is declared. -/
theorem toList_declarationName (abbreviation : String) :
    abbreviation = "" ∧ (declarationName abbreviation).toList = "xmlns".toList ∨
      abbreviation ≠ "" ∧ (declarationName abbreviation).toList =
        "xmlns:".toList ++ abbreviation.toList := by
  unfold declarationName
  split
  · rename_i hempty
    exact .inl ⟨String.isEmpty_iff.mp hempty, rfl⟩
  · rename_i hempty
    exact .inr ⟨fun heq => hempty (String.isEmpty_iff.mpr heq), String.toList_append⟩

/-- What the declaration of an abbreviation is called declares it. -/
theorem declares?_declarationName (abbreviation : String) :
    Name.declares? (declarationName abbreviation) = some abbreviation := by
  rcases toList_declarationName abbreviation with ⟨rfl, -⟩ | ⟨-, hname⟩
  · rfl
  · have hdrop : Text.dropStart? "xmlns:".toList (declarationName abbreviation).toList =
        some abbreviation.toList := Text.dropStart?_eq_some_iff.mpr hname
    have hlong : declarationName abbreviation ≠ "xmlns" := by
      intro heq
      rw [heq] at hname
      have hlength := congrArg List.length hname
      simp at hlength
    rw [Name.declares?, if_neg hlong, hdrop, Option.map_some, String.ofList_toList]

/-- A declared abbreviation is unbroken if the name is that declares it. -/
theorem unbroken_declarationName {name abbreviation : String}
    (h : Name.declares? name = some abbreviation) (hname : Unbroken name.toList) :
    Unbroken (declarationName abbreviation).toList := by
  rcases toList_declarationName abbreviation with ⟨-, hshort⟩ | ⟨hne, hlong⟩
  · rw [hshort]
    have hall : "xmlns".toList.all (!Text.isMarkupBlank ·) = true := rfl
    exact fun c hc => by simpa using List.all_eq_true.mp hall c hc
  · rcases Name.eq_of_declares? h with ⟨-, rfl⟩ | heq
    · exact absurd rfl hne
    · rwa [hlong, ← heq]

/-- A heading as it is read where some scopes are in force: names are expanded in these and its own,
and blanks break none. -/
structure IsRead (outer : Scopes) (h : Heading) : Prop where
  name : Unbroken h.name.toList
  expanded : h.expanded = (outer.enter h.declarations.entries).elementName h.name
  declarations : ∀ d ∈ h.declarations.entries, Unbroken (declarationName d.1).toList
  attributes : ∀ e ∈ h.attributes.entries, Unbroken e.2.name.toList ∧
    Name.declares? e.2.name = none ∧ e.2.expanded = e.1 ∧
      e.1 = (outer.enter h.declarations.entries).attributeName e.2.name

variable {outer : Scopes}

/-- The heading of an element that opens with unbroken names is as it is read. -/
theorem isRead_ofOpened {e : OpenedElement} (hname : Unbroken e.name.toList)
    (hattributes : ∀ a ∈ e.attributes, Unbroken a.1.toList) : (ofOpened outer e).IsRead outer where
  name := hname
  expanded := rfl
  declarations := by
    intro d hd
    obtain ⟨a, ha, heq⟩ := List.mem_filterMap.mp (Dictionary.mem_of_mem_ofList hd)
    obtain ⟨abbreviation, hdeclares, rfl⟩ := Option.map_eq_some_iff.mp heq
    exact unbroken_declarationName hdeclares (hattributes a ha)
  attributes := by
    intro entry hentry
    obtain ⟨a, ha, rfl⟩ := List.mem_map.mp (Dictionary.mem_of_mem_ofList hentry)
    obtain ⟨ha, hnone⟩ := List.mem_filter.mp ha
    exact ⟨hattributes a ha, Option.isNone_iff_eq_none.mp hnone, rfl, rfl⟩

end Heading

/-! ## Nodes -/

namespace Node

/-- The nodes inside an element as they are read: texts are set apart by other nodes. -/
structure Tidy (nodes : List Node) : Prop where
  comments : ∀ content, comment content ∈ nodes → IsBody content.toList
  apart : nodes.IsChain fun a b => a.text? = none ∨ b.text? = none

variable {nodes : List Node}

/-- An empty list of nodes is tidy. -/
theorem tidy_nil : Tidy [] := ⟨by simp, .nil⟩

/-- Tidy nodes stay so with an element behind them. -/
theorem Tidy.push_element (h : Tidy nodes) (x : Element) : Tidy (nodes ++ [.element x]) := by
  refine ⟨fun content hmem => ?_, List.isChain_append.mpr ⟨h.apart, .singleton _, ?_⟩⟩
  · exact h.comments content (by simpa using hmem)
  · rintro a - b ⟨⟩
    exact .inr rfl

/-- Tidy nodes stay so with a comment behind them. -/
theorem Tidy.push_comment (h : Tidy nodes) {content : String} (hbody : IsBody content.toList) :
    Tidy (nodes ++ [.comment content]) := by
  refine ⟨fun content' hmem => ?_, List.isChain_append.mpr ⟨h.apart, .singleton _, ?_⟩⟩
  · rcases List.mem_append.mp hmem with hmem | hmem
    · exact h.comments content' hmem
    · obtain rfl := Node.comment.inj (List.mem_singleton.mp hmem)
      exact hbody
  · rintro a - b ⟨⟩
    exact .inr rfl

/-- Tidy nodes stay so when text is added to them. -/
theorem Tidy.appendText (h : Tidy nodes) (content : String) : Tidy (appendText content nodes) := by
  rcases appendText_cases content nodes with ⟨hsettled, heq⟩ | ⟨init, last, rfl, heq⟩
  · rw [heq]
    refine ⟨fun content' hmem => h.comments content' (by simpa using hmem),
      List.isChain_append.mpr ⟨h.apart, .singleton _, ?_⟩⟩
    rintro (x | last | comment) ha b -
    · exact .inl rfl
    · exact absurd ha (hsettled last)
    · exact .inl rfl
  · rw [heq]
    obtain ⟨hinit, -, hbetween⟩ := List.isChain_append.mp h.apart
    refine ⟨fun content' hmem => h.comments content' (by simpa using hmem),
      List.isChain_append.mpr ⟨hinit, .singleton _, ?_⟩⟩
    rintro a ha b ⟨⟩
    exact (hbetween a ha _ rfl).imp_right fun hnone => by cases hnone

/-- Texts stay apart when blank ones go. -/
theorem Tidy.filter (h : Tidy nodes) : Tidy (nodes.filter (!·.isBlankText)) := by
  refine ⟨fun content hmem => h.comments content (List.mem_filter.mp hmem).1, ?_⟩
  have hchain := h.apart
  clear h
  induction nodes with
  | nil => exact .nil
  | cons node rest ih =>
    obtain ⟨hnext, hrest⟩ := List.isChain_cons.mp hchain
    rw [List.filter_cons]
    split
    · refine List.isChain_cons.mpr ⟨fun b hb => ?_, ih hrest⟩
      cases rest with
      | nil => cases hb
      | cons next rest =>
        -- Behind a text there is no text, so what is behind it stays.
        rcases hnext next rfl with hnone | hnone
        · exact .inl hnone
        · have hkept : next.isBlankText = false := by
            cases next with
            | text content => cases hnone
            | element x => rfl
            | comment content => rfl
          rw [List.filter_cons_of_pos (by rw [hkept]; rfl)] at hb
          obtain rfl := Option.some.inj hb
          exact .inr hnone
    · exact ih hrest

/-- Tidy nodes stay so without the first one. -/
theorem Tidy.tail {node : Node} {rest : List Node} (h : Tidy (node :: rest)) : Tidy rest :=
  ⟨fun content hmem => h.comments content (List.mem_cons_of_mem _ hmem),
    (List.isChain_cons.mp h.apart).2⟩

/-- Where texts are apart, nodes that are all texts are one text at most. -/
theorem Tidy.eq_singleton (h : Tidy nodes) (hne : nodes ≠ [])
    (hall : nodes.all (·.text?.isSome) = true) : ∃ content, nodes = [.text content] := by
  obtain ⟨node, rest, rfl⟩ := List.exists_cons_of_ne_nil hne
  rw [List.all_cons, Bool.and_eq_true] at hall
  cases node with
  | text content =>
    cases rest with
    | nil => exact ⟨content, rfl⟩
    | cons next rest =>
      have hnext := (List.isChain_cons.mp h.apart).1 next rfl
      simp_all [Node.text?]
  | element x => cases hall.1
  | comment content => cases hall.1

end Node

/-! ## Trees -/

/-- An element as it is read where some scopes are in force. -/
inductive Element.IsRead : Scopes → Element → Prop
  | intro {outer : Scopes} {heading : Heading} {children : List Node} : heading.IsRead outer →
    Node.Tidy children → (∀ node ∈ children, node.isBlankText = false) →
    (∀ c ∈ children.filterMap Node.element?, IsRead (outer.enter heading.declarations.entries) c) →
    IsRead outer (.mk heading children)

/-- Open elements, innermost first, as they are read where in the innermost one some scopes are in
force. -/
inductive OpenNode.Nested : Scopes → List OpenNode → Prop
  | document : Nested .document []
  | inside {outer : Scopes} {heading : Heading} {children : List Node} {rest : List OpenNode} :
    Nested outer rest → heading.IsRead outer → Node.Tidy children →
    (∀ c ∈ children.filterMap Node.element?, c.IsRead (outer.enter heading.declarations.entries)) →
    Nested (outer.enter heading.declarations.entries) (⟨heading, children⟩ :: rest)

/-- An open element whose heading and children are as they are read closes to one that is as it is
read. -/
theorem OpenNode.isRead_close {outer : Scopes} {heading : Heading} {children : List Node}
    (hheading : heading.IsRead outer) (htidy : Node.Tidy children)
    (hchildren : ∀ c ∈ children.filterMap Node.element?,
      c.IsRead (outer.enter heading.declarations.entries)) (lines : LineRange) :
    (OpenNode.close ⟨heading, children⟩ lines).IsRead outer := by
  refine .intro ⟨hheading.name, hheading.expanded, hheading.declarations, hheading.attributes⟩
    htidy.filter (fun node hnode => ?_) ?_
  · simpa using (List.mem_filter.mp hnode).2
  · rw [Node.elements_filter_isBlankText]
    exact hchildren

/-- A growing tree as it is read. -/
structure Growth.IsRead (g : Growth) : Prop where
  nested : OpenNode.Nested g.scopes g.stack
  root : ∀ r ∈ g.root, r.IsRead .document
  prolog : ∀ content ∈ g.prolog, IsBody content.toList
  epilog : ∀ content ∈ g.epilog, IsBody content.toList

/-- An event that is read: it opens an element with unbroken names, or its comment goes on to the
first place where it may end. -/
def Event.IsRead : Event → Prop
  | .opened e => Unbroken e.name.toList ∧ ∀ a ∈ e.attributes, Unbroken a.1.toList
  | .closed _ => True
  | .text _ => True
  | .comment content => IsBody content.toList

namespace Growth

open OpenNode

variable {g : Growth}

/-- In the beginning there is nothing that could not have been read. -/
theorem isRead_initial : Growth.initial.IsRead := by
  refine ⟨.document, ?_, ?_, ?_⟩ <;> simp [Growth.initial]

/-- A tree stays as it is read when an element opens. -/
theorem IsRead.openElement (h : g.IsRead) {e : OpenedElement} (he : (Event.opened e).IsRead) :
    (g.openElement e).IsRead := by
  refine ⟨.inside h.nested (Heading.isRead_ofOpened he.1 he.2) Node.tidy_nil ?_, h.root, h.prolog,
    h.epilog⟩
  simp

/-- A tree stays as it is read when an element is closed. -/
theorem IsRead.closeElement (h : g.IsRead) (lines : LineRange) : (g.closeElement lines).IsRead := by
  obtain ⟨scopes, stack, root, prolog, epilog⟩ := g
  obtain ⟨hnested, hroot, hprolog, hepilog⟩ := h
  cases hnested with
  | document => exact ⟨.document, hroot, hprolog, hepilog⟩
  | inside houter hheading htidy hchildren =>
    have hclosed := isRead_close hheading htidy hchildren lines
    cases houter with
    | document =>
      refine ⟨.document, fun r hr => ?_, hprolog, hepilog⟩
      obtain rfl := Option.some.inj hr
      exact hclosed
    | inside houter' hparent htidy' hsiblings =>
      refine ⟨.inside houter' hparent (htidy'.push_element _) ?_, hroot, hprolog, hepilog⟩
      rw [List.filterMap_append]
      exact List.forall_mem_append.mpr ⟨hsiblings, List.forall_mem_singleton.mpr hclosed⟩

/-- A tree stays as it is read when text is added. -/
theorem IsRead.addText (h : g.IsRead) (content : String) : (g.addText content).IsRead := by
  obtain ⟨scopes, stack, root, prolog, epilog⟩ := g
  obtain ⟨hnested, hroot, hprolog, hepilog⟩ := h
  cases hnested with
  | document => exact ⟨.document, hroot, hprolog, hepilog⟩
  | inside houter hheading htidy hchildren =>
    refine ⟨.inside houter hheading (htidy.appendText content) ?_, hroot, hprolog, hepilog⟩
    rw [Node.elements_appendText]
    exact hchildren

/-- A tree stays as it is read when a comment is added. -/
theorem IsRead.addComment (h : g.IsRead) {content : String} (hbody : IsBody content.toList) :
    (g.addComment content).IsRead := by
  obtain ⟨scopes, stack, root, prolog, epilog⟩ := g
  obtain ⟨hnested, hroot, hprolog, hepilog⟩ := h
  cases hnested with
  | document =>
    unfold Growth.addComment
    dsimp only
    split
    · exact ⟨.document, hroot,
        List.forall_mem_append.mpr ⟨hprolog, List.forall_mem_singleton.mpr hbody⟩, hepilog⟩
    · exact ⟨.document, hroot, hprolog,
        List.forall_mem_append.mpr ⟨hepilog, List.forall_mem_singleton.mpr hbody⟩⟩
  | inside houter hheading htidy hchildren =>
    refine ⟨.inside houter hheading (htidy.push_comment hbody) ?_, hroot, hprolog, hepilog⟩
    simpa [List.filterMap_cons, Node.element?] using hchildren

/-- Every event keeps a growing tree as it is read. -/
theorem IsRead.step (h : g.IsRead) {e : Event} (he : e.IsRead) : (g.step e).IsRead := by
  cases e with
  | opened e => exact h.openElement he
  | closed e => exact h.closeElement e.lines
  | text content => exact h.addText content
  | comment content => exact h.addComment he

/-- A tree stays as it is read over events that are read. -/
theorem IsRead.steps (h : g.IsRead) {events : List Event} (hevents : ∀ e ∈ events, e.IsRead) :
    (events.foldl Growth.step g).IsRead := by
  induction events generalizing g with
  | nil => exact h
  | cons e events ih =>
    obtain ⟨he, hevents⟩ := List.forall_mem_cons.mp hevents
    exact ih (h.step he) hevents

end Growth

namespace Event.State

variable {source : String} {s s' : State}

/-- An element that opens has unbroken names. -/
theorem isRead_of_enter {lines : LineTable} {start : Nat} {content : List Char} {e : OpenedElement}
    (h : s.enter lines start content = .ok (s', e)) : (Event.opened e).IsRead := by
  obtain ⟨-, hattributes, hname, -⟩ := enter_eq_ok_iff.mp h
  refine ⟨?_, Markup.Tag.unbroken_of_attributes hattributes⟩
  rw [hname, String.toList_ofList]
  exact Markup.Tag.unbroken_name content

/-- Character data opens no element and is no comment. -/
theorem isRead_of_characters {lines : LineTable} {start : Nat} {content : List Char}
    {events : List Event} (h : s.characters lines start content = .ok events) :
    ∀ e ∈ events, e.IsRead := by
  rcases characters_eq_ok_iff.mp h with ⟨-, rfl⟩ | ⟨-, -, rfl⟩
  · exact List.forall_mem_singleton.mpr trivial
  · simp

/-- The events of pieces that are spelled are events that are read. -/
theorem isRead_of_steps {pieces : List Token.Piece} (hspelled : ∀ p ∈ pieces, p.Spelled)
    {start : Nat} {events : List Event} (h : Steps source s (place start pieces) events s') :
    ∀ e ∈ events, e.IsRead := by
  induction pieces generalizing start s events with
  | nil =>
    cases h
    simp
  | cons p pieces ih =>
    obtain ⟨hp, hpieces⟩ := List.forall_mem_cons.mp hspelled
    obtain ⟨token, spelling⟩ := p
    cases h with
    | step hstep h =>
      refine List.forall_mem_append.mpr ⟨?_, ih hpieces h⟩
      cases step_eq_ok_iff.mp hstep with
      | startTag henter => exact List.forall_mem_singleton.mpr (isRead_of_enter henter)
      | emptyTag henter _ =>
        exact List.forall_mem_cons.mpr
          ⟨isRead_of_enter henter, List.forall_mem_singleton.mpr trivial⟩
      | endTag _ => exact List.forall_mem_singleton.mpr trivial
      | text _ hchars => exact isRead_of_characters hchars
      | cdata hchars => exact isRead_of_characters hchars
      | comment =>
        refine List.forall_mem_singleton.mpr ?_
        show IsBody (String.ofList _).toList
        rw [String.toList_ofList]
        exact Token.Piece.isBody_of_spelled hp
      | skipped => simp

end Event.State

/-- The document of a text is as documents are read. -/
theorem Document.isRead_of_parse {source : String} {d : Document}
    (h : Document.parse source = .ok d) : d.root.IsRead .document ∧
      ∀ content ∈ d.prolog ++ d.epilog, IsBody content.toList := by
  obtain ⟨events, hevents, hd⟩ := parse_eq_ok_iff.mp h
  obtain ⟨hfault, s, hsteps, -⟩ := Event.toExcept_ofTokens_eq_ok_iff.mp hevents
  obtain ⟨pieces, hchain, -, hitems⟩ := Token.exists_pieces hfault
  rw [hitems] at hsteps
  have hgrown := Growth.isRead_initial.steps (Event.State.isRead_of_steps hchain.spelled hsteps)
  obtain ⟨r, hroot, rfl⟩ := Option.map_eq_some_iff.mp hd
  exact ⟨hgrown.root r hroot, List.forall_mem_append.mpr ⟨hgrown.prolog, hgrown.epilog⟩⟩

end XmlCompare
