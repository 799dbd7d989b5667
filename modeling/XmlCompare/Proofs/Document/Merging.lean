import XmlCompare.Proofs.Document.Comments
import XmlCompare.Proofs.Markup.Nesting
import XmlCompare.Proofs.Markup.Spelling
import XmlCompare.Proofs.Text.References

/-!
# Character data that is put together

Where a text is put together from parts, character data may come to stand next to other character
data. It is read as one piece then, which makes no difference to the tree: a text node takes in the
text that follows it.
-/

set_option autoImplicit false

namespace XmlCompare

open Markup (PlacedToken Token)
open Text (Resolves)

namespace Markup.Token.Piece

/-- Characters between tags, if there are any. -/
def data (cs : List Char) : List Piece := if cs = [] then [] else [⟨.text cs, cs⟩]

/-- Puts a piece in front of others; character data takes in the character data behind it. -/
def attach (p : Piece) (rest : List Piece) : List Piece :=
  match p, rest with
  | ⟨.text raw, spelling⟩, ⟨.text raw', spelling'⟩ :: others =>
    ⟨.text (raw ++ raw'), spelling ++ spelling'⟩ :: others
  | p, rest => p :: rest

/-- The pieces as which pieces are read that stand one behind the other. -/
def merge (pieces : List Piece) : List Piece := pieces.foldr attach []

variable {p : Piece} {rest pieces : List Piece}

/-- Two cases of a piece in front of others: it stays apart from them, or two pieces become one. -/
inductive Attached : Piece → List Piece → List Piece → Prop
  | apart {p : Piece} {rest : List Piece} :
    (∀ q ∈ rest.head?, p.token.isMarkup = true ∨ q.token.isMarkup = true) →
    Attached p rest (p :: rest)
  | together {raw raw' spelling spelling' : List Char} {others : List Piece} :
    Attached ⟨.text raw, spelling⟩ (⟨.text raw', spelling'⟩ :: others)
      (⟨.text (raw ++ raw'), spelling ++ spelling'⟩ :: others)

/-- A piece put in front of others is in one of the two cases. -/
theorem attached (p : Piece) (rest : List Piece) : Attached p rest (attach p rest) := by
  obtain ⟨token, spelling⟩ := p
  cases rest with
  | nil => cases token <;> exact .apart (by simp)
  | cons q others =>
    obtain ⟨token', spelling'⟩ := q
    have happart : token.isMarkup = true ∨ token'.isMarkup = true →
        Attached ⟨token, spelling⟩ (⟨token', spelling'⟩ :: others)
          (⟨token, spelling⟩ :: ⟨token', spelling'⟩ :: others) := by
      intro h
      refine .apart fun q hq => ?_
      obtain rfl := Option.some.inj hq
      exact h
    cases token with
    | text raw =>
      cases token' with
      | text raw' => exact .together
      | _ => exact happart (.inr rfl)
    | _ => exact happart (.inl rfl)

/-- To put a piece in front of others is to put its spelling in front of their text. -/
theorem join_attach (p : Piece) (rest : List Piece) :
    join (attach p rest) = p.spelling ++ join rest := by
  have h := attached p rest
  generalize attach p rest = found at h ⊢
  cases h with
  | apart => rfl
  | together => rw [join_cons, join_cons, List.append_assoc]

/-- Pieces that become one are spelled as they were. -/
theorem join_merge (pieces : List Piece) : join (merge pieces) = join pieces := by
  induction pieces with
  | nil => rfl
  | cons p pieces ih => rw [join_cons, ← ih, ← join_attach, merge, List.foldr_cons, merge]

/-- Character data is spelled as it is, is not empty and holds no `<`. -/
theorem spelled_text_iff {raw spelling : List Char} :
    Spelled ⟨.text raw, spelling⟩ ↔ spelling = raw ∧ raw ≠ [] ∧ '<' ∉ raw := by
  constructor
  · intro h
    cases h with
    | text hne hno => exact ⟨rfl, hne, hno⟩
    | markup hmarkup _ => cases hmarkup
  · rintro ⟨rfl, hne, hno⟩
    exact .text hne hno

/-- A piece in front of a chain makes a chain. -/
theorem chain_attach (hp : p.Spelled) (h : Chain rest) : Chain (attach p rest) := by
  have hattached := attached p rest
  generalize attach p rest = found at hattached ⊢
  cases hattached with
  | apart happart =>
    exact ⟨List.forall_mem_cons.mpr ⟨hp, h.spelled⟩, List.isChain_cons.mpr ⟨happart, h.apart⟩⟩
  | together =>
    obtain ⟨hq, hothers⟩ := List.forall_mem_cons.mp h.spelled
    obtain ⟨rfl, hne, hno⟩ := spelled_text_iff.mp hp
    obtain ⟨rfl, -, hno'⟩ := spelled_text_iff.mp hq
    obtain ⟨happart, hrest⟩ := List.isChain_cons.mp h.apart
    refine ⟨List.forall_mem_cons.mpr ⟨spelled_text_iff.mpr ⟨rfl, ?_, ?_⟩, hothers⟩,
      List.isChain_cons.mpr ⟨happart, hrest⟩⟩
    · exact List.append_ne_nil_of_left_ne_nil hne _
    · exact fun hmem => (List.mem_append.mp hmem).elim hno hno'

/-- Pieces that are spelled become a chain. -/
theorem chain_merge (h : ∀ p ∈ pieces, p.Spelled) : Chain (merge pieces) := by
  induction pieces with
  | nil => exact ⟨fun p hp => (by cases hp), .nil⟩
  | cons p pieces ih =>
    obtain ⟨hp, hpieces⟩ := List.forall_mem_cons.mp h
    exact chain_attach hp (ih hpieces)

/-- Character data that becomes one leaves the same tags open. -/
theorem foldlM_namesAfter?_merge (pieces : List Piece) (names : List (List Char)) :
    ((merge pieces).map Piece.token).foldlM namesAfter? names =
      (pieces.map Piece.token).foldlM namesAfter? names := by
  induction pieces generalizing names with
  | nil => rfl
  | cons p pieces ih =>
    have hattach : ((attach p (merge pieces)).map Piece.token).foldlM namesAfter? names =
        (p.token :: (merge pieces).map Piece.token).foldlM namesAfter? names := by
      have h := attached p (merge pieces)
      generalize merge pieces = rest at h ⊢
      generalize attach p rest = found at h ⊢
      cases h <;> rfl
    rw [List.map_cons, List.foldlM_cons]
    simp only [← ih]
    rw [← List.foldlM_cons]
    exact hattach

/-- The text of characters between tags is those characters. -/
theorem join_data (cs : List Char) : join (data cs) = cs := by
  unfold data
  split
  · rename_i hnil
    rw [hnil]
    rfl
  · exact List.append_nil cs

/-- Characters between tags open and close nothing. -/
theorem namesAfter?_data (cs : List Char) (names : List (List Char)) :
    ((data cs).map token).foldlM namesAfter? names = some names := by
  unfold data
  split <;> rfl

/-- Characters without a `<` are read as they are. -/
theorem spelled_data {cs : List Char} (h : '<' ∉ cs) : ∀ p ∈ data cs, p.Spelled := by
  intro p hp
  unfold data at hp
  split at hp
  · cases hp
  · rename_i hne
    obtain rfl := List.mem_singleton.mp hp
    exact .text hne h

end Markup.Token.Piece

/-! ## The tree of what is put together -/

namespace Node

/-- Two cases of a text that is added to nodes: it is a node of its own, or the last text takes it
in. -/
theorem appendText_cases (content : String) (nodes : List Node) :
    Settled nodes ∧ appendText content nodes = nodes ++ [.text content] ∨
      ∃ init last, nodes = init ++ [.text last] ∧
        appendText content nodes = init ++ [.text (last ++ content)] := by
  rcases List.eq_nil_or_concat nodes with rfl | ⟨init, last, rfl⟩
  · exact .inl ⟨settled_nil, rfl⟩
  rw [List.concat_eq_append]
  cases last with
  | text last => exact .inr ⟨init, last, rfl, appendText_concat_text _ _ _⟩
  | element x => exact .inl ⟨settled_element _ _, appendText_of_settled (settled_element _ _) _⟩
  | comment last => exact .inl ⟨settled_comment _ _, appendText_of_settled (settled_comment _ _) _⟩

/-- To add one text after the other is to add both at once. -/
theorem appendText_appendText (first second : String) (nodes : List Node) :
    appendText second (appendText first nodes) = appendText (first ++ second) nodes := by
  rcases appendText_cases first nodes with ⟨hsettled, hfirst⟩ | ⟨init, last, rfl, hfirst⟩
  · rw [hfirst, appendText_concat_text, appendText_of_settled hsettled]
  · rw [hfirst, appendText_concat_text, appendText_concat_text, String.append_assoc]

end Node

/-- A text that comes in two parts is as good as the whole. -/
theorem Growth.addText_addText (g : Growth) (first second : String) :
    (g.addText first).addText second = g.addText (first ++ second) := by
  obtain ⟨scopes, stack, root, prolog, epilog⟩ := g
  cases stack with
  | nil => rfl
  | cons o stack =>
    have hpush : (o.pushText first).pushText second = o.pushText (first ++ second) :=
      congrArg (OpenNode.mk o.heading) (Node.appendText_appendText first second o.children)
    simp only [addText, hpush]

namespace Event.State

open Markup.Token
open Markup.Token.Piece (place attach merge attached spelled_text_iff)

variable {source : String} {s s' : State}

/-- Two parts of character data do to the tree what the whole does. -/
theorem characters_append {lines : LineTable} {start start' : Nat} {first second : List Char}
    {events events' : List Event} (h : s.characters lines start first = .ok events)
    (h' : s.characters lines start' second = .ok events') : ∃ whole,
      s.characters lines start (first ++ second) = .ok whole ∧
        ∀ g : Growth, whole.foldl Growth.step g = (events ++ events').foldl Growth.step g := by
  rcases characters_eq_ok_iff.mp h with ⟨hopen, rfl⟩ | ⟨hnone, hblank, rfl⟩
  · rcases characters_eq_ok_iff.mp h' with ⟨-, rfl⟩ | ⟨hnone, -⟩
    · refine ⟨_, characters_eq_ok_iff.mpr (.inl ⟨hopen, rfl⟩), fun g => ?_⟩
      rw [String.ofList_append]
      exact (g.addText_addText _ _).symm
    · exact absurd hnone hopen
  · rcases characters_eq_ok_iff.mp h' with ⟨hopen, -⟩ | ⟨-, hblank', rfl⟩
    · exact absurd hnone hopen
    · refine ⟨[], characters_eq_ok_iff.mpr (.inr ⟨hnone, ?_, rfl⟩), fun g => rfl⟩
      rw [List.all_append, hblank, hblank', Bool.and_self]

/-- A run over a piece and others may take the piece together with what is behind it: the tree grows
the same. -/
theorem Steps.attach {p : Piece} {rest : List Piece} (hp : p.Spelled) (hrest : ∀ q ∈ rest, q.Spelled)
    {start : Nat} {events : List Event} (h : Steps source s (place start (p :: rest)) events s') :
    ∃ events', Steps source s (place start (attach p rest)) events' s' ∧
      ∀ g : Growth, events'.foldl Growth.step g = events.foldl Growth.step g := by
  have hattached := attached p rest
  generalize Piece.attach p rest = found at hattached ⊢
  cases hattached with
  | apart => exact ⟨events, h, fun g => rfl⟩
  | together =>
    obtain ⟨rfl, -⟩ := spelled_text_iff.mp hp
    obtain ⟨rfl, -⟩ := spelled_text_iff.mp (hrest _ List.mem_cons_self)
    cases h with
    | step hfirst h =>
      cases h with
      | step hsecond h =>
        cases step_eq_ok_iff.mp hfirst with
        | text hraw hchars =>
          cases step_eq_ok_iff.mp hsecond with
          | text hraw' hchars' =>
            obtain ⟨whole, hwhole, hfold⟩ := characters_append hchars hchars'
            have hresolves := (Text.unescape_eq_ok_iff.mp hraw).append
              (Text.unescape_eq_ok_iff.mp hraw')
            rw [Nat.add_assoc, ← Text.byteSize_append] at h
            refine ⟨_, .step (step_eq_ok_iff.mpr (.text (Text.unescape_eq_ok_iff.mpr hresolves)
              hwhole)) h, fun g => ?_⟩
            rw [List.foldl_append, hfold, ← List.foldl_append, List.append_assoc]

/-- Pieces and those as which they are read make the same tree. -/
theorem Steps.merge {pieces : List Piece} (hspelled : ∀ p ∈ pieces, p.Spelled) {start : Nat}
    {events : List Event} (h : Steps source s (place start pieces) events s') :
    ∃ events', Steps source s (place start (merge pieces)) events' s' ∧
      ∀ g : Growth, events'.foldl Growth.step g = events.foldl Growth.step g := by
  induction pieces generalizing start s events with
  | nil => exact ⟨events, h, fun g => rfl⟩
  | cons p pieces ih =>
    obtain ⟨hp, hpieces⟩ := List.forall_mem_cons.mp hspelled
    cases h with
    | step hstep h =>
      obtain ⟨more, hmore, hfold⟩ := ih hpieces h
      obtain ⟨events', hsteps, hfold'⟩ :=
        Steps.attach hp (Piece.chain_merge hpieces).spelled (.step hstep hmore)
      refine ⟨events', hsteps, fun g => ?_⟩
      rw [hfold', List.foldl_append, List.foldl_append, hfold]

end Event.State

end XmlCompare
