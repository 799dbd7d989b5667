import XmlCompare.Markup.Tag
import XmlCompare.Reading

/-!
# Tokens

A text is read as tokens: character data between tags, tags, comments, character sections, and
what a comparison has no use for (declarations, instructions, document types). A token begins
where the one before it ended, so together they are the text.

The end of a tag is the first `>` outside quotes. A comment ends at the first `-->` behind its
opening, a character section at the first `]]>`, an instruction at the first `?>`, a document type
at the first `>` that closes no `<` inside it. `matchTags` goes on to check that every end tag
closes the innermost tag that is open.
-/

set_option autoImplicit false

namespace XmlCompare.Markup

open Text (Cursor byteSize)

/-- A token, without the characters that delimit it. -/
inductive Token
  /-- Character data with its references. -/
  | text (raw : List Char)
  /-- A character section, which holds no references. -/
  | cdata (body : List Char)
  | comment (body : List Char)
  /-- A tag that opens an element: its name and attributes. -/
  | startTag (content : List Char)
  /-- A tag that is a whole element: its name and attributes. -/
  | emptyTag (content : List Char)
  | endTag (name : List Char)
  /-- A declaration, an instruction or a document type. -/
  | skipped
  deriving DecidableEq, Repr

/-- A token with the offset at which it begins and the offset behind it. -/
structure PlacedToken where
  token : Token
  start : Nat
  stop : Nat
  deriving DecidableEq, Repr

/-- A syntax fault with its offset. -/
structure PlacedFault where
  fault : SyntaxFault
  offset : Nat
  deriving DecidableEq, Repr

namespace Token

/-- The quote that is open after a character, given the one that was open before it. -/
def quoteAfter (quote : Option Char) (c : Char) : Option Char :=
  match quote with
  | none => if c = '"' ∨ c = '\'' then some c else none
  | some q => if c = q then none else some q

/-- The content of a tag up to its `>`, which stands outside quotes, and what follows. -/
def cutTag (quote : Option Char) : List Char → Option (List Char × List Char)
  | [] => none
  | c :: cs =>
    if quote = none ∧ c = '>' then some ([], cs)
    else (cutTag (quoteAfter quote c) cs).map fun (content, rest) => (c :: content, rest)

/-- The content of a document type up to its `>`, and what follows; `depth` counts the `<` that
are still open. -/
def cutDoctype (depth : Nat) : List Char → Option (List Char × List Char)
  | [] => none
  | c :: cs =>
    if c = '>' then
      match depth with
      | 0 => some ([], cs)
      | depth + 1 => (cutDoctype depth cs).map fun (content, rest) => (c :: content, rest)
    else
      (cutDoctype (if c = '<' then depth + 1 else depth) cs).map
        fun (content, rest) => (c :: content, rest)

/-- A tag takes its closing bracket with it, so less is left than there was. -/
theorem length_lt_of_cutTag {quote : Option Char} {cs content rest : List Char}
    (h : cutTag quote cs = some (content, rest)) : rest.length < cs.length := by
  induction cs generalizing quote content with
  | nil => simp [cutTag] at h
  | cons c cs ih =>
    rw [cutTag] at h
    split at h
    · simp only [Option.some.injEq, Prod.mk.injEq] at h
      simp [h.2]
    · simp only [Option.map_eq_some_iff, Prod.mk.injEq, Prod.exists] at h
      obtain ⟨x, y, hxy, -, rfl⟩ := h
      have := ih hxy
      simp only [List.length_cons]
      omega

/-- A document type takes its closing bracket with it, so less is left than there was. -/
theorem length_lt_of_cutDoctype {depth : Nat} {cs content rest : List Char}
    (h : cutDoctype depth cs = some (content, rest)) : rest.length < cs.length := by
  induction cs generalizing depth content with
  | nil => simp [cutDoctype] at h
  | cons c cs ih =>
    unfold cutDoctype at h
    split at h
    · split at h
      · simp only [Option.some.injEq, Prod.mk.injEq] at h
        simp [h.2]
      · simp only [Option.map_eq_some_iff, Prod.mk.injEq, Prod.exists] at h
        obtain ⟨x, y, hxy, -, rfl⟩ := h
        have := ih hxy
        simp only [List.length_cons]
        omega
    · simp only [Option.map_eq_some_iff, Prod.mk.injEq, Prod.exists] at h
      obtain ⟨x, y, hxy, -, rfl⟩ := h
      have := ih hxy
      simp only [List.length_cons]
      omega

/-- The name in an end tag: blanks at its end are dropped, unless there is nothing else. -/
def endName (content : List Char) : List Char :=
  let name := (content.reverse.dropWhile Text.isMarkupBlank).reverse
  if name.isEmpty then content else name

/-- What the content of a tag opens: an element, or all of one if a slash ends it. -/
def ofTagContent (content : List Char) : Token :=
  match Text.dropEnd? '/' content with
  | some content => .emptyTag content
  | none => .startTag content

/-- What follows the keyword of a document type, if the text begins with the keyword in any
case. -/
def dropDoctypeWord? (cs : List Char) : Option (List Char) :=
  if (cs.take 7).map Char.toUpper = "DOCTYPE".toList then some (cs.drop 7) else none

/-- Reads what follows `<!`, at byte `start`. -/
def readDeclaration (start : Nat) (cs : List Char) : Except PlacedFault (Token × Cursor) :=
  match cs with
  | '-' :: rest =>
    match (Text.dropStart? ['-'] rest).bind (Text.cutAtMarker "-->".toList) with
    | some (body, rest) => .ok (.comment body, ⟨start + 4 + byteSize body + 3, rest⟩)
    | none => .error ⟨.commentNotClosed, start⟩
  | '[' :: rest =>
    match (Text.dropStart? "CDATA[".toList rest).bind (Text.cutAtMarker "]]>".toList) with
    | some (body, rest) => .ok (.cdata body, ⟨start + 9 + byteSize body + 3, rest⟩)
    | none => .error ⟨.cdataNotClosed, start⟩
  | c :: _ =>
    if c = 'D' ∨ c = 'd' then
      match (dropDoctypeWord? cs).bind (cutDoctype 0) with
      | some (content, rest) =>
        if content.all Text.isMarkupBlank then
          .error ⟨.doctypeWithoutName, start + 9 + byteSize content⟩
        else .ok (.skipped, ⟨start + 9 + byteSize content + 1, rest⟩)
      | none => .error ⟨.doctypeNotClosed, start⟩
    else .error ⟨.unknownMarkup, start⟩
  | [] => .error ⟨.unknownMarkup, start⟩

/-- Reads what follows `<?`, at byte `start`. The question mark that opens an instruction cannot
close it. -/
def readInstruction (start : Nat) (cs : List Char) : Except PlacedFault (Token × Cursor) :=
  if cs.head? = some '>' then .error ⟨.instructionNotClosed, start⟩
  else
    match Text.cutAtMarker "?>".toList cs with
    | some (body, rest) => .ok (.skipped, ⟨start + 2 + byteSize body + 2, rest⟩)
    | none => .error ⟨.instructionNotClosed, start⟩

/-- Reads what follows a `<`, at byte `start`. -/
def readMarkup (start : Nat) (cs : List Char) : Except PlacedFault (Token × Cursor) :=
  match cs with
  | '!' :: rest => readDeclaration start rest
  | '?' :: rest => readInstruction start rest
  | '/' :: rest =>
    match cutTag none rest with
    | some (content, rest) =>
      .ok (.endTag (endName content), ⟨start + 2 + byteSize content + 1, rest⟩)
    | none => .error ⟨.tagNotClosed, start⟩
  | _ =>
    match cutTag none cs with
    | some (content, rest) =>
      .ok (ofTagContent content, ⟨start + 1 + byteSize content + 1, rest⟩)
    | none => .error ⟨.tagNotClosed, start⟩

/-- Reads the token that begins with the character `first`, behind which the text goes on with
`cs`. -/
def readOne (start : Nat) (first : Char) (cs : List Char) :
    Except PlacedFault (Token × Cursor) :=
  if first = '<' then readMarkup start cs
  else
    let raw := first :: cs.takeWhile (· ≠ '<')
    .ok (.text raw, ⟨start + byteSize raw, cs.dropWhile (· ≠ '<')⟩)

/-- A declaration leaves no more than what followed its opening. -/
theorem length_le_of_readDeclaration {start : Nat} {cs : List Char} {t : Token} {c : Cursor}
    (h : readDeclaration start cs = .ok (t, c)) : c.rest.length ≤ cs.length := by
  unfold readDeclaration at h
  split at h
  · split at h
    · rename_i rest _ body rest' hcut
      simp only [Except.ok.injEq, Prod.mk.injEq] at h
      obtain ⟨-, rfl⟩ := h
      obtain ⟨mid, hmid, hcut⟩ := Option.bind_eq_some_iff.mp hcut
      have h₁ := Text.length_le_of_cutAtMarker hcut
      have h₂ := congrArg List.length (Text.dropStart?_eq_some_iff.mp hmid)
      simp only [List.length_append, List.length_cons, List.length_nil] at h₂ ⊢
      omega
    · cases h
  · split at h
    · rename_i rest _ body rest' hcut
      simp only [Except.ok.injEq, Prod.mk.injEq] at h
      obtain ⟨-, rfl⟩ := h
      obtain ⟨mid, hmid, hcut⟩ := Option.bind_eq_some_iff.mp hcut
      have h₁ := Text.length_le_of_cutAtMarker hcut
      have h₂ := congrArg List.length (Text.dropStart?_eq_some_iff.mp hmid)
      simp only [List.length_append, List.length_cons] at h₂ ⊢
      omega
    · cases h
  · split at h
    · split at h
      · rename_i content rest' hcut
        split at h
        · cases h
        · simp only [Except.ok.injEq, Prod.mk.injEq] at h
          obtain ⟨-, rfl⟩ := h
          obtain ⟨mid, hmid, hcut⟩ := Option.bind_eq_some_iff.mp hcut
          have h₁ := length_lt_of_cutDoctype hcut
          unfold dropDoctypeWord? at hmid
          split at hmid
          · simp only [Option.some.injEq] at hmid
            subst hmid
            simp only [List.length_drop] at h₁
            show rest'.length ≤ _
            omega
          · cases hmid
      · cases h
    · cases h
  · cases h

/-- A token takes at least one character. -/
theorem length_le_of_readOne {start : Nat} {first : Char} {cs : List Char} {t : Token}
    {c : Cursor} (h : readOne start first cs = .ok (t, c)) : c.rest.length ≤ cs.length := by
  unfold readOne at h
  split at h
  · unfold readMarkup at h
    split at h
    · have := length_le_of_readDeclaration h
      simp only [List.length_cons]
      omega
    · unfold readInstruction at h
      split at h
      · cases h
      · split at h
        · rename_i hcut
          simp only [Except.ok.injEq, Prod.mk.injEq] at h
          obtain ⟨-, rfl⟩ := h
          have := Text.length_le_of_cutAtMarker hcut
          simp only [List.length_cons]
          omega
        · cases h
    · split at h
      · rename_i hcut
        simp only [Except.ok.injEq, Prod.mk.injEq] at h
        obtain ⟨-, rfl⟩ := h
        have := length_lt_of_cutTag hcut
        simp only [List.length_cons]
        omega
      · cases h
    · split at h
      · rename_i hcut
        simp only [Except.ok.injEq, Prod.mk.injEq] at h
        obtain ⟨-, rfl⟩ := h
        exact Nat.le_of_lt (length_lt_of_cutTag hcut)
      · cases h
  · simp only [Except.ok.injEq, Prod.mk.injEq] at h
    obtain ⟨-, rfl⟩ := h
    exact (List.dropWhile_sublist _).length_le

/-- After a token there is less left of the text. -/
theorem length_lt_of_readOne {c next : Cursor} {first : Char} {cs : List Char} {token : Token}
    (hc : c.rest = first :: cs) (h : readOne c.offset first cs = .ok (token, next)) :
    next.rest.length < c.rest.length := by
  have hle := length_le_of_readOne h
  rw [hc, List.length_cons]
  omega

-- Here and where references and attributes are read, the recursion is on the length of the rest;
-- the functions unfold all the same, so that the reading of a closed text can be evaluated.
/-- The tokens from a cursor on. -/
@[semireducible] def readFrom (c : Cursor) : Reading PlacedToken PlacedFault :=
  match hc : c.rest with
  | [] => .done
  | first :: cs =>
    match h : readOne c.offset first cs with
    | .error fault => .failed fault
    | .ok (token, next) =>
      have := length_lt_of_readOne hc h
      .item ⟨token, c.offset, next.offset⟩ (readFrom next)
termination_by c.rest.length

/-- There is no token at the end of a text. -/
theorem readFrom_nil (offset : Nat) : readFrom ⟨offset, []⟩ = .done := by
  rw [readFrom]

/-- Where a token can be read, the tokens are that one and those behind it. -/
theorem readFrom_cons {offset : Nat} {first : Char} {cs : List Char} {token : Token}
    {next : Cursor} (h : readOne offset first cs = .ok (token, next)) :
    readFrom ⟨offset, first :: cs⟩ = .item ⟨token, offset, next.offset⟩ (readFrom next) := by
  rw [readFrom]
  split
  · rename_i hnil
    cases hnil
  · rename_i first' cs' hcons
    obtain ⟨rfl, rfl⟩ := List.cons.inj hcons
    split
    · rename_i fault hfault
      rw [h] at hfault
      cases hfault
    · rename_i token' next' hok
      rw [h] at hok
      obtain ⟨rfl, rfl⟩ := Prod.mk.inj (Except.ok.inj hok)
      rfl

/-- Checks end tags against the names of the tags that are open, innermost first. A reading whose
end tag closes nothing, or something else than the innermost open tag, ends there. -/
def matchTags (names : List (List Char)) :
    Reading PlacedToken PlacedFault → Reading PlacedToken PlacedFault
  | .done => .done
  | .failed fault => .failed fault
  | .item t rest =>
    match t.token with
    | .startTag content => .item t (matchTags (Tag.name content :: names) rest)
    | .endTag name =>
      match names with
      | [] => .failed ⟨.unmatchedEndTag (String.ofList name), t.start⟩
      | innermost :: names =>
        if innermost = name then .item t (matchTags names rest)
        else .failed ⟨.mismatchedEndTag (String.ofList innermost) (String.ofList name), t.start⟩
    | _ => .item t (matchTags names rest)

/-- The characters of a text without the byte order mark at its start, if it has one. The mark
belongs to no token, and offsets do not count it. -/
def dropByteOrderMark : List Char → List Char
  | [] => []
  | c :: cs => if c = '\ufeff' then cs else c :: cs

/-- The tokens of a text, with its end tags checked. -/
def readAll (text : String) : Reading PlacedToken PlacedFault :=
  matchTags [] (readFrom ⟨0, dropByteOrderMark text.toList⟩)

end Token

end XmlCompare.Markup
