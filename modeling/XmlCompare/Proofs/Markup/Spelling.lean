import Mathlib.Data.List.Chain
import Mathlib.Data.List.TakeWhile
import XmlCompare.Markup.Token

/-!
# How tokens are spelled

A token is read from a piece of the text. Where a piece of markup ends is seen in the piece itself,
so it is read as the same token wherever it stands; character data goes on to the next `<` or to the
end of the text. So a text that is read without a fault is a chain of such pieces, of which no two
neighbours are character data, and every such chain is read as the tokens of its pieces.
-/

set_option autoImplicit false

namespace XmlCompare

namespace Text

/-- Where a marker is cut at does not depend on what follows it. -/
theorem cutAtMarker_append {marker cs before after : List Char}
    (h : cutAtMarker marker cs = some (before, after)) (hne : marker ≠ []) (after' : List Char) :
    cutAtMarker marker (before ++ marker ++ after') = some (before, after') := by
  induction cs generalizing before with
  | nil => cases h
  | cons c cs ih =>
    rw [cutAtMarker] at h
    split at h
    · simp only [Option.some.injEq, Prod.mk.injEq] at h
      obtain ⟨rfl, rfl⟩ := h
      obtain ⟨m, marker, rfl⟩ := List.exists_cons_of_ne_nil hne
      have hhere : dropStart? (m :: marker) (m :: (marker ++ after')) = some after' :=
        dropStart?_eq_some_iff.mpr rfl
      rw [List.nil_append, List.cons_append, cutAtMarker, hhere]
    · rename_i hnone
      obtain ⟨⟨before, rest⟩, hcut, heq⟩ := Option.map_eq_some_iff.mp h
      obtain ⟨rfl, rfl⟩ := Prod.mk.inj heq
      have hcs := eq_append_of_cutAtMarker hcut
      -- The marker does not begin before the cut, and it lies before what follows the cut.
      have hnone' : dropStart? marker (c :: (before ++ marker ++ after')) = none := by
        rw [Option.eq_none_iff_forall_ne_some]
        intro found hfound
        have hfirst : marker <+: c :: (before ++ marker) ++ after' :=
          ⟨found, (dropStart?_eq_some_iff.mp hfound).symm⟩
        have hprefix : marker <+: c :: (before ++ marker) :=
          List.prefix_of_prefix_length_le hfirst (List.prefix_append _ _) (by simp; omega)
        obtain ⟨tail, htail⟩ := hprefix
        have hsome : dropStart? marker (c :: cs) = some (tail ++ rest) := by
          rw [dropStart?_eq_some_iff, hcs, ← List.append_assoc, htail]
          rfl
        rw [hnone] at hsome
        cases hsome
      rw [List.append_assoc] at hnone' ⊢
      rw [List.cons_append, cutAtMarker, hnone', ← List.append_assoc, ih hcut]
      rfl

/-- Behind a word, too, where a marker is cut at does not depend on what follows it. -/
theorem cutBehind_append {word marker cs before after : List Char}
    (h : (dropStart? word cs).bind (cutAtMarker marker) = some (before, after))
    (hne : marker ≠ []) : cs = word ++ (before ++ marker ++ after) ∧
      ∀ after', (dropStart? word (word ++ (before ++ marker ++ after'))).bind
        (cutAtMarker marker) = some (before, after') := by
  obtain ⟨mid, hmid, hcut⟩ := Option.bind_eq_some_iff.mp h
  constructor
  · rw [dropStart?_eq_some_iff.mp hmid, ← eq_append_of_cutAtMarker hcut]
  · intro after'
    rw [dropStart?_eq_some_iff.mpr rfl, Option.bind_some, cutAtMarker_append hcut hne]

end Text

namespace Markup.Token

open Text (Cursor byteSize)

/-- A tag is cut at its `>`, whatever follows. -/
theorem cutTag_append {quote : Option Char} {cs content rest : List Char}
    (h : cutTag quote cs = some (content, rest)) : cs = content ++ '>' :: rest ∧
      ∀ rest', cutTag quote (content ++ '>' :: rest') = some (content, rest') := by
  induction cs generalizing quote content with
  | nil => cases h
  | cons c cs ih =>
    rw [cutTag] at h
    split at h
    · rename_i hend
      obtain ⟨rfl, rfl⟩ := Prod.mk.inj (Option.some.inj h)
      obtain ⟨rfl, rfl⟩ := hend
      exact ⟨rfl, fun rest' => rfl⟩
    · rename_i hgo
      obtain ⟨⟨content, rest⟩, hcut, heq⟩ := Option.map_eq_some_iff.mp h
      obtain ⟨rfl, rfl⟩ := Prod.mk.inj heq
      obtain ⟨rfl, hlocal⟩ := ih hcut
      refine ⟨rfl, fun rest' => ?_⟩
      rw [List.cons_append, cutTag, if_neg hgo, hlocal]
      rfl

/-- Where a document type ends does not depend on what follows it. -/
theorem cutDoctype_append {depth : Nat} {cs content rest : List Char}
    (h : cutDoctype depth cs = some (content, rest)) : cs = content ++ '>' :: rest ∧
      ∀ rest', cutDoctype depth (content ++ '>' :: rest') = some (content, rest') := by
  induction cs generalizing depth content with
  | nil => cases h
  | cons c cs ih =>
    unfold cutDoctype at h
    split at h
    · rename_i hclose
      cases depth with
      | zero =>
        obtain ⟨rfl, rfl⟩ := Prod.mk.inj (Option.some.inj h)
        obtain rfl := hclose
        exact ⟨rfl, fun rest' => rfl⟩
      | succ depth =>
        obtain ⟨⟨content, rest⟩, hcut, heq⟩ := Option.map_eq_some_iff.mp h
        obtain ⟨rfl, rfl⟩ := Prod.mk.inj heq
        obtain ⟨rfl, hlocal⟩ := ih hcut
        refine ⟨rfl, fun rest' => ?_⟩
        rw [List.cons_append, cutDoctype, if_pos hclose]
        show (cutDoctype depth _).map _ = _
        rw [hlocal]
        rfl
    · rename_i hgo
      obtain ⟨⟨content, rest⟩, hcut, heq⟩ := Option.map_eq_some_iff.mp h
      obtain ⟨rfl, rfl⟩ := Prod.mk.inj heq
      obtain ⟨rfl, hlocal⟩ := ih hcut
      refine ⟨rfl, fun rest' => ?_⟩
      rw [List.cons_append]
      unfold cutDoctype
      rw [if_neg hgo, hlocal]
      rfl

/-- What a reader of markup makes of a text is seen in a first part `body` of it, which ends with
`>`: whatever follows, the token is the same. -/
structure ReadIn (read : Nat → List Char → Except PlacedFault (Token × Cursor)) (skip : Nat)
    (t : Token) (body : List Char) : Prop where
  last : body.getLast? = some '>'
  read : ∀ start rest, read start (body ++ rest) = .ok (t, ⟨start + skip + byteSize body, rest⟩)

/-- The token is no character data. -/
def isMarkup : Token → Bool
  | text _ => false
  | _ => true

/-- A character whose capital takes one byte takes one byte. -/
theorem utf8Size_of_toUpper {c : Char} (h : c.toUpper.utf8Size = 1) : c.utf8Size = 1 := by
  unfold Char.toUpper at h
  split at h
  · rename_i hlower
    have hle : c.val ≤ 127 := UInt32.le_trans hlower.2 (by decide)
    unfold Char.utf8Size
    exact if_pos hle
  · exact h

/-- The keyword of a document type takes seven bytes, whatever follows it. -/
theorem dropDoctypeWord?_append {cs mid : List Char} (h : dropDoctypeWord? cs = some mid) :
    ∃ word, cs = word ++ mid ∧ byteSize word = 7 ∧
      ∀ rest, dropDoctypeWord? (word ++ rest) = some rest := by
  unfold dropDoctypeWord? at h
  split at h
  · rename_i hword
    obtain rfl := Option.some.inj h
    have hlength : (cs.take 7).length = 7 := by simpa using congrArg List.length hword
    refine ⟨cs.take 7, (List.take_append_drop 7 cs).symm, ?_, ?_⟩
    · have hone : ∀ word : List Char, (∀ c ∈ word.map Char.toUpper, c.utf8Size = 1) →
          byteSize word = word.length := by
        intro word hsizes
        induction word with
        | nil => rfl
        | cons c word ih =>
          obtain ⟨hc, hrest⟩ := List.forall_mem_cons.mp hsizes
          rw [byteSize, utf8Size_of_toUpper hc, ih hrest, List.length_cons]
          omega
      rw [hone, hlength]
      rw [hword]
      simp [Char.utf8Size]
    · intro rest
      rw [dropDoctypeWord?, List.take_left' hlength, List.drop_left' hlength, if_pos hword]
  · cases h

/-- A document type is cut at its `>`, whatever follows. -/
theorem cutDoctypeWord_append {cs content rest : List Char}
    (h : (dropDoctypeWord? cs).bind (cutDoctype 0) = some (content, rest)) :
    ∃ word, cs = word ++ (content ++ '>' :: rest) ∧ byteSize word = 7 ∧
      ∀ rest', (dropDoctypeWord? (word ++ (content ++ '>' :: rest'))).bind (cutDoctype 0) =
        some (content, rest') := by
  obtain ⟨mid, hmid, hcut⟩ := Option.bind_eq_some_iff.mp h
  obtain ⟨word, rfl, hbytes, hword⟩ := dropDoctypeWord?_append hmid
  obtain ⟨rfl, hlocal⟩ := cutDoctype_append hcut
  refine ⟨word, rfl, hbytes, fun rest' => ?_⟩
  rw [hword, Option.bind_some, hlocal]

/-- A reader that goes on with another one behind a first character. -/
theorem ReadIn.cons {read read' : Nat → List Char → Except PlacedFault (Token × Cursor)}
    {skip : Nat} {t : Token} {first : Char} {body : List Char} (h : ReadIn read (skip + 1) t body)
    (hsize : first.utf8Size = 1)
    (heq : ∀ start cs, read' start (first :: cs) = read start cs) :
    ReadIn read' skip t (first :: body) := by
  constructor
  · rw [List.getLast?_cons, h.last]
    rfl
  · intro start rest
    have hoffset : start + (skip + 1) + byteSize body =
        start + skip + byteSize (first :: body) := by
      rw [byteSize, hsize]
      omega
    rw [List.cons_append, heq, h.read, hoffset]

/-- A comment is read up to its end, whatever follows it. -/
theorem readIn_comment {cs body rest : List Char}
    (h : (Text.dropStart? ['-'] cs).bind (Text.cutAtMarker "-->".toList) = some (body, rest)) :
    cs = ['-'] ++ (body ++ "-->".toList) ++ rest ∧
      ReadIn readDeclaration 2 (.comment body) ('-' :: (['-'] ++ (body ++ "-->".toList))) := by
  obtain ⟨hcs, hlocal⟩ := Text.cutBehind_append h (by decide)
  refine ⟨by simpa using hcs, by simp [List.getLast?_cons], ?_⟩
  intro start rest'
  have hoffset : start + 4 + byteSize body + 3 =
      start + 2 + byteSize ('-' :: (['-'] ++ (body ++ "-->".toList))) := by
    have hdash : '-'.utf8Size = 1 := rfl
    have hmark : byteSize "-->".toList = 3 := rfl
    simp only [byteSize, Text.byteSize_append, hdash, hmark]
    omega
  rw [List.cons_append, List.append_assoc, readDeclaration, hlocal rest', ← hoffset]

/-- A character section is read up to its end, whatever follows it. -/
theorem readIn_cdata {cs body rest : List Char}
    (h : (Text.dropStart? "CDATA[".toList cs).bind (Text.cutAtMarker "]]>".toList) =
      some (body, rest)) :
    cs = "CDATA[".toList ++ (body ++ "]]>".toList) ++ rest ∧ ReadIn readDeclaration 2
      (.cdata body) ('[' :: ("CDATA[".toList ++ (body ++ "]]>".toList))) := by
  obtain ⟨hcs, hlocal⟩ := Text.cutBehind_append h (by decide)
  refine ⟨by simpa using hcs, by simp [List.getLast?_cons], ?_⟩
  intro start rest'
  have hoffset : start + 9 + byteSize body + 3 =
      start + 2 + byteSize ('[' :: ("CDATA[".toList ++ (body ++ "]]>".toList))) := by
    have hbracket : '['.utf8Size = 1 := rfl
    have hword : byteSize "CDATA[".toList = 6 := rfl
    have hmark : byteSize "]]>".toList = 3 := rfl
    simp only [byteSize, Text.byteSize_append, hbracket, hword, hmark]
    omega
  rw [List.cons_append, List.append_assoc, readDeclaration, hlocal rest', ← hoffset]

/-- A document type with a name is read up to its end, whatever follows it. -/
theorem readIn_doctype {first : Char} {cs content rest : List Char}
    (hletter : first = 'D' ∨ first = 'd')
    (h : (dropDoctypeWord? (first :: cs)).bind (cutDoctype 0) = some (content, rest))
    (hname : ¬ content.all Text.isMarkupBlank = true) :
    ∃ body, first :: cs = body ++ rest ∧ ReadIn readDeclaration 2 .skipped body := by
  obtain ⟨word, hword, hbytes, hlocal⟩ := cutDoctypeWord_append h
  refine ⟨word ++ (content ++ ['>']), by simpa using hword, by simp, ?_⟩
  intro start rest'
  have hoffset : start + 9 + byteSize content + 1 =
      start + 2 + byteSize (word ++ (content ++ ['>'])) := by
    have hclose : '>'.utf8Size = 1 := rfl
    simp only [byteSize, Text.byteSize_append, hclose] at hbytes ⊢
    omega
  have hhere := hlocal rest'
  have hlist : word ++ (content ++ ['>']) ++ rest' = word ++ (content ++ '>' :: rest') := by simp
  rw [hlist, ← hoffset]
  -- The keyword is not empty, so it begins with the letter.
  cases word with
  | nil => cases hbytes
  | cons w word =>
    obtain rfl : first = w := (List.cons.inj hword).1
    rw [List.cons_append] at hhere ⊢
    rcases hletter with rfl | rfl
    · simp only [readDeclaration, hhere, if_neg hname]
      rfl
    · simp only [readDeclaration, hhere, if_neg hname]
      rfl

/-- What is read behind `<!` is markup and is read so whatever follows it. -/
theorem readIn_readDeclaration {start : Nat} {cs : List Char} {t : Token} {c : Cursor}
    (h : readDeclaration start cs = .ok (t, c)) :
    ∃ body, cs = body ++ c.rest ∧ t.isMarkup = true ∧ ReadIn readDeclaration 2 t body := by
  unfold readDeclaration at h
  split at h
  · split at h
    · rename_i hcut
      obtain ⟨rfl, rfl⟩ := Prod.mk.inj (Except.ok.inj h)
      obtain ⟨rfl, hread⟩ := readIn_comment hcut
      exact ⟨_, rfl, rfl, hread⟩
    · cases h
  · split at h
    · rename_i hcut
      obtain ⟨rfl, rfl⟩ := Prod.mk.inj (Except.ok.inj h)
      obtain ⟨rfl, hread⟩ := readIn_cdata hcut
      exact ⟨_, rfl, rfl, hread⟩
    · cases h
  · split at h
    · rename_i hletter
      split at h
      · rename_i hcut
        split at h
        · cases h
        · rename_i hname
          obtain ⟨rfl, rfl⟩ := Prod.mk.inj (Except.ok.inj h)
          obtain ⟨body, hbody, hread⟩ := readIn_doctype hletter hcut hname
          exact ⟨body, hbody, rfl, hread⟩
      · cases h
    · cases h
  · cases h

/-- What is read behind `<?` is markup and is read so whatever follows it. -/
theorem readIn_readInstruction {start : Nat} {cs : List Char} {t : Token} {c : Cursor}
    (h : readInstruction start cs = .ok (t, c)) :
    ∃ body, cs = body ++ c.rest ∧ t.isMarkup = true ∧ ReadIn readInstruction 2 t body := by
  unfold readInstruction at h
  split at h
  · cases h
  · rename_i hhead
    split at h
    · rename_i body rest hcut
      obtain ⟨rfl, rfl⟩ := Prod.mk.inj (Except.ok.inj h)
      obtain rfl := Text.eq_append_of_cutAtMarker hcut
      refine ⟨body ++ "?>".toList, rfl, rfl, by simp, ?_⟩
      intro start rest'
      have hlocal := Text.cutAtMarker_append hcut (by decide) rest'
      have hhead' : (body ++ "?>".toList ++ rest').head? ≠ some '>' := by
        cases body with
        | nil => exact hhead
        | cons b body => exact hhead
      have hoffset : start + 2 + byteSize body + 2 =
          start + 2 + byteSize (body ++ "?>".toList) := by
        have hmark : byteSize "?>".toList = 2 := rfl
        rw [Text.byteSize_append, hmark]
        omega
      simp only [readInstruction, if_neg hhead', hlocal, hoffset]
    · cases h

/-- A tag that does not begin like other markup is read as far as its `>`. -/
theorem readMarkup_of_tag {first : Char} {cs content rest : List Char}
    (h : cutTag none (first :: cs) = some (content, rest)) (hdeclaration : first ≠ '!')
    (hinstruction : first ≠ '?') (hend : first ≠ '/') (start : Nat) :
    readMarkup start (first :: cs) =
      .ok (ofTagContent content, ⟨start + 1 + byteSize content + 1, rest⟩) := by
  unfold readMarkup
  split
  · rename_i heq
    exact absurd (List.cons.inj heq).1 hdeclaration
  · rename_i heq
    exact absurd (List.cons.inj heq).1 hinstruction
  · rename_i heq
    exact absurd (List.cons.inj heq).1 hend
  · rw [h]

/-- An end tag is read up to its bracket, whatever follows it. -/
theorem readIn_endTag {cs content rest : List Char} (h : cutTag none cs = some (content, rest)) :
    cs = content ++ ['>'] ++ rest ∧
      ReadIn readMarkup 1 (.endTag (endName content)) ('/' :: (content ++ ['>'])) := by
  obtain ⟨hcs, hlocal⟩ := cutTag_append h
  refine ⟨by simpa using hcs, by simp [List.getLast?_cons], ?_⟩
  intro start rest'
  have hoffset : start + 2 + byteSize content + 1 =
      start + 1 + byteSize ('/' :: (content ++ ['>'])) := by
    have hslash : '/'.utf8Size = 1 := rfl
    have hclose : '>'.utf8Size = 1 := rfl
    simp only [byteSize, Text.byteSize_append, hslash, hclose]
    omega
  have hlist : content ++ ['>'] ++ rest' = content ++ '>' :: rest' := by simp
  rw [List.cons_append, hlist, readMarkup, hlocal, ← hoffset]

/-- A tag that opens is read up to its bracket, whatever follows it. -/
theorem readIn_tag {first : Char} {cs content rest : List Char}
    (h : cutTag none (first :: cs) = some (content, rest)) (hdeclaration : first ≠ '!')
    (hinstruction : first ≠ '?') (hend : first ≠ '/') :
    first :: cs = content ++ ['>'] ++ rest ∧
      ReadIn readMarkup 1 (ofTagContent content) (content ++ ['>']) := by
  obtain ⟨hcs, hlocal⟩ := cutTag_append h
  refine ⟨by simpa using hcs, by simp, ?_⟩
  intro start rest'
  have hoffset : start + 1 + byteSize content + 1 =
      start + 1 + byteSize (content ++ ['>']) := by
    have hclose : '>'.utf8Size = 1 := rfl
    simp only [byteSize, Text.byteSize_append, hclose]
    omega
  have hlist : content ++ ['>'] ++ rest' = content ++ '>' :: rest' := by simp
  rw [hlist, ← hoffset]
  -- Whatever follows, the tag begins with the same character.
  obtain ⟨tail, htail⟩ : ∃ tail, content ++ '>' :: rest' = first :: tail := by
    cases content with
    | nil => exact ⟨rest', congrArg (· :: rest') (List.cons.inj hcs).1.symm⟩
    | cons d content => exact ⟨_, congrArg (· :: _) (List.cons.inj hcs).1.symm⟩
  have hhere := hlocal rest'
  rw [htail] at hhere ⊢
  exact readMarkup_of_tag hhere hdeclaration hinstruction hend start

/-- Markup is read from a first part of what follows its `<`, whatever comes behind that part. -/
theorem readIn_readMarkup {start : Nat} {cs : List Char} {t : Token} {c : Cursor}
    (h : readMarkup start cs = .ok (t, c)) :
    ∃ body, cs = body ++ c.rest ∧ t.isMarkup = true ∧ ReadIn readMarkup 1 t body := by
  unfold readMarkup at h
  split at h
  · obtain ⟨body, rfl, ht, hread⟩ := readIn_readDeclaration h
    exact ⟨'!' :: body, rfl, ht, hread.cons rfl fun _ _ => rfl⟩
  · obtain ⟨body, rfl, ht, hread⟩ := readIn_readInstruction h
    exact ⟨'?' :: body, rfl, ht, hread.cons rfl fun _ _ => rfl⟩
  · split at h
    · rename_i hcut
      obtain ⟨rfl, rfl⟩ := Prod.mk.inj (Except.ok.inj h)
      obtain ⟨rfl, hread⟩ := readIn_endTag hcut
      exact ⟨_, rfl, rfl, hread⟩
    · cases h
  · rename_i hdeclaration hinstruction hend
    split at h
    · rename_i content rest hcut
      obtain ⟨rfl, rfl⟩ := Prod.mk.inj (Except.ok.inj h)
      have hmarkup : (ofTagContent content).isMarkup = true := by
        unfold ofTagContent
        split <;> rfl
      cases cs with
      | nil => cases hcut
      | cons first cs =>
        obtain ⟨hcs, hread⟩ := readIn_tag hcut (fun heq => hdeclaration cs (by rw [heq]))
          (fun heq => hinstruction cs (by rw [heq])) (fun heq => hend cs (by rw [heq]))
        exact ⟨_, hcs, hmarkup, hread⟩
    · cases h

/-- What follows a `<`, by the form in which it begins, with the token and what is left behind
it. -/
inductive ReadAs : List Char → Token → List Char → Prop
  | comment {cs body rest : List Char} :
    (Text.dropStart? ['-'] cs).bind (Text.cutAtMarker "-->".toList) = some (body, rest) →
    ReadAs ('!' :: '-' :: cs) (.comment body) rest
  | cdata {cs body rest : List Char} :
    (Text.dropStart? "CDATA[".toList cs).bind (Text.cutAtMarker "]]>".toList) = some (body, rest) →
    ReadAs ('!' :: '[' :: cs) (.cdata body) rest
  | skipped {cs rest : List Char} : ReadAs cs .skipped rest
  | endTag {cs content rest : List Char} : cutTag none cs = some (content, rest) →
    ReadAs ('/' :: cs) (.endTag (endName content)) rest
  | startTag {first : Char} {cs content rest : List Char} :
    cutTag none (first :: cs) = some (content, rest) → content.getLast? ≠ some '/' →
    first ≠ '!' ∧ first ≠ '?' ∧ first ≠ '/' → ReadAs (first :: cs) (.startTag content) rest
  | emptyTag {first : Char} {cs content rest : List Char} :
    cutTag none (first :: cs) = some (content ++ ['/'], rest) →
    first ≠ '!' ∧ first ≠ '?' ∧ first ≠ '/' → ReadAs (first :: cs) (.emptyTag content) rest

/-- Markup that can be read has one of the forms of markup. -/
theorem readAs_of_readMarkup {start : Nat} {cs : List Char} {t : Token} {c : Cursor}
    (h : readMarkup start cs = .ok (t, c)) : ReadAs cs t c.rest := by
  unfold readMarkup at h
  split at h
  · unfold readDeclaration at h
    split at h
    · split at h
      · rename_i hcut
        obtain ⟨rfl, rfl⟩ := Prod.mk.inj (Except.ok.inj h)
        exact .comment hcut
      · cases h
    · split at h
      · rename_i hcut
        obtain ⟨rfl, rfl⟩ := Prod.mk.inj (Except.ok.inj h)
        exact .cdata hcut
      · cases h
    · split at h
      · split at h
        · split at h
          · cases h
          · obtain ⟨rfl, rfl⟩ := Prod.mk.inj (Except.ok.inj h)
            exact .skipped
        · cases h
      · cases h
    · cases h
  · unfold readInstruction at h
    split at h
    · cases h
    · split at h
      · obtain ⟨rfl, rfl⟩ := Prod.mk.inj (Except.ok.inj h)
        exact .skipped
      · cases h
  · split at h
    · rename_i hcut
      obtain ⟨rfl, rfl⟩ := Prod.mk.inj (Except.ok.inj h)
      exact .endTag hcut
    · cases h
  · rename_i hdeclaration hinstruction hend
    split at h
    · rename_i content rest hcut
      obtain ⟨rfl, rfl⟩ := Prod.mk.inj (Except.ok.inj h)
      cases cs with
      | nil => cases hcut
      | cons first cs =>
        have hfirst : first ≠ '!' ∧ first ≠ '?' ∧ first ≠ '/' :=
          ⟨fun heq => hdeclaration cs (by rw [heq]), fun heq => hinstruction cs (by rw [heq]),
            fun heq => hend cs (by rw [heq])⟩
        unfold ofTagContent Text.dropEnd?
        by_cases hlast : content.getLast? = some '/'
        · rw [if_pos hlast]
          rw [← List.dropLast_append_getLast? _ hlast] at hcut
          exact .emptyTag hcut hfirst
        · rw [if_neg hlast]
          exact .startTag hcut hlast hfirst
    · cases h

/-! ## Pieces of a text -/

/-- A token with the characters that it is read from. -/
structure Piece where
  token : Token
  spelling : List Char

namespace Piece

/-- The characters are those of the token: character data without a `<`, or markup that is read
from them whatever follows. -/
inductive Spelled : Piece → Prop
  | text {raw : List Char} : raw ≠ [] → '<' ∉ raw → Spelled ⟨.text raw, raw⟩
  | markup {t : Token} {body : List Char} : t.isMarkup = true → ReadIn readMarkup 1 t body →
    Spelled ⟨t, '<' :: body⟩

/-- Markup shows its form in its own characters. -/
theorem readAs_of_spelled {t : Token} {spelling : List Char} (h : Spelled ⟨t, spelling⟩)
    (hmarkup : t.isMarkup = true) :
    ∃ body, spelling = '<' :: body ∧ ReadAs body t [] := by
  cases h with
  | text => cases hmarkup
  | @markup _ body _ hread =>
    have hbody := readAs_of_readMarkup (hread.read 0 [])
    rw [List.append_nil] at hbody
    exact ⟨body, rfl, hbody⟩

/-- The text that some pieces make up. -/
def join (pieces : List Piece) : List Char := pieces.flatMap spelling

/-- The text of some pieces begins with that of the first one. -/
theorem join_cons (p : Piece) (rest : List Piece) : join (p :: rest) = p.spelling ++ join rest :=
  List.flatMap_cons

/-- The texts of two runs of pieces follow each other. -/
theorem join_append (before after : List Piece) :
    join (before ++ after) = join before ++ join after := List.flatMap_append

/-- The tokens of some pieces, where the first one begins at `start`. -/
def place : Nat → List Piece → List PlacedToken
  | _, [] => []
  | start, p :: rest =>
    ⟨p.token, start, start + byteSize p.spelling⟩ :: place (start + byteSize p.spelling) rest

/-- Pieces that are spelled, of which no two neighbours are character data. -/
structure Chain (pieces : List Piece) : Prop where
  spelled : ∀ p ∈ pieces, p.Spelled
  apart : pieces.IsChain fun p q => p.token.isMarkup = true ∨ q.token.isMarkup = true

end Piece

open Piece

/-- Markup begins with `<`, and nothing else does. -/
theorem Piece.Spelled.head {p : Piece} (h : p.Spelled) : ∃ first rest,
    p.spelling = first :: rest ∧ (first = '<' ↔ p.token.isMarkup = true) := by
  cases h with
  | text hne hno =>
    obtain ⟨first, rest, rfl⟩ := List.exists_cons_of_ne_nil hne
    rw [List.mem_cons, not_or] at hno
    exact ⟨first, rest, rfl, iff_of_false (fun heq => hno.1 heq.symm) Bool.false_ne_true⟩
  | markup ht _ => exact ⟨'<', _, rfl, iff_of_true rfl ht⟩

/-- A chain stays one without its first piece. -/
theorem Piece.Chain.tail {p : Piece} {rest : List Piece} (h : Chain (p :: rest)) : Chain rest :=
  ⟨fun q hq => h.spelled q (List.mem_cons_of_mem _ hq), h.apart.tail⟩

/-- Behind character data a chain ends or goes on with a `<`. -/
theorem Piece.Chain.behind_text {raw spelling : List Char} {rest : List Piece}
    (h : Chain (⟨.text raw, spelling⟩ :: rest)) :
    join rest = [] ∨ ∃ tail, join rest = '<' :: tail := by
  cases rest with
  | nil => exact .inl rfl
  | cons q rest =>
    obtain ⟨first, tail, hspelling, hfirst⟩ := (h.spelled q (by simp)).head
    have hmarkup : q.token.isMarkup = true := by
      have hor := (List.isChain_cons.mp h.apart).1 q rfl
      exact hor.resolve_left Bool.false_ne_true
    rw [hfirst.mpr hmarkup] at hspelling
    exact .inr ⟨tail ++ join rest, by rw [join_cons, hspelling]; rfl⟩

/-- A piece is read where the text goes on with the rest of a chain. -/
theorem readOne_of_chain {p : Piece} {rest : List Piece} (h : Chain (p :: rest)) (start : Nat) :
    ∃ first tail, p.spelling = first :: tail ∧ readOne start first (tail ++ join rest) =
      .ok (p.token, ⟨start + byteSize p.spelling, join rest⟩) := by
  cases h.spelled p List.mem_cons_self with
  | @text raw hne hno =>
    obtain ⟨first, tail, rfl⟩ := List.exists_cons_of_ne_nil hne
    rw [List.mem_cons, not_or] at hno
    have hkeep : ∀ c ∈ tail, (decide (c ≠ '<')) = true := by
      intro c hc
      refine decide_eq_true ?_
      rintro rfl
      exact hno.2 hc
    have htake : (tail ++ join rest).takeWhile (· ≠ '<') = tail := by
      rw [List.takeWhile_append_of_pos hkeep]
      rcases h.behind_text with hnil | ⟨tail', htail⟩
      · rw [hnil, List.takeWhile_nil, List.append_nil]
      · rw [htail, List.takeWhile_cons_of_neg (by decide), List.append_nil]
    have hdrop : (tail ++ join rest).dropWhile (· ≠ '<') = join rest := by
      rw [List.dropWhile_append_of_pos hkeep]
      rcases h.behind_text with hnil | ⟨tail', htail⟩
      · rw [hnil, List.dropWhile_nil]
      · rw [htail, List.dropWhile_cons_of_neg (by decide)]
    refine ⟨first, tail, rfl, ?_⟩
    rw [readOne, if_neg (fun heq => hno.1 heq.symm), htake, hdrop]
  | @markup t body ht hbody =>
    refine ⟨'<', body, rfl, ?_⟩
    rw [readOne, if_pos rfl, hbody.read, byteSize, Nat.add_assoc]
    rfl

/-- A chain of pieces is read as their tokens. -/
theorem readFrom_join {pieces : List Piece} (h : Chain pieces) (start : Nat) :
    (readFrom ⟨start, join pieces⟩).fault? = none ∧
      (readFrom ⟨start, join pieces⟩).items = place start pieces := by
  induction pieces generalizing start with
  | nil =>
    rw [join, List.flatMap_nil, readFrom_nil]
    exact ⟨rfl, rfl⟩
  | cons p rest ih =>
    obtain ⟨first, tail, hspelling, hone⟩ := readOne_of_chain h start
    obtain ⟨hfault, hitems⟩ := ih h.tail (start + byteSize p.spelling)
    rw [join_cons, hspelling, List.cons_append, readFrom_cons hone]
    exact ⟨hfault, congrArg (_ :: ·) hitems⟩

/-- Where no token can be read, reading ends with the fault. -/
theorem readFrom_failed {offset : Nat} {first : Char} {cs : List Char} {fault : PlacedFault}
    (h : readOne offset first cs = .error fault) :
    readFrom ⟨offset, first :: cs⟩ = .failed fault := by
  rw [readFrom]
  split
  · rename_i hnil
    cases hnil
  · rename_i first' cs' hcons
    obtain ⟨rfl, rfl⟩ := List.cons.inj hcons
    split
    · rename_i fault' hfault
      rw [h] at hfault
      obtain rfl := Except.error.inj hfault
      rfl
    · rename_i token next hok
      rw [h] at hok
      cases hok

/-- A token that is read makes a piece, in front of whatever is read behind it. -/
theorem chain_of_readOne {offset : Nat} {first : Char} {cs : List Char} {token : Token}
    {next : Cursor} (h : readOne offset first cs = .ok (token, next)) {rest : List Piece}
    (hrest : Chain rest) (hjoin : join rest = next.rest) :
    ∃ spelling, Chain (⟨token, spelling⟩ :: rest) ∧ spelling ++ next.rest = first :: cs ∧
      next.offset = offset + byteSize spelling := by
  unfold readOne at h
  split at h
  · rename_i hfirst
    subst hfirst
    obtain ⟨body, rfl, ht, hbody⟩ := readIn_readMarkup h
    have hnext := hbody.read offset next.rest
    rw [h] at hnext
    obtain ⟨-, hnext⟩ := Prod.mk.inj (Except.ok.inj hnext)
    refine ⟨'<' :: body, ⟨?_, ?_⟩, rfl, ?_⟩
    · exact List.forall_mem_cons.mpr ⟨.markup ht hbody, hrest.spelled⟩
    · exact List.isChain_cons.mpr ⟨fun q _ => .inl ht, hrest.apart⟩
    · rw [hnext, byteSize, Nat.add_assoc]
      rfl
  · rename_i hfirst
    obtain ⟨rfl, rfl⟩ := Prod.mk.inj (Except.ok.inj h)
    have hno : '<' ∉ first :: cs.takeWhile (· ≠ '<') := by
      rw [List.mem_cons, not_or]
      refine ⟨fun heq => hfirst heq.symm, fun hmem => ?_⟩
      simpa using List.mem_takeWhile_imp hmem
    refine ⟨_, ⟨?_, ?_⟩, ?_, rfl⟩
    · exact List.forall_mem_cons.mpr ⟨.text (List.cons_ne_nil _ _) hno, hrest.spelled⟩
    · refine List.isChain_cons.mpr ⟨?_, hrest.apart⟩
      intro q hq
      -- What follows begins with the `<` at which the character data ended.
      obtain ⟨rest, rfl⟩ : ∃ others, rest = q :: others := by
        cases rest with
        | nil => cases hq
        | cons q' others => exact ⟨others, by rw [Option.some.inj hq]⟩
      obtain ⟨c, tail, hspelling, hc⟩ := (hrest.spelled q List.mem_cons_self).head
      have hbehind : c :: (tail ++ join rest) = cs.dropWhile (· ≠ '<') := by
        rw [← List.cons_append, ← hspelling, ← join_cons]
        exact hjoin
      have hstop := List.head?_dropWhile_not (· ≠ '<') cs
      rw [← hbehind] at hstop
      exact .inr (hc.mp (by simpa using hstop))
    · show first :: (cs.takeWhile (· ≠ '<') ++ cs.dropWhile (· ≠ '<')) = first :: cs
      rw [List.takeWhile_append_dropWhile]

/-- What is read without a fault is a chain of pieces. -/
theorem exists_chain (c : Cursor) (h : (readFrom c).fault? = none) :
    ∃ pieces, Chain pieces ∧ join pieces = c.rest ∧
      (readFrom c).items = place c.offset pieces := by
  obtain ⟨offset, cs⟩ := c
  induction hlength : cs.length using Nat.strongRecOn generalizing offset cs with
  | ind n ih =>
    cases cs with
    | nil =>
      refine ⟨[], ⟨fun p hp => (by cases hp), .nil⟩, rfl, ?_⟩
      rw [readFrom_nil]
      rfl
    | cons first cs =>
      cases hone : readOne offset first cs with
      | error fault =>
        rw [readFrom_failed hone] at h
        cases h
      | ok read =>
        obtain ⟨token, next⟩ := read
        rw [readFrom_cons hone] at h ⊢
        have hlt := length_le_of_readOne hone
        rw [List.length_cons] at hlength
        obtain ⟨rest, hchain, hjoin, hitems⟩ :=
          ih next.rest.length (by omega) next.offset next.rest h rfl
        obtain ⟨spelling, hchain', hspelling, hoffset⟩ := chain_of_readOne hone hchain hjoin
        refine ⟨⟨token, spelling⟩ :: rest, hchain', ?_, ?_⟩
        · rw [join_cons, hjoin]
          exact hspelling
        · rw [place, ← hoffset]
          exact congrArg (_ :: ·) hitems

end Markup.Token

end XmlCompare
