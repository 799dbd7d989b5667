import XmlCompare.Markup.Fault
import XmlCompare.Text.Blank
import XmlCompare.Text.Cursor

/-!
# The name and the attributes of a tag

A tag begins with its name, which ends at the first blank. What follows the name is read as
attributes: a key, an equals sign, and a value in quotes, with blanks allowed around the sign and
required nowhere else. A key takes at least one character, whatever that character is, and runs on
to a blank or an equals sign. Keys may not repeat. The references of a value are resolved before
the next attribute is looked at, so the first fault in the order of the text is the one that is
found.

Positions count bytes from behind the `<` of the tag; faults that are noticed only at the end of
the tag stand at `size`, the number of bytes in the tag.
-/

set_option autoImplicit false

namespace XmlCompare.Markup.Tag

open Text (Cursor)

/-- A character that goes on with a key that has begun. -/
def isKeyChar (c : Char) : Bool := c ≠ '=' && !Text.isMarkupBlank c

/-- Reads the rest of a key whose first character has been read, and the equals sign. -/
def readKey (size : Nat) (first : Char) (c : Cursor) :
    Except AttributeFault (List Char × Cursor) :=
  let sign := (c.skip isKeyChar).skip Text.isMarkupBlank
  match sign.rest with
  | [] => .error (.expectedEquals size)
  | e :: rest =>
    if e = '=' then .ok (first :: c.rest.takeWhile isKeyChar, sign.past [e] rest)
    else .error (.expectedEquals sign.offset)

/-- Reads a value in quotes, of either kind, with the blanks before it. -/
def readValue (size : Nat) (c : Cursor) : Except AttributeFault (List Char × Cursor) :=
  let start := c.skip Text.isMarkupBlank
  match start.rest with
  | [] => .error (.expectedValue size)
  | quote :: rest =>
    if quote = '"' ∨ quote = '\'' then
      match Text.cutAt quote rest with
      | none => .error (.missingQuote size quote)
      | some (value, rest) => .ok (value, start.past (quote :: value ++ [quote]) rest)
    else .error (.unquotedValue start.offset)

/-- A key takes its equals sign with it, so less is left than there was. -/
theorem length_lt_of_readKey {size : Nat} {first : Char} {c c' : Cursor} {key : List Char}
    (h : readKey size first c = .ok (key, c')) : c'.rest.length < c.rest.length := by
  rw [readKey] at h
  split at h
  · cases h
  · rename_i e rest hrest
    split at h
    · simp only [Except.ok.injEq, Prod.mk.injEq] at h
      obtain ⟨-, rfl⟩ := h
      have h₁ := Cursor.length_skip_le Text.isMarkupBlank (c.skip isKeyChar)
      have h₂ := Cursor.length_skip_le isKeyChar c
      rw [hrest, List.length_cons] at h₁
      simp only [Cursor.past]
      omega
    · cases h

/-- A value takes its quotes with it, so less is left than there was. -/
theorem length_lt_of_readValue {size : Nat} {c c' : Cursor} {value : List Char}
    (h : readValue size c = .ok (value, c')) : c'.rest.length < c.rest.length := by
  rw [readValue] at h
  split at h
  · cases h
  · rename_i quote rest hrest
    split at h
    · split at h
      · cases h
      · rename_i v rest' hcut
        simp only [Except.ok.injEq, Prod.mk.injEq] at h
        obtain ⟨-, rfl⟩ := h
        have h₁ := Cursor.length_skip_le Text.isMarkupBlank c
        have h₂ := Text.length_lt_of_cutAt hcut
        rw [hrest, List.length_cons] at h₁
        simp only [Cursor.past]
        omega
    · cases h

/-- Reads the attributes from `c` on. `seen` holds the keys that have been read, each with its
position. -/
@[semireducible] def attributesFrom (size : Nat) (seen : List (List Char × Nat)) (c : Cursor) :
    Except EncodingFault (List (String × String)) :=
  let start := c.skip Text.isMarkupBlank
  match hs : start.rest with
  | [] => .ok []
  | first :: rest =>
    match hk : readKey size first (start.past [first] rest) with
    | .error fault => .error (.attribute fault)
    | .ok (key, c₁) =>
      match seen.lookup key with
      | some earlier => .error (.attribute (.duplicated start.offset earlier))
      | none =>
        match hv : readValue size c₁ with
        | .error fault => .error (.attribute fault)
        | .ok (raw, c₂) =>
          match Text.unescape raw with
          | .error fault => .error (.entity fault)
          | .ok value =>
            have : c₂.rest.length < c.rest.length := by
              have h₁ := Cursor.length_skip_le Text.isMarkupBlank c
              have h₂ := length_lt_of_readKey hk
              have h₃ := length_lt_of_readValue hv
              have h₄ : start.rest = (c.skip Text.isMarkupBlank).rest := rfl
              rw [← h₄, hs, List.length_cons] at h₁
              simp only [Cursor.past] at h₂
              omega
            (attributesFrom size ((key, start.offset) :: seen) c₂).map
              ((String.ofList key, String.ofList value) :: ·)
termination_by c.rest.length

/-- The name in a tag: what stands before the first blank. -/
def name (content : List Char) : List Char :=
  content.takeWhile (!Text.isMarkupBlank ·)

/-- The attributes in a tag, in order, with the references of their values resolved. -/
def attributes (content : List Char) : Except EncodingFault (List (String × String)) :=
  attributesFrom (Text.byteSize content) [] ((Cursor.mk 0 content).skip (!Text.isMarkupBlank ·))

end XmlCompare.Markup.Tag
