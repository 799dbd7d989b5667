import XmlCompare.Text.Cut
import XmlCompare.Text.Numeral

/-!
# References and escaping

Character data and attribute values stand in a text with references for the characters that
markup uses. `unescape` resolves the five named references and the numeric ones, and says where
and why it cannot; `escape` and `escapeText` write references, the first for every character
that has a name, the second only for those that character data cannot hold.

Ranges in faults count bytes from the start of the text that is resolved.
-/

set_option autoImplicit false

namespace XmlCompare.Text

/-- Why a numeric reference names no character. -/
inductive CharacterFault
  | sign
  | numeral (fault : NumeralFault)
  | null
  | notCodePoint (value : Nat)
  deriving DecidableEq, Repr

/-- Why a text with references cannot be resolved. -/
inductive EntityFault
  | unterminated (start stop : Nat)
  | unrecognized (start stop : Nat) (name : String)
  | badCharacter (fault : CharacterFault)
  deriving DecidableEq, Repr

/-- What is said about a numeric reference that names no character. -/
def CharacterFault.message : CharacterFault → String
  | .sign => "unexpected number sign"
  | .numeral fault => fault.message
  | .null => "0x0 character is not permitted in XML"
  | .notCodePoint value => "`" ++ toString value ++ "` is not a valid codepoint"

/-- What is said about a reference that cannot be resolved. -/
def EntityFault.message : EntityFault → String
  | .unterminated start stop =>
    "Error while escaping character at range " ++ toString start ++ ".." ++ toString stop
      ++ ": Cannot find ';' after '&'"
  | .unrecognized start stop name =>
    "at " ++ toString start ++ ".." ++ toString stop ++ ": unrecognized entity `" ++ name ++ "`"
  | .badCharacter fault => "invalid character reference: " ++ fault.message

/-- The characters that have a named reference, each with its name. -/
def namedCharacters : List (String × Char) :=
  [("lt", '<'), ("gt", '>'), ("amp", '&'), ("apos", '\''), ("quot", '"')]

/-- The character with code point `n`, if there is one: surrogates and numbers above the last
code point name none. -/
def codePoint? (n : Nat) : Option Char :=
  if h : n.isValidChar then some (Char.ofNatAux n h) else none

/-- Reads the digits of a numeric reference: one sign is looked for first, then the numeral is
read in the given base, then its value must be that of a character other than NUL. -/
def readCharacter (base : Nat) (digits : List Char) : Except CharacterFault Char :=
  if digits.head? = some '+' ∨ digits.head? = some '-' then .error .sign
  else
    match readNumeral base (Nat.pow 2 32) digits with
    | .error fault => .error (.numeral fault)
    | .ok 0 => .error .null
    | .ok n =>
      match codePoint? n with
      | some c => .ok c
      | none => .error (.notCodePoint n)

/-- The character that the reference with this name stands for; `start` is where the name
begins. -/
def resolve (start : Nat) (name : List Char) : Except EntityFault Char :=
  match name with
  | '#' :: 'x' :: digits => (readCharacter 16 digits).mapError .badCharacter
  | '#' :: digits => (readCharacter 10 digits).mapError .badCharacter
  | _ =>
    match namedCharacters.lookup (String.ofList name) with
    | some c => .ok c
    | none => .error (.unrecognized start (start + byteSize name) (String.ofList name))

/-- The name of the reference whose `&` has been read, and what follows its `;`. Another `&`
before the `;` leaves the reference without an end. -/
def cutReference : List Char → Option (List Char × List Char)
  | [] => none
  | c :: cs =>
    if c = ';' then some ([], cs)
    else if c = '&' then none
    else (cutReference cs).map fun (name, rest) => (c :: name, rest)

/-- A reference takes its semicolon with it, so less is left than there was. -/
theorem length_lt_of_cutReference {cs name rest : List Char}
    (h : cutReference cs = some (name, rest)) : rest.length < cs.length := by
  induction cs generalizing name with
  | nil => simp [cutReference] at h
  | cons c cs ih =>
    rw [cutReference] at h
    split at h
    · simp only [Option.some.injEq, Prod.mk.injEq] at h
      simp [h.2]
    · split at h
      · cases h
      · simp only [Option.map_eq_some_iff, Prod.mk.injEq, Prod.exists] at h
        obtain ⟨x, y, hxy, rfl, rfl⟩ := h
        have := ih hxy
        simp only [List.length_cons]
        omega

/-- Resolves the references in what is left of a text of `size` bytes from byte `offset` on. -/
@[semireducible] def unescapeFrom (size offset : Nat) (cs : List Char) :
    Except EntityFault (List Char) :=
  match cs with
  | [] => .ok []
  | c :: cs =>
    if c = '&' then
      match h : cutReference cs with
      | none => .error (.unterminated offset size)
      | some (name, rest) =>
        have : rest.length < cs.length := length_lt_of_cutReference h
        do
          let character ← resolve (offset + 1) name
          let more ← unescapeFrom size (offset + 1 + byteSize name + 1) rest
          return character :: more
    else do
      let more ← unescapeFrom size (offset + c.utf8Size) cs
      return c :: more
termination_by cs.length

/-- A text with its references resolved. -/
def unescape (cs : List Char) : Except EntityFault (List Char) :=
  unescapeFrom (byteSize cs) 0 cs

/-- The reference that a character is written as where every special character is escaped. -/
def escapeChar (c : Char) : List Char :=
  match c with
  | '<' => "&lt;".toList
  | '>' => "&gt;".toList
  | '&' => "&amp;".toList
  | '\'' => "&apos;".toList
  | '"' => "&quot;".toList
  | c => [c]

/-- The reference that a character is written as in character data. -/
def escapeTextChar (c : Char) : List Char :=
  match c with
  | '<' => "&lt;".toList
  | '>' => "&gt;".toList
  | '&' => "&amp;".toList
  | c => [c]

/-- A text as it is written between quotes. -/
def escape (s : String) : String := String.ofList (s.toList.flatMap escapeChar)

/-- A text as it is written between tags. -/
def escapeText (s : String) : String := String.ofList (s.toList.flatMap escapeTextChar)

end XmlCompare.Text
