import Mathlib.Data.List.TakeWhile
import XmlCompare.Proofs.Markup.Spelling
import XmlCompare.Proofs.Text.References
import XmlCompare.Proofs.Text.Words

/-!
# Tags that are written

A tag is written as a name and assignments, each of which has blanks in front of it and its value
between double quotes. Quotes are closed before the tag ends, so it is cut at its own `>`; and where
names are plain the reader of attributes comes from the end of one assignment to the end of the
next, so it finds them as they were written.
-/

set_option autoImplicit false

namespace XmlCompare.Markup

open Text (Cursor byteSize isMarkupBlank)

namespace Tag

/-- A character with which a tag, a value or an assignment begins or ends. -/
def isReserved (c : Char) : Bool :=
  c = '"' || c = '\'' || c = '<' || c = '>' || c = '/' || c = '='

/-- A name that is not empty, holds no reserved character and does not begin like a declaration or
an instruction. -/
def PlainName (name : List Char) : Prop :=
  name ≠ [] ∧ (∀ c ∈ name, isReserved c = false) ∧ ∀ c ∈ name.head?, c ≠ '!' ∧ c ≠ '?'

-- The search for an instance would go through all characters there are.
instance (name : List Char) : Decidable (PlainName name) :=
  decidable_of_iff ((!name.isEmpty && name.all (!isReserved ·) &&
    name.head?.all fun c => c ≠ '!' && c ≠ '?') = true) (by
      cases name <;> simp [PlainName])

/-- A name that no blank cuts in two. -/
def Unbroken (name : List Char) : Prop := ∀ c ∈ name, isMarkupBlank c = false

variable {name value gap tail : List Char}

/-- All of an unbroken name is read as part of the name. -/
theorem Unbroken.not_isMarkupBlank (h : Unbroken name) : ∀ c ∈ name, (!isMarkupBlank c) = true := by
  intro c hc
  rw [h c hc]
  rfl

/-- No character of a plain name is reserved. -/
theorem PlainName.ne_of_mem (h : PlainName name) {c d : Char} (hc : c ∈ name)
    (hd : isReserved d = true) : c ≠ d := by
  rintro rfl
  rw [h.2.1 c hc] at hd
  cases hd

/-! ## Names are unbroken -/

/-- The name in a tag is unbroken, whatever the tag is. -/
theorem unbroken_name (content : List Char) : Unbroken (Tag.name content) := by
  intro c hc
  simpa using List.mem_takeWhile_imp hc

/-- A key that is read is unbroken if its first character is no blank. -/
theorem unbroken_of_readKey {size : Nat} {first : Char} {c c' : Cursor} {key : List Char}
    (h : readKey size first c = .ok (key, c')) (hfirst : isMarkupBlank first = false) :
    Unbroken key := by
  unfold readKey at h
  dsimp only at h
  split at h
  · cases h
  · split at h
    · obtain ⟨rfl, -⟩ := Prod.mk.inj (Except.ok.inj h)
      refine List.forall_mem_cons.mpr ⟨hfirst, fun d hd => ?_⟩
      have hkey := List.mem_takeWhile_imp hd
      simp only [isKeyChar, Bool.and_eq_true, Bool.not_eq_true'] at hkey
      exact hkey.2
    · cases h

/-- What is left behind blanks does not begin with a blank. -/
theorem head_skip {c : Cursor} {first : Char} {rest : List Char}
    (h : (c.skip isMarkupBlank).rest = first :: rest) : isMarkupBlank first = false := by
  have hhead := List.head?_dropWhile_not isMarkupBlank c.rest
  have hdrop : c.rest.dropWhile isMarkupBlank = first :: rest := h
  simpa [hdrop] using hhead

/-- The names of attributes that are read are unbroken. -/
theorem unbroken_of_attributesFrom {size : Nat} {seen : List (List Char × Nat)} {c : Cursor}
    {attributes : List (String × String)} (h : attributesFrom size seen c = .ok attributes) :
    ∀ a ∈ attributes, Unbroken a.1.toList := by
  fun_induction attributesFrom size seen c generalizing attributes with
  | case1 =>
    obtain rfl := Except.ok.inj h
    simp
  | case6 =>
    rename_i seen c start first rest hstart key c₁ hkey hlookup raw c₂ hvalue value hraw hlt ih
    cases hrest : attributesFrom size ((key, start.offset) :: seen) c₂ with
    | error fault =>
      rw [hrest] at h
      cases h
    | ok more =>
      rw [hrest] at h
      obtain rfl := Except.ok.inj h
      refine List.forall_mem_cons.mpr ⟨?_, ih hrest⟩
      rw [String.toList_ofList]
      exact unbroken_of_readKey hkey (head_skip hstart)
  | _ => cases h

/-- The names of attributes are unbroken. -/
theorem unbroken_of_attributes {content : List Char} {attributes : List (String × String)}
    (h : Tag.attributes content = .ok attributes) : ∀ a ∈ attributes, Unbroken a.1.toList :=
  unbroken_of_attributesFrom h

/-! ## Assignments are read as they are written -/

/-- A cursor comes behind the characters that it skips. -/
theorem skip_append {p : Char → Bool} {skipped : List Char} (h : ∀ c ∈ skipped, p c = true)
    (rest : List Char) (hrest : ∀ c ∈ rest.head?, p c = false) (offset : Nat) :
    (Cursor.mk offset (skipped ++ rest)).skip p = ⟨offset + byteSize skipped, rest⟩ := by
  have htake : rest.takeWhile p = [] := by
    cases rest with
    | nil => rfl
    | cons c rest => exact List.takeWhile_cons_of_neg (by simp [hrest c rfl])
  have hdrop : rest.dropWhile p = rest := by
    cases rest with
    | nil => rfl
    | cons c rest => exact List.dropWhile_cons_of_neg (by simp [hrest c rfl])
  rw [Cursor.skip, List.takeWhile_append_of_pos h, List.dropWhile_append_of_pos h, htake, hdrop,
    List.append_nil]

/-- A cursor stays where there is nothing to skip. -/
theorem skip_eq_self {p : Char → Bool} (rest : List Char) (hrest : ∀ c ∈ rest.head?, p c = false)
    (offset : Nat) : (Cursor.mk offset rest).skip p = ⟨offset, rest⟩ := by
  have hnone : ∀ c ∈ ([] : List Char), p c = true := by simp
  exact skip_append hnone rest hrest offset

/-- A name and its value as they are written. -/
def assignment (a : String × String) : List Char :=
  a.1.toList ++ '=' :: '"' :: (a.2.toList.flatMap Text.escapeChar ++ ['"'])

/-- A key with an equals sign behind it is read as that key. -/
theorem readKey_append {key : List Char} (h : ∀ c ∈ key, isKeyChar c = true) (size offset : Nat)
    (first : Char) (tail : List Char) : ∃ offset',
      readKey size first ⟨offset, key ++ '=' :: tail⟩ = .ok (first :: key, ⟨offset', tail⟩) := by
  have hskip := skip_append h ('=' :: tail) (by rintro c ⟨⟩; rfl) offset
  have hblank := skip_eq_self (p := isMarkupBlank) ('=' :: tail) (by rintro c ⟨⟩; rfl)
    (offset + byteSize key)
  have htake : (key ++ '=' :: tail).takeWhile isKeyChar = key := by
    rw [List.takeWhile_append_of_pos h, List.takeWhile_cons_of_neg (by decide), List.append_nil]
  unfold readKey
  simp only [hskip, hblank, htake, if_true]
  exact ⟨_, rfl⟩

/-- A value in double quotes that holds none is read as that value. -/
theorem readValue_append (hvalue : '"' ∉ value) (size offset : Nat) (tail : List Char) :
    ∃ offset', readValue size ⟨offset, '"' :: (value ++ '"' :: tail)⟩ =
      .ok (value, ⟨offset', tail⟩) := by
  have hskip := skip_eq_self (p := isMarkupBlank) ('"' :: (value ++ '"' :: tail))
    (by rintro c ⟨⟩; rfl) offset
  have hcut : Text.cutAt '"' (value ++ '"' :: tail) = some (value, tail) :=
    Text.cutAt_eq_some_iff.mpr ⟨hvalue, rfl⟩
  unfold readValue
  simp only [hskip, hcut, true_or, if_true]
  exact ⟨_, rfl⟩

/-- Where an attribute can be read whose key is new, the attributes are that one and those behind
it. -/
theorem attributesFrom_cons {size : Nat} {seen : List (List Char × Nat)} {c c₁ c₂ : Cursor}
    {first : Char} {rest key raw value : List Char}
    (hstart : (c.skip isMarkupBlank).rest = first :: rest)
    (hkey : readKey size first ((c.skip isMarkupBlank).past [first] rest) = .ok (key, c₁))
    (hseen : seen.lookup key = none) (hvalue : readValue size c₁ = .ok (raw, c₂))
    (hraw : Text.unescape raw = .ok value) : attributesFrom size seen c =
      (attributesFrom size ((key, (c.skip isMarkupBlank).offset) :: seen) c₂).map
        ((String.ofList key, String.ofList value) :: ·) := by
  rw [attributesFrom]
  split
  · rename_i hnil
    rw [hstart] at hnil
    cases hnil
  · rename_i first' rest' hcons
    rw [hstart] at hcons
    obtain ⟨rfl, rfl⟩ := List.cons.inj hcons
    split
    · rename_i hfault
      rw [hkey] at hfault
      cases hfault
    · rename_i key' c₁' hkey'
      rw [hkey] at hkey'
      obtain ⟨rfl, rfl⟩ := Prod.mk.inj (Except.ok.inj hkey')
      rw [hseen]
      dsimp only
      split
      · rename_i hfault
        rw [hvalue] at hfault
        cases hfault
      · rename_i raw' c₂' hvalue'
        rw [hvalue] at hvalue'
        obtain ⟨rfl, rfl⟩ := Prod.mk.inj (Except.ok.inj hvalue')
        rw [hraw]

/-- An assignment that is written behind blanks is read as the attribute it was, if its name is
new. -/
theorem attributesFrom_assignment {name value : String} (hplain : PlainName name.toList)
    (hunbroken : Unbroken name.toList) (hgap : ∀ c ∈ gap, isMarkupBlank c = true)
    {seen : List (List Char × Nat)} (hnew : seen.lookup name.toList = none) (size offset : Nat)
    (tail : List Char) : ∃ start offset',
      attributesFrom size seen ⟨offset, gap ++ assignment (name, value) ++ tail⟩ =
        (attributesFrom size ((name.toList, start) :: seen) ⟨offset', tail⟩).map
          ((name, value) :: ·) := by
  obtain ⟨first, key, hname⟩ := List.exists_cons_of_ne_nil hplain.1
  have hfirst : isMarkupBlank first = false := hunbroken first (by rw [hname]; simp)
  have hkeychars : ∀ c ∈ key, isKeyChar c = true := by
    intro c hc
    have hmem : c ∈ name.toList := by
      rw [hname]
      exact List.mem_cons_of_mem _ hc
    simp [isKeyChar, hplain.ne_of_mem hmem (d := '=') rfl, hunbroken c hmem]
  -- What is read of the text: the blanks, the name with its `=`, and the value between quotes.
  generalize hrest : '"' :: (value.toList.flatMap Text.escapeChar ++ '"' :: tail) = rest
  have htext : gap ++ assignment (name, value) ++ tail = gap ++ first :: (key ++ '=' :: rest) := by
    simp [assignment, hname, ← hrest]
  have hskip := skip_append hgap (first :: (key ++ '=' :: rest)) (by rintro c ⟨⟩; exact hfirst)
    offset
  obtain ⟨o₁, hkey⟩ := readKey_append hkeychars size (offset + byteSize gap + byteSize [first])
    first rest
  obtain ⟨o₂, hvalue⟩ := readValue_append (Text.not_mem_flatMap_escapeChar value.toList) size o₁ tail
  have hraw := Text.unescape_eq_ok_iff.mpr
    (Text.resolves_flatMap Text.resolves_escapeChar value.toList)
  rw [hrest] at hvalue
  rw [htext, attributesFrom_cons (by rw [hskip]) (by rw [hskip]; exact hkey)
    (by rw [← hname]; exact hnew) hvalue hraw, ← hname, String.ofList_toList, String.ofList_toList]
  exact ⟨_, _, rfl⟩

/-- Assignments that are written behind blanks are read as the attributes they were, if no name
occurs twice. -/
theorem attributesFrom_assignments {written : List (List Char × String × String)}
    (hgaps : ∀ x ∈ written, ∀ c ∈ x.1, isMarkupBlank c = true)
    (hnames : ∀ x ∈ written, PlainName x.2.1.toList ∧ Unbroken x.2.1.toList)
    (hnodup : (written.map (·.2.1.toList)).Nodup) {seen : List (List Char × Nat)}
    (hseen : ∀ x ∈ written, seen.lookup x.2.1.toList = none) (size offset : Nat) :
    attributesFrom size seen ⟨offset, written.flatMap fun x => x.1 ++ assignment x.2⟩ =
      .ok (written.map Prod.snd) := by
  induction written generalizing seen offset with
  | nil =>
    rw [attributesFrom]
    rfl
  | cons x written ih =>
    obtain ⟨hgap, hgaps⟩ := List.forall_mem_cons.mp hgaps
    obtain ⟨⟨hplain, hunbroken⟩, hnames⟩ := List.forall_mem_cons.mp hnames
    obtain ⟨hnew, hseen⟩ := List.forall_mem_cons.mp hseen
    rw [List.map_cons, List.nodup_cons] at hnodup
    obtain ⟨start, offset', hread⟩ := attributesFrom_assignment hplain hunbroken hgap hnew size offset
      (written.flatMap fun x => x.1 ++ assignment x.2)
    rw [List.flatMap_cons, hread, ih hgaps hnames hnodup.2 ?_]
    · rfl
    · intro y hy
      have hne : y.2.1.toList ≠ x.2.1.toList := by
        intro heq
        apply hnodup.1
        rw [← heq]
        exact List.mem_map_of_mem hy
      rw [List.lookup_cons, beq_false_of_ne hne]
      exact hseen y hy

end Tag

namespace Token

/-! ## Where a tag is cut -/

/-- Part of a tag behind which no quote is open: whatever the tag goes on with, the part belongs to
it. -/
def Balanced (part : List Char) : Prop := ∀ rest,
  cutTag none (part ++ rest) = (cutTag none rest).map fun (content, rest) => (part ++ content, rest)

variable {part part' content : List Char}

/-- Two balanced parts make a balanced one. -/
theorem Balanced.append (h : Balanced part) (h' : Balanced part') : Balanced (part ++ part') := by
  intro rest
  rw [List.append_assoc, h, h', Option.map_map]
  simp [Function.comp_def]

/-- Any number of balanced parts make a balanced one. -/
theorem balanced_flatMap {α : Type} {items : List α} {part : α → List Char}
    (h : ∀ x ∈ items, Balanced (part x)) : Balanced (items.flatMap part) := by
  induction items with
  | nil =>
    intro rest
    simp
  | cons x items ih =>
    obtain ⟨hx, hitems⟩ := List.forall_mem_cons.mp h
    rw [List.flatMap_cons]
    exact hx.append (ih hitems)

/-- Characters that neither open a quote nor end the tag. -/
theorem balanced_of_plain (h : ∀ c ∈ part, c ≠ '"' ∧ c ≠ '\'' ∧ c ≠ '>') : Balanced part := by
  induction part with
  | nil =>
    intro rest
    simp
  | cons c part ih =>
    intro rest
    obtain ⟨⟨hdouble, hsingle, hend⟩, hpart⟩ := List.forall_mem_cons.mp h
    have hquote : quoteAfter none c = none := if_neg (by simp [hdouble, hsingle])
    rw [List.cons_append, cutTag, if_neg (by simp [hend]), hquote, ih hpart, Option.map_map]
    rfl

/-- A plain name opens no quote. -/
theorem balanced_of_plainName (h : Tag.PlainName part) : Balanced part :=
  balanced_of_plain fun _ hc =>
    ⟨h.ne_of_mem hc rfl, h.ne_of_mem hc rfl, h.ne_of_mem hc rfl⟩

/-- A value between double quotes. -/
theorem balanced_quoted {value : List Char} (h : '"' ∉ value) :
    Balanced ('"' :: (value ++ ['"'])) := by
  have hinside : ∀ rest, cutTag (some '"') (value ++ '"' :: rest) =
      (cutTag none rest).map fun (content, rest) => (value ++ '"' :: content, rest) := by
    intro rest
    induction value with
    | nil => rfl
    | cons c value ih =>
      rw [List.mem_cons, not_or] at h
      have hquote : quoteAfter (some '"') c = some '"' := if_neg (Ne.symm h.1)
      rw [List.cons_append, cutTag, if_neg (by simp), hquote, ih h.2, Option.map_map]
      rfl
  intro rest
  have hlist : '"' :: (value ++ ['"']) ++ rest = '"' :: (value ++ '"' :: rest) := by simp
  have hquote : quoteAfter none '"' = some '"' := rfl
  rw [hlist, cutTag, if_neg (by decide), hquote, hinside, Option.map_map]
  simp [Function.comp_def]

/-- A tag is cut at the first `>` behind it. -/
theorem Balanced.cut (h : Balanced part) (rest : List Char) :
    cutTag none (part ++ '>' :: rest) = some (part, rest) := by
  have hend : cutTag none ('>' :: rest) = some ([], rest) := rfl
  rw [h, hend]
  simp

end Token

/-! ## Pieces that are written -/

/-- The content of a tag: a name, and assignments with what stands in front of them. -/
def tagContent (name : String) (written : List (List Char × String × String)) : List Char :=
  name.toList ++ written.flatMap fun x => x.1 ++ Tag.assignment x.2

/-- Names and blanks with which a tag is read as it is written. -/
structure Writable (name : String) (written : List (List Char × String × String)) : Prop where
  plain : Tag.PlainName name.toList
  unbroken : Tag.Unbroken name.toList
  gaps : ∀ x ∈ written, Text.IsMarkupGap x.1
  names : ∀ x ∈ written, Tag.PlainName x.2.1.toList ∧ Tag.Unbroken x.2.1.toList
  nodup : (written.map (·.2.1.toList)).Nodup

namespace Writable

open Token

variable {name : String} {written : List (List Char × String × String)}

/-- Behind the name there is a blank, or nothing. -/
theorem head_assignments (h : Writable name written) :
    ∀ c ∈ (written.flatMap fun x => x.1 ++ Tag.assignment x.2).head?, isMarkupBlank c = true := by
  intro c hc
  cases hwritten : written with
  | nil =>
    rw [hwritten] at hc
    cases hc
  | cons x rest =>
    obtain ⟨hne, hblank⟩ := h.gaps x (by rw [hwritten]; simp)
    obtain ⟨first, gap, hgap⟩ := List.exists_cons_of_ne_nil hne
    rw [hwritten, List.flatMap_cons, hgap] at hc
    obtain rfl := Option.some.inj hc
    exact hblank first (by rw [hgap]; simp)

/-- The name in a tag that is written is the one it was written with. -/
theorem name_tagContent (h : Writable name written) :
    Tag.name (tagContent name written) = name.toList := by
  have hhead := h.head_assignments
  rw [Tag.name, tagContent, List.takeWhile_append_of_pos h.unbroken.not_isMarkupBlank]
  generalize (written.flatMap fun x => x.1 ++ Tag.assignment x.2) = rest at hhead ⊢
  cases rest with
  | nil => rw [List.takeWhile_nil, List.append_nil]
  | cons c rest =>
    rw [List.takeWhile_cons_of_neg (by simp [hhead c rfl]), List.append_nil]

/-- The attributes of the tag are those of the assignments. -/
theorem attributes_tagContent (h : Writable name written) :
    Tag.attributes (tagContent name written) = .ok (written.map Prod.snd) := by
  have hhead : ∀ c ∈ (written.flatMap fun x => x.1 ++ Tag.assignment x.2).head?,
      (!isMarkupBlank c) = false := by
    intro c hc
    rw [h.head_assignments c hc]
    rfl
  have hskip := Tag.skip_append h.unbroken.not_isMarkupBlank _ hhead 0
  rw [Tag.attributes, tagContent, hskip]
  exact Tag.attributesFrom_assignments (fun x hx => (h.gaps x hx).2) h.names h.nodup
    (fun _ _ => rfl) _ _

/-- A tag that is written closes its quotes. -/
theorem balanced (h : Writable name written) : Balanced (tagContent name written) := by
  refine (balanced_of_plainName h.plain).append (balanced_flatMap fun x hx => ?_)
  have hgap : Balanced x.1 := balanced_of_plain fun c hc => by
    have hblank := (h.gaps x hx).2 c hc
    refine ⟨?_, ?_, ?_⟩ <;> (rintro rfl; cases hblank)
  have hsign : Balanced ['='] := balanced_of_plain (List.forall_mem_singleton.mpr (by decide))
  have hvalue := balanced_quoted (Text.not_mem_flatMap_escapeChar x.2.2.toList)
  exact hgap.append ((balanced_of_plainName (h.names x hx).1).append (hsign.append hvalue))

/-- The tag ends with its name or with a quote, so no slash ends it. -/
theorem getLast?_tagContent (h : Writable name written) :
    (tagContent name written).getLast? ≠ some '/' := by
  intro hlast
  rcases List.eq_nil_or_concat written with rfl | ⟨init, last, rfl⟩
  · rw [tagContent, List.flatMap_nil, List.append_nil] at hlast
    exact h.plain.ne_of_mem (List.mem_of_getLast? hlast) rfl rfl
  · rw [tagContent, List.concat_eq_append, List.flatMap_append, List.flatMap_singleton,
      Tag.assignment] at hlast
    simp [List.getLast?_append, List.getLast?_cons] at hlast

/-- The tag begins with a character of its name. -/
theorem exists_cons (h : Writable name written) : ∃ first rest,
    tagContent name written = first :: rest ∧ first ≠ '!' ∧ first ≠ '?' ∧ first ≠ '/' := by
  obtain ⟨first, rest, hname⟩ := List.exists_cons_of_ne_nil h.plain.1
  have hfirst := h.plain.2.2 first (by rw [hname]; rfl)
  refine ⟨first, _, by rw [tagContent, hname, List.cons_append], hfirst.1, hfirst.2, ?_⟩
  exact h.plain.ne_of_mem (by rw [hname]; simp) rfl

end Writable

namespace Token.Piece

/-- A comment goes on to the first place where it may end. -/
def IsBody (body : List Char) : Prop :=
  Text.cutAtMarker "-->".toList (body ++ "-->".toList) = some (body, [])

/-- A comment that is written. -/
def comment (body : List Char) : Piece :=
  ⟨.comment body, '<' :: '!' :: '-' :: (['-'] ++ (body ++ "-->".toList))⟩

/-- A start tag that is written. -/
def startTag (content : List Char) : Piece := ⟨.startTag content, '<' :: (content ++ ['>'])⟩

/-- A tag that is written for an element without children. -/
def emptyTag (content : List Char) : Piece := ⟨.emptyTag content, '<' :: (content ++ ['/'] ++ ['>'])⟩

/-- An end tag that is written. -/
def endTag (name : List Char) : Piece := ⟨.endTag name, '<' :: '/' :: (name ++ ['>'])⟩

variable {name : String} {written : List (List Char × String × String)}

/-- A comment that does not end early is read as it is written. -/
theorem spelled_comment {body : List Char} (h : IsBody body) : (comment body).Spelled := by
  have hcut : (Text.dropStart? ['-'] ('-' :: (body ++ "-->".toList))).bind
      (Text.cutAtMarker "-->".toList) = some (body, []) := h
  exact .markup rfl ((readIn_comment hcut).2.cons rfl fun _ _ => rfl)

/-- What a comment in a text holds is the body of a comment. -/
theorem isBody_of_spelled {body spelling : List Char}
    (h : Spelled ⟨.comment body, spelling⟩) : IsBody body := by
  obtain ⟨body', -, hread⟩ := readAs_of_spelled h rfl
  cases hread with
  | comment hcut =>
    obtain ⟨mid, -, hcut⟩ := Option.bind_eq_some_iff.mp hcut
    have hlocal := Text.cutAtMarker_append hcut (by decide) []
    rwa [List.append_nil] at hlocal

/-- A tag that is cut at its own `>`, begins like a tag and does not end with a slash. -/
theorem spelled_startTag_of_cut {content rest : List Char} {first : Char}
    (hcons : content = first :: rest)
    (hfirst : first ≠ '!' ∧ first ≠ '?' ∧ first ≠ '/') (hlast : content.getLast? ≠ some '/')
    (hcut : cutTag none (content ++ ['>']) = some (content, [])) : (startTag content).Spelled := by
  have hopen : ofTagContent content = .startTag content := by
    rw [ofTagContent, Text.dropEnd?, if_neg hlast]
  rw [hcons, List.cons_append] at hcut
  have hread := (readIn_tag hcut hfirst.1 hfirst.2.1 hfirst.2.2).2
  rw [← hcons, hopen] at hread
  exact .markup rfl hread

/-- A start tag is read as it is written. -/
theorem spelled_startTag (h : Writable name written) :
    (startTag (tagContent name written)).Spelled := by
  obtain ⟨first, rest, hcons, hfirst⟩ := h.exists_cons
  exact spelled_startTag_of_cut hcons hfirst h.getLast?_tagContent (h.balanced.cut [])

/-- A single tag is read as it is written. -/
theorem spelled_emptyTag (h : Writable name written) :
    (emptyTag (tagContent name written)).Spelled := by
  obtain ⟨first, rest, hcons, hdeclaration, hinstruction, hend⟩ := h.exists_cons
  have hslash : Balanced ['/'] := balanced_of_plain (List.forall_mem_singleton.mpr (by decide))
  have hcut := (h.balanced.append hslash).cut []
  have hempty : ofTagContent (tagContent name written ++ ['/']) =
      .emptyTag (tagContent name written) := by
    rw [ofTagContent, Text.dropEnd?, if_pos (by simp), List.dropLast_concat]
  rw [hcons, List.cons_append, List.cons_append] at hcut
  have hread := (readIn_tag hcut hdeclaration hinstruction hend).2
  rw [← List.cons_append, ← hcons, hempty] at hread
  exact .markup rfl hread

/-- An end tag whose name ends neither the tag nor with a blank. -/
theorem spelled_endTag_of_balanced {name : List Char} (hbalanced : Balanced name)
    (hunbroken : Tag.Unbroken name) : (endTag name).Spelled := by
  have hname : endName name = name := by
    have hkept : name.reverse.dropWhile isMarkupBlank = name.reverse := by
      rw [List.dropWhile_eq_self_iff]
      intro hlength
      rw [Bool.not_eq_true]
      exact hunbroken _ (List.mem_reverse.mp (List.getElem_mem hlength))
    simp [endName, hkept]
  have hread := (readIn_endTag (hbalanced.cut [])).2
  rw [hname] at hread
  exact .markup rfl hread

/-- An end tag is read as it is written. -/
theorem spelled_endTag (hplain : Tag.PlainName name.toList) (hunbroken : Tag.Unbroken name.toList) :
    (endTag name.toList).Spelled :=
  spelled_endTag_of_balanced (balanced_of_plainName hplain) hunbroken

end Token.Piece

end XmlCompare.Markup
