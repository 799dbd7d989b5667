import XmlCompare.Proofs.Document.Excision
import XmlCompare.Proofs.Markup.Writing

/-!
# Tokens that can be spelled in another way

A token stands in a text between the pieces before it and the pieces behind it. If it is a character
section, its spelling is its body between the marks of a section; if it is a single tag, it can be
spelled as a start tag with an end tag behind it, as long as its name could stand in an end tag and
no slash comes to stand at the end of the start tag.
-/

set_option autoImplicit false

namespace XmlCompare.Markup

open Text (byteSize isMarkupBlank Cursor)

/-! ## Where a tag ends -/

namespace Tag

variable {size : Nat} {c c' : Cursor}

/-- What is left behind a key stood at the end of the text already. -/
theorem suffix_of_readKey {first : Char} {key : List Char}
    (h : readKey size first c = .ok (key, c')) : c'.rest <:+ c.rest := by
  unfold readKey at h
  dsimp only at h
  split at h
  · cases h
  · rename_i e rest hsign
    split at h
    · obtain ⟨-, rfl⟩ := Prod.mk.inj (Except.ok.inj h)
      have hkey : (c.skip isKeyChar).rest <:+ c.rest := List.dropWhile_suffix _
      have hblank : ((c.skip isKeyChar).skip isMarkupBlank).rest <:+ (c.skip isKeyChar).rest :=
        List.dropWhile_suffix _
      rw [hsign] at hblank
      exact ((List.suffix_cons e rest).trans hblank).trans hkey
    · cases h

/-- A value ends with a quote, behind which the rest is left. -/
theorem exists_quote_of_readValue {value : List Char} (h : readValue size c = .ok (value, c')) :
    ∃ front quote, (quote = '"' ∨ quote = '\'') ∧ c.rest = front ++ quote :: c'.rest := by
  unfold readValue at h
  dsimp only at h
  split at h
  · cases h
  · rename_i quote rest hstart
    split at h
    · rename_i hquote
      split at h
      · cases h
      · rename_i v rest' hcut
        obtain ⟨-, rfl⟩ := Prod.mk.inj (Except.ok.inj h)
        obtain ⟨-, rfl⟩ := Text.cutAt_eq_some_iff.mp hcut
        have hblanks := List.takeWhile_append_dropWhile (p := isMarkupBlank) (l := c.rest)
        rw [show c.rest.dropWhile isMarkupBlank = _ from hstart] at hblanks
        refine ⟨c.rest.takeWhile isMarkupBlank ++ quote :: v, quote, hquote, ?_⟩
        simpa [Cursor.past] using hblanks.symm
    · cases h

/-- Attributes end with a quote, or with blanks behind it. -/
theorem getLast?_of_attributesFrom {seen : List (List Char × Nat)}
    {attributes : List (String × String)} (h : attributesFrom size seen c = .ok attributes) :
    ∀ l ∈ c.rest.getLast?, isMarkupBlank l = true ∨ l = '"' ∨ l = '\'' := by
  fun_induction attributesFrom size seen c generalizing attributes with
  | case1 =>
    rename_i c start hstart
    intro l hl
    have hblank : c.rest.dropWhile isMarkupBlank = [] := hstart
    rw [List.dropWhile_eq_nil_iff] at hblank
    exact .inl (hblank l (List.mem_of_getLast? hl))
  | case6 =>
    rename_i seen c start first rest hstart key c₁ hkey hlookup raw c₂ hvalue value hraw hlt ih
    cases hmore : attributesFrom size ((key, start.offset) :: seen) c₂ with
    | error fault =>
      rw [hmore] at h
      cases h
    | ok more =>
      -- All of the attribute stands before what is left, and it ends with a quote.
      obtain ⟨front, quote, hquote, hfront⟩ := exists_quote_of_readValue hvalue
      obtain ⟨before, hbefore⟩ : c₁.rest <:+ c.rest := by
        have hfirst : first :: rest <:+ c.rest := by
          rw [← hstart]
          exact List.dropWhile_suffix _
        exact ((suffix_of_readKey hkey).trans (List.suffix_cons first rest)).trans hfirst
      rw [← hbefore, hfront]
      intro l hl
      cases hrest : c₂.rest with
      | nil =>
        rw [hrest] at hl
        obtain rfl : quote = l := by simpa using hl
        exact .inr hquote
      | cons d rest =>
        refine ih hmore l ?_
        rw [hrest] at hl ⊢
        simpa [List.getLast?_append, List.getLast?_cons] using hl
  | _ => cases h

/-- A slash at the end of a tag whose attributes can be read belongs to its name. -/
theorem getLast?_of_attributes {content : List Char} {attributes : List (String × String)}
    (h : Tag.attributes content = .ok attributes) (hname : '/' ∉ Tag.name content) :
    content.getLast? ≠ some '/' := by
  intro hlast
  have hend := getLast?_of_attributesFrom h
  have hsplit : Tag.name content ++ content.dropWhile (!isMarkupBlank ·) = content :=
    List.takeWhile_append_dropWhile
  simp only [Cursor.skip] at hend
  generalize content.dropWhile (!isMarkupBlank ·) = rest at hend hsplit
  rw [← hsplit, List.getLast?_append] at hlast
  cases hrest : rest.getLast? with
  | none =>
    rw [hrest] at hlast
    exact hname (List.mem_of_getLast? hlast)
  | some last =>
    rw [hrest] at hlast
    obtain rfl : last = '/' := Option.some.inj hlast
    rcases hend '/' hrest with hblank | hquote | hquote
    · cases hblank
    · cases hquote
    · cases hquote

end Tag

namespace Token

/-- Only quotes are opened. -/
theorem quoteAfter_ne_slash {quote : Option Char} (h : quote ≠ some '/') (c : Char) :
    quoteAfter quote c ≠ some '/' := by
  unfold quoteAfter
  split
  · split
    · rintro ⟨⟩
      rename_i hc
      rcases hc with hc | hc <;> cases hc
    · exact nofun
  · split
    · exact nofun
    · exact h

/-- A slash before the end of a tag can be left out. -/
theorem cutTag_without_slash {quote : Option Char} {content rest : List Char}
    (hquote : quote ≠ some '/')
    (h : cutTag quote (content ++ '/' :: '>' :: rest) = some (content ++ ['/'], rest)) :
    cutTag quote (content ++ '>' :: rest) = some (content, rest) := by
  induction content generalizing quote with
  | nil =>
    cases quote with
    | none => rfl
    | some q =>
      -- Inside quotes the tag would not end here.
      have hne : '/' ≠ q := fun heq => hquote (congrArg some heq.symm)
      simp [cutTag, quoteAfter, hne] at h
  | cons c content ih =>
    rw [List.cons_append, cutTag] at h ⊢
    split at h
    · cases h
    · rename_i hgo
      obtain ⟨⟨found, rest'⟩, hcut, heq⟩ := Option.map_eq_some_iff.mp h
      obtain ⟨hfound, rfl⟩ := Prod.mk.inj heq
      obtain rfl := (List.cons.inj hfound).2
      rw [if_neg hgo, ih (quoteAfter_ne_slash hquote c) hcut]
      rfl

/-- What a tag begins with holds no `>`, if it holds no quotes. -/
theorem not_mem_of_cutTag {part more found rest : List Char}
    (hquotes : ∀ c ∈ part, c ≠ '"' ∧ c ≠ '\'')
    (h : cutTag none (part ++ more) = some (part ++ found, rest)) : '>' ∉ part := by
  induction part with
  | nil => simp
  | cons c part ih =>
    obtain ⟨⟨hdouble, hsingle⟩, hpart⟩ := List.forall_mem_cons.mp hquotes
    have hquote : quoteAfter none c = none := if_neg (by simp [hdouble, hsingle])
    rw [List.cons_append, cutTag] at h
    split at h
    · cases h
    · rename_i hgo
      obtain ⟨⟨found', rest'⟩, hcut, heq⟩ := Option.map_eq_some_iff.mp h
      obtain ⟨hfound, rfl⟩ := Prod.mk.inj heq
      obtain rfl := (List.cons.inj hfound).2
      rw [hquote] at hcut
      rw [List.mem_cons, not_or]
      exact ⟨fun heq => hgo ⟨rfl, heq.symm⟩, ih hpart hcut⟩

namespace Piece

variable {content body spelling : List Char}

/-- A character section is spelled as its body between marks. -/
theorem spelling_of_cdata (h : Spelled ⟨.cdata body, spelling⟩) :
    spelling = "<![CDATA[".toList ++ body ++ "]]>".toList := by
  obtain ⟨body', rfl, hread⟩ := readAs_of_spelled h rfl
  cases hread with
  | cdata hcut =>
    obtain ⟨rfl, -⟩ := readIn_cdata hcut
    simp

/-- A single tag is spelled as its content with a slash behind it. -/
theorem spelling_of_emptyTag (h : Spelled ⟨.emptyTag content, spelling⟩) :
    spelling = '<' :: (content ++ "/>".toList) := by
  obtain ⟨body', rfl, hread⟩ := readAs_of_spelled h rfl
  cases hread with
  | emptyTag hcut _ =>
    rw [(cutTag_append hcut).1]
    simp

/-- A start tag and the end tag that closes it. -/
def pair (content : List Char) : List Piece := [startTag content, endTag (Tag.name content)]

/-- A start tag and its end tag leave open what was open. -/
theorem namesAfter?_pair (content : List Char) (names : List (List Char)) :
    ((pair content).map token).foldlM namesAfter? names = some names := by
  have hend : namesAfter? (Tag.name content :: names) (.endTag (Tag.name content)) = some names :=
    if_pos rfl
  show (namesAfter? (Tag.name content :: names) (.endTag (Tag.name content)) >>= pure) = _
  rw [hend]
  rfl

/-- A single tag can be spelled as a start tag and an end tag, if its attributes can be read and its
name holds neither a slash nor a quote. -/
theorem spelled_pair (h : Spelled ⟨.emptyTag content, spelling⟩)
    {attributes : List (String × String)} (hattributes : Tag.attributes content = .ok attributes)
    (hname : ∀ c ∈ Tag.name content, c ≠ '/' ∧ c ≠ '"' ∧ c ≠ '\'') :
    ∀ p ∈ pair content, p.Spelled := by
  obtain ⟨body', rfl, hread⟩ := readAs_of_spelled h rfl
  cases hread with
  | @emptyTag first cs _ _ hcut hfirst =>
    obtain ⟨hcs, -⟩ := cutTag_append hcut
    rw [List.append_assoc, List.singleton_append] at hcs
    rw [hcs] at hcut
    obtain ⟨tail, hcons⟩ : ∃ tail, content = first :: tail := by
      cases content with
      | nil => exact absurd (List.cons.inj hcs).1 hfirst.2.2
      | cons c tail => exact ⟨tail, by rw [(List.cons.inj hcs).1]⟩
    refine List.forall_mem_cons.mpr ⟨?_, List.forall_mem_singleton.mpr ?_⟩
    · have hslash : '/' ∉ Tag.name content := fun hmem => (hname '/' hmem).1 rfl
      exact spelled_startTag_of_cut hcons hfirst (Tag.getLast?_of_attributes hattributes hslash)
        (cutTag_without_slash nofun hcut)
    · have hquotes : ∀ c ∈ Tag.name content, c ≠ '"' ∧ c ≠ '\'' := fun c hc => (hname c hc).2
      have hend : '>' ∉ Tag.name content := by
        have hsplit : content = Tag.name content ++ content.dropWhile (!isMarkupBlank ·) :=
          List.takeWhile_append_dropWhile.symm
        generalize Tag.name content = name at hquotes hsplit ⊢
        rw [hsplit, List.append_assoc, List.append_assoc] at hcut
        exact not_mem_of_cutTag hquotes hcut
      refine spelled_endTag_of_balanced (balanced_of_plain fun c hc => ?_)
        (Tag.unbroken_name content)
      exact ⟨(hquotes c hc).1, (hquotes c hc).2, fun heq => hend (heq ▸ hc)⟩

end Piece

/-- A token of a text stands between the pieces that make up what is before it and those behind
it. -/
theorem exists_split {text : String} {t : Token} {stop : Nat} {before after : List Char}
    (hmark : text.toList.head? ≠ some '\ufeff') (hfault : (readAll text).fault? = none)
    (htext : text.toList = before ++ after)
    (ht : ⟨t, byteSize before, stop⟩ ∈ (readAll text).items) : ∃ first spelling last,
      Piece.Chain (first ++ ⟨t, spelling⟩ :: last) ∧ Piece.join first = before ∧
        spelling ++ Piece.join last = after ∧
        (readAll text).items = Piece.place 0 (first ++ ⟨t, spelling⟩ :: last) := by
  obtain ⟨pieces, hchain, hjoin, hitems⟩ := exists_pieces hfault
  rw [dropByteOrderMark_eq_self hmark, htext] at hjoin
  obtain ⟨earlier, later, hsplit⟩ := List.append_of_mem ht
  obtain ⟨first, rest, rfl, -, hrest⟩ := Piece.split_of_place (hitems.symm.trans hsplit)
  cases rest with
  | nil => cases hrest
  | cons p last =>
    obtain ⟨hp, -⟩ := List.cons.inj hrest
    obtain ⟨rfl, hstart, -⟩ := PlacedToken.mk.inj hp
    rw [Nat.zero_add] at hstart
    rw [Piece.join_append] at hjoin
    obtain rfl := Text.eq_of_byteSize_eq hjoin hstart
    exact ⟨first, p.spelling, last, hchain, rfl, List.append_cancel_left hjoin, hitems⟩

end Token

end XmlCompare.Markup
