/-!
# Cutting a text

A text is cut at the first place where a character or a marker stands. A cut that succeeds loses
nothing but what it cut at, and what remains is never longer than what was there before; the
readers of this library rely on the second fact to end.
-/

set_option autoImplicit false

namespace XmlCompare.Text

/-- The part before the first `mark` and the part after it, if `mark` occurs. -/
def cutAt (mark : Char) : List Char → Option (List Char × List Char)
  | [] => none
  | c :: cs =>
    if c = mark then some ([], cs)
    else (cutAt mark cs).map fun (before, after) => (c :: before, after)

/-- What follows `start` in a text that begins with it. -/
def dropStart? (start : List Char) (cs : List Char) : Option (List Char) :=
  match start, cs with
  | [], cs => some cs
  | _ :: _, [] => none
  | s :: start, c :: cs => if s = c then dropStart? start cs else none

/-- The part before the first occurrence of `marker` and the part after it. -/
def cutAtMarker (marker : List Char) : List Char → Option (List Char × List Char)
  | [] => none
  | c :: cs =>
    match dropStart? marker (c :: cs) with
    | some after => some ([], after)
    | none => (cutAtMarker marker cs).map fun (before, after) => (c :: before, after)

/-- A text with its last character removed, if that character is `last`. -/
def dropEnd? (last : Char) (cs : List Char) : Option (List Char) :=
  if cs.getLast? = some last then some cs.dropLast else none

/-- The number of bytes a text takes in UTF-8. -/
def byteSize : List Char → Nat
  | [] => 0
  | c :: cs => c.utf8Size + byteSize cs

/-- The bytes of two texts add up. -/
theorem byteSize_append (xs ys : List Char) : byteSize (xs ++ ys) = byteSize xs + byteSize ys := by
  induction xs with
  | nil => simp [byteSize]
  | cons c xs ih => simp [byteSize, ih, Nat.add_assoc]

/-- A cut loses exactly the character it cut at, and that character is not in the first part. -/
theorem cutAt_eq_some_iff {mark : Char} {cs before after : List Char} :
    cutAt mark cs = some (before, after) ↔ mark ∉ before ∧ cs = before ++ mark :: after := by
  induction cs generalizing before with
  | nil => simp [cutAt]
  | cons c cs ih =>
    by_cases h : c = mark
    · cases before with
      | nil => simp [cutAt, h]
      | cons b before =>
        simp only [cutAt, h, if_true, Option.some.injEq, Prod.mk.injEq, List.cons_append,
          List.cons.injEq, List.mem_cons, not_or]
        constructor
        · rintro ⟨hb, -⟩; cases hb
        · rintro ⟨⟨hb, -⟩, hb', -⟩; exact absurd hb' hb
    · cases before with
      | nil => simp [cutAt, h]
      | cons b before =>
        simp only [cutAt, h, if_false, Option.map_eq_some_iff, Prod.mk.injEq, List.cons.injEq,
          Prod.exists, List.cons_append, List.mem_cons, not_or]
        constructor
        · rintro ⟨x, y, hxy, ⟨rfl, rfl⟩, rfl⟩
          obtain ⟨hm, rfl⟩ := ih.mp hxy
          exact ⟨⟨fun e => h e.symm, hm⟩, rfl, rfl⟩
        · rintro ⟨⟨-, hm⟩, rfl, rfl⟩
          exact ⟨before, after, ih.mpr ⟨hm, rfl⟩, ⟨rfl, rfl⟩, rfl⟩

/-- A cut takes the mark with it, so less is left than there was. -/
theorem length_lt_of_cutAt {mark : Char} {cs before after : List Char}
    (h : cutAt mark cs = some (before, after)) : after.length < cs.length := by
  obtain ⟨-, rfl⟩ := cutAt_eq_some_iff.mp h
  simp only [List.length_append, List.length_cons]
  omega

/-- A start can be dropped exactly from what begins with it. -/
theorem dropStart?_eq_some_iff {start cs after : List Char} :
    dropStart? start cs = some after ↔ cs = start ++ after := by
  induction start generalizing cs with
  | nil => simp [dropStart?]
  | cons s start ih =>
    cases cs with
    | nil => simp [dropStart?]
    | cons c cs =>
      by_cases h : s = c
      · simp [dropStart?, h, ih]
      · simp [dropStart?, h, Ne.symm h]

/-- A cut at a marker loses exactly that occurrence of the marker. -/
theorem eq_append_of_cutAtMarker {marker cs before after : List Char}
    (h : cutAtMarker marker cs = some (before, after)) : cs = before ++ marker ++ after := by
  induction cs generalizing before with
  | nil => simp [cutAtMarker] at h
  | cons c cs ih =>
    rw [cutAtMarker] at h
    split at h
    · rename_i rest hrest
      simp only [Option.some.injEq, Prod.mk.injEq] at h
      obtain ⟨rfl, rfl⟩ := h
      simpa using dropStart?_eq_some_iff.mp hrest
    · simp only [Option.map_eq_some_iff, Prod.mk.injEq, Prod.exists] at h
      obtain ⟨x, y, hxy, rfl, rfl⟩ := h
      simp [ih hxy]

/-- A cut leaves no more than there was. -/
theorem length_le_of_cutAtMarker {marker cs before after : List Char}
    (h : cutAtMarker marker cs = some (before, after)) : after.length ≤ cs.length := by
  rw [eq_append_of_cutAtMarker h]
  simp only [List.length_append]
  omega

end XmlCompare.Text
