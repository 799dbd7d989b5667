import Mathlib.Data.List.Basic
import XmlCompare.Proofs.Document.Run

/-!
# Nested tags

Every tag that opens an element begins the source of that element. The source of a single tag is the
tag; otherwise it goes on to the end tag that closes what the tag opened. Between the two all tags
are closed again, so behind the source as many elements are open as before it, and of the same
names.
-/

set_option autoImplicit false

namespace XmlCompare.Markup.Token

open Event.State (isOpening)

/-- How many elements are open behind a token; an end tag closes one of those that are open. -/
def depthAfter? (depth : Nat) : Token → Option Nat
  | startTag _ => some (depth + 1)
  | endTag _ =>
    match depth with
    | 0 => none
    | depth + 1 => some depth
  | _ => some depth

/-- The names of the elements that are open behind a token, innermost first; an end tag closes the
innermost one if it has its name. -/
def namesAfter? (names : List (List Char)) : Token → Option (List (List Char))
  | startTag content => some (Tag.name content :: names)
  | endTag name =>
    match names with
    | [] => none
    | innermost :: names => if innermost = name then some names else none
  | _ => some names

/-- The offset behind the first end tag that closes what was open before some tokens, of which
`depth` more have been opened since. -/
def stopFrom? (depth : Nat) : List PlacedToken → Option Nat
  | [] => none
  | t :: rest =>
    match t.token with
    | .startTag _ => stopFrom? (depth + 1) rest
    | .endTag _ =>
      match depth with
      | 0 => some t.stop
      | depth + 1 => stopFrom? depth rest
    | _ => stopFrom? depth rest

/-- Where the elements stand that some tokens open, in the order of their tags: the offset of the
`<` at which the tag begins, and that behind the `>` which ends the element. -/
def extents : List PlacedToken → List (Nat × Option Nat)
  | [] => []
  | t :: rest =>
    match t.token with
    | .startTag _ => (t.start, stopFrom? 0 rest) :: extents rest
    | .emptyTag _ => (t.start, some t.stop) :: extents rest
    | _ => extents rest

/-- A token that fits the open names stays, and the check goes on behind it. -/
theorem matchTags_of_some {names names' : List (List Char)} {t : PlacedToken}
    (h : namesAfter? names t.token = some names') (rest : Reading PlacedToken PlacedFault) :
    matchTags names (.item t rest) = .item t (matchTags names' rest) := by
  obtain ⟨token, start, stop⟩ := t
  cases token with
  | endTag name =>
    cases names with
    | nil => cases h
    | cons innermost names =>
      rw [namesAfter?, Option.ite_none_right_eq_some] at h
      obtain ⟨hname, heq⟩ := h
      obtain rfl := Option.some.inj heq
      exact if_pos hname
  | _ =>
    obtain rfl := Option.some.inj h
    rfl

/-- At a token that does not fit the open names the reading fails. -/
theorem matchTags_of_none {names : List (List Char)} {t : PlacedToken}
    (h : namesAfter? names t.token = none) (rest : Reading PlacedToken PlacedFault) :
    ∃ fault, matchTags names (.item t rest) = .failed fault := by
  obtain ⟨token, start, stop⟩ := t
  cases token with
  | endTag name =>
    cases names with
    | nil => exact ⟨_, rfl⟩
    | cons innermost names =>
      have hname : innermost ≠ name := by
        intro hname
        simp [namesAfter?, hname] at h
      exact ⟨_, if_neg hname⟩
  | _ => cases h

/-- A reading ends well, with its end tags checked, exactly if it ends well without the check and
the end tags match the tags that are open. Then the check has left it as it was. -/
theorem matchTags_ok_iff {names : List (List Char)} {r : Reading PlacedToken PlacedFault} :
    (matchTags names r).fault? = none ↔ r.fault? = none ∧
      ∃ names', (r.items.map PlacedToken.token).foldlM namesAfter? names = some names' := by
  induction r generalizing names with
  | done => simp [matchTags, Reading.fault?, Reading.items]
  | failed fault => simp [matchTags, Reading.fault?]
  | item t rest ih =>
    rw [Reading.items, List.map_cons, List.foldlM_cons]
    cases h : namesAfter? names t.token with
    | none =>
      obtain ⟨fault, hfailed⟩ := matchTags_of_none h rest
      simp [hfailed, Reading.fault?]
    | some names' =>
      rw [matchTags_of_some h]
      exact ih

/-- A check that finds no fault takes nothing away. -/
theorem items_matchTags {names : List (List Char)} {r : Reading PlacedToken PlacedFault}
    (h : (matchTags names r).fault? = none) : (matchTags names r).items = r.items := by
  induction r generalizing names with
  | done => rfl
  | failed fault => rfl
  | item t rest ih =>
    cases hnames : namesAfter? names t.token with
    | none =>
      obtain ⟨fault, hfailed⟩ := matchTags_of_none hnames rest
      rw [hfailed] at h
      cases h
    | some names' =>
      rw [matchTags_of_some hnames] at h ⊢
      exact congrArg (t :: ·) (ih h)

/-! ## What is closed again -/

/-- A token changes the depth alike inside more open elements. -/
theorem depthAfter?_add {depth depth' : Nat} {t : Token} (h : depthAfter? depth t = some depth')
    (outer : Nat) : depthAfter? (depth + outer) t = some (depth' + outer) := by
  cases t with
  | startTag content =>
    obtain rfl := Option.some.inj h
    exact congrArg some (Nat.add_right_comm depth outer 1)
  | endTag name =>
    cases depth with
    | zero => cases h
    | succ depth =>
      obtain rfl := Option.some.inj h
      rw [Nat.add_right_comm]
      rfl
  | _ =>
    obtain rfl := Option.some.inj h
    rfl

/-- Elements that were open before do not matter for those that some tokens open and close. -/
theorem foldlM_depthAfter?_add {depth depth' : Nat} {tokens : List Token}
    (h : tokens.foldlM depthAfter? depth = some depth') (outer : Nat) :
    tokens.foldlM depthAfter? (depth + outer) = some (depth' + outer) := by
  induction tokens generalizing depth with
  | nil =>
    obtain rfl := Option.some.inj h
    rfl
  | cons t tokens ih =>
    rw [List.foldlM_cons] at h ⊢
    obtain ⟨next, hnext, hrest⟩ := Option.bind_eq_some_iff.mp h
    exact Option.bind_eq_some_iff.mpr ⟨_, depthAfter?_add hnext outer, ih hrest⟩

/-- The names that were there before some tokens remain, if the tokens close only what they have
opened. -/
theorem foldlM_namesAfter?_append {inner outer names : List (List Char)} {depth : Nat}
    {tokens : List Token} (hdepth : tokens.foldlM depthAfter? inner.length = some depth)
    (hnames : tokens.foldlM namesAfter? (inner ++ outer) = some names) :
    ∃ inner', names = inner' ++ outer ∧ inner'.length = depth := by
  induction tokens generalizing inner with
  | nil =>
    obtain rfl := Option.some.inj hdepth
    obtain rfl := Option.some.inj hnames
    exact ⟨inner, rfl, rfl⟩
  | cons t tokens ih =>
    rw [List.foldlM_cons] at hdepth hnames
    obtain ⟨next, hnext, hdepth⟩ := Option.bind_eq_some_iff.mp hdepth
    obtain ⟨names', hnames', hnames⟩ := Option.bind_eq_some_iff.mp hnames
    cases t with
    | startTag content =>
      obtain rfl := Option.some.inj hnext
      obtain rfl := Option.some.inj hnames'
      exact @ih (Tag.name content :: inner) hdepth hnames
    | endTag name =>
      cases inner with
      | nil => cases hnext
      | cons innermost inner =>
        rw [List.cons_append, namesAfter?, Option.ite_none_right_eq_some] at hnames'
        obtain rfl := Option.some.inj hnext
        obtain rfl := Option.some.inj hnames'.2
        exact ih hdepth hnames
    | _ =>
      obtain rfl := Option.some.inj hnext
      obtain rfl := Option.some.inj hnames'
      exact ih hdepth hnames

/-! ## The source of an element -/

/-- The tokens of one element: a single tag, or a start tag and an end tag between which all tags
are closed again. -/
inductive Whole : List Token → Prop
  | single {content : List Char} : Whole [.emptyTag content]
  | paired {content name : List Char} {inner : List Token} :
    inner.foldlM depthAfter? 0 = some 0 → Whole (.startTag content :: (inner ++ [.endTag name]))

/-- The tags of an element are closed again, whatever was open before. -/
theorem Whole.depth {tokens : List Token} (h : Whole tokens) (outer : Nat) :
    tokens.foldlM depthAfter? outer = some outer := by
  cases h with
  | single => rfl
  | paired hinner =>
    have hinner' := foldlM_depthAfter?_add hinner (outer + 1)
    rw [Nat.zero_add] at hinner'
    rw [List.foldlM_cons]
    refine Option.bind_eq_some_iff.mpr ⟨outer + 1, rfl, ?_⟩
    rw [List.foldlM_append]
    exact Option.bind_eq_some_iff.mpr ⟨outer + 1, hinner', rfl⟩

/-- Behind an element the names are open that were open before it. -/
theorem Whole.names {tokens : List Token} (h : Whole tokens) {names names' : List (List Char)}
    (hnames : tokens.foldlM namesAfter? names = some names') : names' = names := by
  obtain ⟨inner, rfl, hlength⟩ := @foldlM_namesAfter?_append [] _ _ _ _ (h.depth 0) hnames
  rw [List.eq_nil_of_length_eq_zero hlength, List.nil_append]

/-- What stops at an offset ends with an end tag there, before which all else that was open is
closed. -/
theorem split_of_stopFrom? {depth stop : Nat} {items : List PlacedToken}
    (h : stopFrom? depth items = some stop) : ∃ inner last after name,
      items = inner ++ last :: after ∧ last.token = .endTag name ∧ last.stop = stop ∧
        (inner.map PlacedToken.token).foldlM depthAfter? depth = some 0 := by
  induction items generalizing depth with
  | nil => cases h
  | cons t rest ih =>
    -- A token behind which the search goes on belongs to what is inside.
    have hinside : ∀ next, depthAfter? depth t.token = some next →
        stopFrom? next rest = some stop → ∃ inner last after name,
          t :: rest = inner ++ last :: after ∧ last.token = .endTag name ∧ last.stop = stop ∧
            (inner.map PlacedToken.token).foldlM depthAfter? depth = some 0 := by
      intro next hnext hrest
      obtain ⟨inner, last, after, name, rfl, hlast, hstop, hdepth⟩ := ih hrest
      refine ⟨t :: inner, last, after, name, rfl, hlast, hstop, ?_⟩
      rw [List.map_cons, List.foldlM_cons]
      exact Option.bind_eq_some_iff.mpr ⟨next, hnext, hdepth⟩
    unfold stopFrom? at h
    cases htoken : t.token with
    | endTag name =>
      rw [htoken] at h hinside
      cases depth with
      | zero => exact ⟨[], t, rest, name, rfl, htoken, Option.some.inj h, rfl⟩
      | succ depth => exact hinside depth rfl h
    | startTag content =>
      rw [htoken] at h hinside
      exact hinside (depth + 1) rfl h
    | _ =>
      rw [htoken] at h hinside
      exact hinside depth rfl h

/-- Where an element stands, its tokens stand. -/
theorem split_of_extents {items : List PlacedToken} {i start stop : Nat}
    (h : (extents items)[i]? = some (start, some stop)) : ∃ before whole after,
      items = before ++ whole ++ after ∧ Whole (whole.map PlacedToken.token) ∧
        (before.filter isOpening).length = i ∧
        (∃ first rest, whole = first :: rest ∧ first.start = start) ∧
        ∃ init last, whole = init ++ [last] ∧ last.stop = stop := by
  induction items generalizing i with
  | nil => cases h
  | cons t rest ih =>
    -- What is found behind the token stands behind it.
    have hbehind : ∀ j, (extents rest)[j]? = some (start, some stop) →
        j + ([t].filter isOpening).length = i → ∃ before whole after,
          t :: rest = before ++ whole ++ after ∧ Whole (whole.map PlacedToken.token) ∧
            (before.filter isOpening).length = i ∧
            (∃ first rest, whole = first :: rest ∧ first.start = start) ∧
            ∃ init last, whole = init ++ [last] ∧ last.stop = stop := by
      intro j hj hi
      obtain ⟨before, whole, after, rfl, hwhole, hlength, hfirst, hlast⟩ := ih hj
      refine ⟨t :: before, whole, after, rfl, hwhole, ?_, hfirst, hlast⟩
      rw [← List.singleton_append, List.filter_append, List.length_append, hlength]
      omega
    rw [extents] at h
    cases htoken : t.token with
    | startTag content =>
      rw [htoken] at h
      cases i with
      | zero =>
        obtain ⟨hstart, hstop⟩ := Prod.mk.inj (Option.some.inj h)
        obtain ⟨inner, last, after, name, rfl, hlast, hstop', hdepth⟩ := split_of_stopFrom? hstop
        refine ⟨[], t :: (inner ++ [last]), after, by simp, ?_, rfl, ⟨t, _, rfl, hstart⟩,
          t :: inner, last, rfl, hstop'⟩
        rw [List.map_cons, List.map_append, List.map_singleton, htoken, hlast]
        exact .paired hdepth
      | succ i => exact hbehind i h (by simp [htoken, isOpening])
    | emptyTag content =>
      rw [htoken] at h
      cases i with
      | zero =>
        obtain ⟨hstart, hstop⟩ := Prod.mk.inj (Option.some.inj h)
        refine ⟨[], [t], rest, rfl, ?_, rfl, ⟨t, [], rfl, hstart⟩, [], t, rfl,
          Option.some.inj hstop⟩
        rw [List.map_singleton, htoken]
        exact .single
      | succ i => exact hbehind i h (by simp [htoken, isOpening])
    | _ =>
      rw [htoken] at h
      exact hbehind i h (by simp [htoken, isOpening])

/-- Elements stand where their tags begin. -/
theorem starts_of_extents (items : List PlacedToken) :
    (extents items).map Prod.fst = (items.filter isOpening).map PlacedToken.start := by
  induction items with
  | nil => rfl
  | cons t rest ih =>
    unfold extents
    cases htoken : t.token <;> simp [isOpening, htoken, ih]

/-- What is open is closed if fewer elements are open at the end. -/
theorem isSome_stopFrom? {depth outer final : Nat} {items : List PlacedToken}
    (h : (items.map PlacedToken.token).foldlM depthAfter? (depth + 1 + outer) = some final)
    (hfinal : final ≤ outer) : (stopFrom? depth items).isSome = true := by
  induction items generalizing depth with
  | nil =>
    obtain rfl := Option.some.inj h
    omega
  | cons t rest ih =>
    rw [List.map_cons, List.foldlM_cons] at h
    obtain ⟨next, hnext, h⟩ := Option.bind_eq_some_iff.mp h
    unfold stopFrom?
    cases htoken : t.token with
    | startTag content =>
      rw [htoken] at hnext
      obtain rfl := Option.some.inj hnext
      rw [Nat.add_right_comm (depth + 1) outer 1] at h
      exact ih h
    | endTag name =>
      cases depth with
      | zero => rfl
      | succ depth =>
        rw [htoken, Nat.add_right_comm] at hnext
        obtain rfl := Option.some.inj hnext
        exact ih h
    | _ =>
      rw [htoken] at hnext
      obtain rfl := Option.some.inj hnext
      exact ih h

/-- If everything is closed in the end, every element has an end. -/
theorem isSome_of_mem_extents {depth : Nat} {items : List PlacedToken}
    (h : (items.map PlacedToken.token).foldlM depthAfter? depth = some 0) :
    ∀ extent ∈ extents items, extent.2.isSome = true := by
  induction items generalizing depth with
  | nil =>
    intro extent hextent
    cases hextent
  | cons t rest ih =>
    rw [List.map_cons, List.foldlM_cons] at h
    obtain ⟨next, hnext, h⟩ := Option.bind_eq_some_iff.mp h
    unfold extents
    cases htoken : t.token with
    | startTag content =>
      rw [htoken] at hnext
      obtain rfl := Option.some.inj hnext
      have hclosed : (rest.map PlacedToken.token).foldlM depthAfter? (0 + 1 + depth) = some 0 := by
        rw [Nat.zero_add, Nat.add_comm]
        exact h
      exact List.forall_mem_cons.mpr ⟨isSome_stopFrom? hclosed (Nat.zero_le _), ih h⟩
    | emptyTag content => exact List.forall_mem_cons.mpr ⟨rfl, ih h⟩
    | _ => exact ih h

end XmlCompare.Markup.Token
