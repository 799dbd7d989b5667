/-!
# Dictionaries in order of insertion

A dictionary holds one value for each of its keys and lists its entries in the order in which the
keys were first inserted. Inserting a value for a key that is present replaces the value and keeps
the place. Namespace declarations, attributes, sibling counts and indexed elements are kept this
way, so every listing of them has one order.

The laws: `get?_insert` says what an insertion makes of every look-up, `keys_insert` what it makes
of the keys, and `mem_entries_iff` that the entries are exactly what look-ups find.
-/

set_option autoImplicit false

namespace XmlCompare

/-- A finite map that remembers the order in which its keys were first inserted. -/
structure Dictionary (κ ν : Type) where
  entries : List (κ × ν)
  /-- No key occurs twice. -/
  nodup_keys : (entries.map Prod.fst).Nodup
  deriving DecidableEq

namespace Dictionary

variable {κ ν : Type}

/-- The dictionary without entries. -/
def empty : Dictionary κ ν := ⟨[], List.nodup_nil⟩

instance : Inhabited (Dictionary κ ν) := ⟨empty⟩

/-- The keys, in the order of the entries. -/
def keys (d : Dictionary κ ν) : List κ := d.entries.map Prod.fst

/-- The values, in the order of the entries. -/
def values (d : Dictionary κ ν) : List ν := d.entries.map Prod.snd

/-- The number of entries. -/
def size (d : Dictionary κ ν) : Nat := d.entries.length

variable [DecidableEq κ]

/-- The value of a key in a list of entries. -/
def find? (k : κ) : List (κ × ν) → Option ν
  | [] => none
  | (k', v) :: rest => if k' = k then some v else find? k rest

/-- Replaces the value of a key where it stands, or adds the key at the end. -/
def put (k : κ) (v : ν) : List (κ × ν) → List (κ × ν)
  | [] => [(k, v)]
  | (k', v') :: rest => if k' = k then (k, v) :: rest else (k', v') :: put k v rest

/-- To put in a value adds its key at the end, unless the key is there. -/
theorem map_fst_put (k : κ) (v : ν) (l : List (κ × ν)) :
    (put k v l).map Prod.fst =
      if k ∈ l.map Prod.fst then l.map Prod.fst else l.map Prod.fst ++ [k] := by
  induction l with
  | nil => simp [put]
  | cons e l ih =>
    obtain ⟨k', v'⟩ := e
    by_cases h : k' = k
    · simp [put, h]
    · have h' : ¬ k = k' := fun e => h e.symm
      by_cases hm : k ∈ l.map Prod.fst <;> simp_all [put]

/-- To put in a value repeats no key. -/
theorem nodup_map_fst_put (k : κ) (v : ν) {l : List (κ × ν)} (h : (l.map Prod.fst).Nodup) :
    ((put k v l).map Prod.fst).Nodup := by
  rw [map_fst_put]
  split
  · exact h
  · rename_i hk
    refine List.nodup_append.mpr ⟨h, by simp, ?_⟩
    intro a ha b hb
    rw [List.mem_singleton] at hb
    rintro rfl
    exact hk (hb ▸ ha)

/-- The value of a key, if the key is present. -/
def get? (d : Dictionary κ ν) (k : κ) : Option ν := find? k d.entries

/-- Gives a key its value: in place if the key is present, at the end if it is new. -/
def insert (d : Dictionary κ ν) (k : κ) (v : ν) : Dictionary κ ν :=
  ⟨put k v d.entries, nodup_map_fst_put k v d.nodup_keys⟩

/-- The dictionary with some entries put in, one after the other. -/
def insertMany (d : Dictionary κ ν) (entries : List (κ × ν)) : Dictionary κ ν :=
  entries.foldl (fun d e => d.insert e.1 e.2) d

/-- The dictionary of a list of entries: of two with one key, the later value stands in the
earlier place. -/
def ofList (entries : List (κ × ν)) : Dictionary κ ν := empty.insertMany entries

/-- What is found after a value has been put in: that value under its key, and under the other keys
what was there. -/
theorem find?_put (k k' : κ) (v : ν) (l : List (κ × ν)) :
    find? k' (put k v l) = if k = k' then some v else find? k' l := by
  induction l with
  | nil => simp [put, find?]
  | cons e l ih =>
    obtain ⟨a, w⟩ := e
    by_cases h : a = k
    · by_cases hk : k = k' <;> simp [put, find?, h, hk]
    · rw [put, if_neg h, find?, find?, ih]
      by_cases hk : a = k'
      · have : ¬ k = k' := fun e => h (hk.trans e.symm)
        simp [hk, this]
      · simp [hk]

/-- Nothing is found in the empty dictionary. -/
@[simp] theorem get?_empty (k : κ) : (empty : Dictionary κ ν).get? k = none := rfl

/-- After an insertion the key has the new value and every other key has what it had. -/
theorem get?_insert (d : Dictionary κ ν) (k k' : κ) (v : ν) :
    (d.insert k v).get? k' = if k = k' then some v else d.get? k' :=
  find?_put k k' v d.entries

/-- An insertion leaves the order of the keys alone and puts a new key last. -/
theorem keys_insert (d : Dictionary κ ν) (k : κ) (v : ν) :
    (d.insert k v).keys = if k ∈ d.keys then d.keys else d.keys ++ [k] :=
  map_fst_put k v d.entries

/-- Among entries that repeat no key, what is found is what is there. -/
theorem find?_eq_some_iff {k : κ} {v : ν} {l : List (κ × ν)} (h : (l.map Prod.fst).Nodup) :
    find? k l = some v ↔ (k, v) ∈ l := by
  induction l with
  | nil => simp [find?]
  | cons e l ih =>
    obtain ⟨a, w⟩ := e
    rw [List.map_cons, List.nodup_cons] at h
    by_cases hk : a = k
    · subst hk
      have hn : ∀ x, (a, x) ∉ l := fun x hx => h.1 (List.mem_map.mpr ⟨_, hx, rfl⟩)
      simp [find?, hn, eq_comm]
    · have hk' : ¬ k = a := fun e => hk e.symm
      simp [find?, hk, hk', ih h.2]

/-- The entries are exactly what look-ups find. -/
theorem mem_entries_iff (d : Dictionary κ ν) (k : κ) (v : ν) :
    (k, v) ∈ d.entries ↔ d.get? k = some v :=
  (find?_eq_some_iff d.nodup_keys).symm

/-- Look-ups miss exactly what is no key. -/
theorem get?_eq_none_iff (d : Dictionary κ ν) (k : κ) : d.get? k = none ↔ k ∉ d.keys := by
  rw [Option.eq_none_iff_forall_ne_some, keys, List.mem_map]
  constructor
  · rintro h ⟨⟨_, v⟩, hmem, rfl⟩
    exact h v ((d.mem_entries_iff _ v).mp hmem)
  · intro h v hv
    exact h ⟨(k, v), (d.mem_entries_iff k v).mpr hv, rfl⟩

/-- A value whose key is new goes to the end. -/
theorem put_of_not_mem {k : κ} (v : ν) {l : List (κ × ν)} (h : k ∉ l.map Prod.fst) :
    put k v l = l ++ [(k, v)] := by
  induction l with
  | nil => rfl
  | cons e l ih =>
    obtain ⟨a, w⟩ := e
    rw [List.map_cons, List.mem_cons, not_or] at h
    rw [put, if_neg (fun heq => h.1 heq.symm), ih h.2]
    rfl

/-- New keys are put behind the old ones, in the order of the list. -/
theorem entries_insertMany {d : Dictionary κ ν} {l : List (κ × ν)}
    (h : (d.entries.map Prod.fst ++ l.map Prod.fst).Nodup) :
    (d.insertMany l).entries = d.entries ++ l := by
  induction l generalizing d with
  | nil => simp [insertMany]
  | cons e l ih =>
    obtain ⟨k, v⟩ := e
    have hk : k ∉ d.entries.map Prod.fst := by
      intro hmem
      exact (List.nodup_append.mp h).2.2 k hmem k (by simp) rfl
    have hput : (d.insert k v).entries = d.entries ++ [(k, v)] := put_of_not_mem v hk
    have hrest := @ih (d.insert k v) (by rw [hput]; simpa using h)
    rw [hput, List.append_assoc] at hrest
    exact hrest

/-- A list without repeated keys is the list of entries of its dictionary. -/
theorem entries_ofList {l : List (κ × ν)} (h : (l.map Prod.fst).Nodup) :
    (ofList l).entries = l :=
  entries_insertMany h

/-- The entries of a dictionary make that dictionary. -/
theorem ofList_entries (d : Dictionary κ ν) : ofList d.entries = d := by
  have hentries := entries_ofList d.nodup_keys
  generalize ofList d.entries = found at hentries ⊢
  cases found
  cases d
  cases hentries
  rfl

/-! ## Other keys and values

Keys may be exchanged for others, if different ones stay different, and values at will. -/

section Map

variable {κ' ν' : Type} [DecidableEq κ'] {f : κ → κ'} {g : ν → ν'}

/-- To search renamed entries for a renamed key is to search the entries for the key. -/
theorem find?_map (hf : Function.Injective f) (k : κ) (l : List (κ × ν)) :
    find? (f k) (l.map (Prod.map f g)) = (find? k l).map g := by
  induction l with
  | nil => rfl
  | cons e l ih =>
    obtain ⟨k', v⟩ := e
    rw [List.map_cons, Prod.map_apply, find?, find?, ih]
    by_cases h : k' = k
    · rw [if_pos h, if_pos (congrArg f h), Option.map_some]
    · rw [if_neg h, if_neg fun heq => h (hf heq)]

/-- To put a renamed value into renamed entries is to rename the entries with the value put in. -/
theorem put_map (hf : Function.Injective f) (k : κ) (v : ν) (l : List (κ × ν)) :
    put (f k) (g v) (l.map (Prod.map f g)) = (put k v l).map (Prod.map f g) := by
  induction l with
  | nil => rfl
  | cons e l ih =>
    obtain ⟨k', v'⟩ := e
    rw [List.map_cons, Prod.map_apply, put, put, ih]
    by_cases h : k' = k
    · rw [if_pos h, if_pos (congrArg f h), List.map_cons, Prod.map_apply]
    · rw [if_neg h, if_neg fun heq => h (hf heq), List.map_cons, Prod.map_apply]

/-- Where the entries have other keys and values, so have the look-ups. -/
theorem get?_of_map (hf : Function.Injective f) {d : Dictionary κ ν} {d' : Dictionary κ' ν'}
    (h : d'.entries = d.entries.map (Prod.map f g)) (k : κ) : d'.get? (f k) = (d.get? k).map g := by
  rw [get?, h, find?_map hf]
  rfl

/-- Two dictionaries whose entries differ by a renaming still do so when an entry and its renaming
are put in. -/
theorem entries_insert_map (hf : Function.Injective f) {d : Dictionary κ ν} {d' : Dictionary κ' ν'}
    (h : d'.entries = d.entries.map (Prod.map f g)) (k : κ) (v : ν) :
    (d'.insert (f k) (g v)).entries = (d.insert k v).entries.map (Prod.map f g) := by
  show put (f k) (g v) d'.entries = (put k v d.entries).map (Prod.map f g)
  rw [h, put_map hf]

/-- The dictionary of a list with other keys and values has other entries accordingly. -/
theorem entries_ofList_map (hf : Function.Injective f) (l : List (κ × ν)) :
    (ofList (l.map (Prod.map f g))).entries = (ofList l).entries.map (Prod.map f g) := by
  suffices hmany : ∀ {d : Dictionary κ ν} {d' : Dictionary κ' ν'},
      d'.entries = d.entries.map (Prod.map f g) →
        (d'.insertMany (l.map (Prod.map f g))).entries =
          (d.insertMany l).entries.map (Prod.map f g) from hmany rfl
  induction l with
  | nil => exact fun h => h
  | cons e l ih =>
    intro d d' h
    exact ih (entries_insert_map hf h e.1 e.2)

end Map

end Dictionary

end XmlCompare
