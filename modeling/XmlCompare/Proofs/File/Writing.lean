import Mathlib.Data.List.Basic
import XmlCompare.File.Directory
import XmlCompare.Reading

/-!
# What a write changes

A text goes into the file that its name leads to, or that is made where its name leads to nothing,
and every other file stays as it was; what is read under the name is the text from then on. Of a
store of files no more is asked for this than that bytes are kept in the file they are put into,
where the name leads to them. So it does not matter where a name begins and which links it follows.

A directory is such a store: a new file takes no directory away and is no directory itself, so a
name that led to where it is made leads to it.
-/

set_option autoImplicit false

namespace XmlCompare

/-- The bytes of a text hold the text. -/
theorem decodeText_toUTF8 (text : String) : decodeText text.toUTF8 = .ok text := by
  unfold decodeText String.fromUTF8?
  rw [String.toUTF8, dif_pos text.isValidUTF8]
  rfl

/-- Stores that keep what is put into them: the bytes are in the file into which they have been put,
and in no other one; and they are found under a name that led to this file. -/
class LawfulFileStore (Store : Type) [FileStore Store] : Prop where
  bytes?_put_self (s : Store) (key : FileStore.Key Store) (bytes : ByteArray) :
    FileStore.bytes? (FileStore.put s key bytes) key = some bytes
  bytes?_put_of_ne {s : Store} {key other : FileStore.Key Store} {bytes : ByteArray} :
    other ≠ key → FileStore.bytes? (FileStore.put s key bytes) other = FileStore.bytes? s other
  read_put {s : Store} {name : String} {key : FileStore.Key Store} {bytes : ByteArray} :
    FileStore.destination s name = .ok (some key) →
    FileStore.read (FileStore.put s key bytes) name = .ok bytes

namespace FileStore

variable {Store : Type} [FileStore Store] {s after : Store} {name text : String} {key : Key Store}

/-- A text under a name goes into this file, which need not be there yet. -/
def LeadsTo (s : Store) (name : String) (key : Key Store) : Prop :=
  destination s name = .ok (some key)

/-- A write puts the bytes of the text into the file that its name leads to. If the name leads
to none that is kept, the write changes nothing. -/
theorem write_eq_ok_iff : write s name text = .ok after ↔
    (∃ key, LeadsTo s name key ∧ after = put s key text.toUTF8) ∨
      destination s name = .ok none ∧ after = s := by
  unfold write LeadsTo
  cases destination s name with
  | error fault => simp [bind, Except.bind]
  | ok found => cases found <;> simp [bind, Except.bind, pure, Except.pure, eq_comm]

/-- A name leads to one file at most. -/
theorem LeadsTo.unique {key' : Key Store} (h : LeadsTo s name key) (h' : LeadsTo s name key') :
    key = key' :=
  Option.some.inj (Except.ok.inj (h.symm.trans h'))

/-- A write puts the bytes of the text into the file to which its name is known to lead. -/
theorem eq_put_of_write (h : write s name text = .ok after) (hleads : LeadsTo s name key) :
    after = put s key text.toUTF8 := by
  rcases write_eq_ok_iff.mp h with ⟨key', hleads', rfl⟩ | ⟨hnone, -⟩
  · rw [hleads.unique hleads']
  · cases hleads.symm.trans hnone

variable [LawfulFileStore Store]

/-- Only the file that its name leads to is changed by a write. -/
theorem leadsTo_of_write_of_ne (h : write s name text = .ok after)
    (hne : bytes? after key ≠ bytes? s key) : LeadsTo s name key := by
  rcases write_eq_ok_iff.mp h with ⟨key', hleads, rfl⟩ | ⟨-, rfl⟩
  · by_cases hkey : key = key'
    · exact hkey ▸ hleads
    · exact absurd (LawfulFileStore.bytes?_put_of_ne hkey) hne
  · exact absurd rfl hne

/-- The file that its name leads to has the bytes of the text behind a write. -/
theorem bytes?_of_write (h : write s name text = .ok after) (hleads : LeadsTo s name key) :
    bytes? after key = some text.toUTF8 := by
  rw [eq_put_of_write h hleads]
  exact LawfulFileStore.bytes?_put_self s key text.toUTF8

/-- What has been written is read. -/
theorem readText_of_write (h : write s name text = .ok after) (hleads : LeadsTo s name key) :
    readText after name = .ok text := by
  have hread : read after name = .ok text.toUTF8 := by
    rw [eq_put_of_write h hleads]
    exact LawfulFileStore.read_put hleads
  exact bind_eq_ok_iff.mpr ⟨_, hread, decodeText_toUTF8 text⟩

end FileStore

namespace Directory

variable {d : Directory} {name : String} {key steps : List String} {bytes : ByteArray}
  {place next : Place} {component : String}

/-! ## Following names behind a write -/

/-- The places from which a name goes on: directories. -/
inductive Place.IsDirectory : Place → Prop
  | inside {steps : List String} : IsDirectory (.directory steps)
  | outside : IsDirectory .outside

/-- Names go on from directories only. -/
theorem isDirectory_of_follow (h : d.follow place component = .ok next) : place.IsDirectory := by
  cases place with
  | directory steps => exact .inside
  | outside => exact .outside
  | _ => cases h

/-- A name that has led to a directory has led through directories. -/
theorem isDirectory_of_foldlM {names : List String} (h : names.foldlM d.follow place = .ok next)
    (hnext : next.IsDirectory) : place.IsDirectory := by
  cases names with
  | nil => exact Except.ok.inj h ▸ hnext
  | cons first names =>
    rw [List.foldlM_cons] at h
    obtain ⟨middle, hfollow, -⟩ := bind_eq_ok_iff.mp h
    exact isDirectory_of_follow hfollow

/-- A component leads to a place that does not depend on files and is none, or to what has some
components. -/
theorem follow_cases (h : d.follow place component = .ok next) :
    ((∀ key, next ≠ .file key ∧ next ≠ .vacant key) ∧
      ∀ d' : Directory, d'.follow place component = .ok next) ∨
    ∃ steps, next = d.entry steps ∧
      ∀ d' : Directory, d'.follow place component = .ok (d'.entry steps) := by
  cases isDirectory_of_follow h with
  | outside =>
    refine .inl ⟨fun key => ?_, fun d' => h⟩
    unfold follow at h
    simp only at h
    split_ifs at h <;> cases h <;> simp
  | @inside steps =>
    unfold follow at h ⊢
    simp only at h ⊢
    split_ifs at h ⊢ <;> cases h
    · exact .inl ⟨by simp, fun _ => rfl⟩
    · exact .inl ⟨by simp, fun _ => rfl⟩
    · exact .inl ⟨by simp, fun _ => rfl⟩
    · exact .inr ⟨_, rfl, fun _ => rfl⟩

/-- In a directory there is a file, a directory or nothing under some components. -/
theorem entry_cases (d : Directory) (steps : List String) :
    d.entry steps = .file steps ∨ d.entry steps = .directory steps ∨
      d.entry steps = .vacant steps := by
  unfold entry
  split_ifs <;> simp

/-- Behind a write the file is there. -/
theorem entry_withFile_self : (d.withFile key bytes).entry key = .file key := by
  rw [entry, withFile, Dictionary.get?_insert, if_pos rfl]
  rfl

/-- A new file takes no directory away. -/
theorem hasDirectory_withFile (h : d.hasDirectory steps = true) :
    (d.withFile key bytes).hasDirectory steps = true := by
  unfold hasDirectory at h ⊢
  rw [withFile, Dictionary.keys_insert]
  split
  · exact h
  · rw [List.any_append, ← Bool.or_assoc, h, Bool.true_or]

/-- What is a directory and no file stays one when another file is made. -/
theorem entry_withFile_of_directory (hne : steps ≠ key) (h : d.entry steps = .directory steps) :
    (d.withFile key bytes).entry steps = .directory steps := by
  unfold entry at h ⊢
  split at h
  · cases h
  · rename_i hfile
    split at h
    · rename_i hdirectory
      rw [withFile, Dictionary.get?_insert, if_neg hne.symm, if_neg hfile]
      exact if_pos (hasDirectory_withFile hdirectory)
    · cases h

/-- A component that leads to a directory leads there when a file is made elsewhere. -/
theorem follow_withFile_of_isDirectory (hkey : d.entry key ≠ .directory key)
    (h : d.follow place component = .ok next) (hnext : next.IsDirectory) :
    (d.withFile key bytes).follow place component = .ok next := by
  rcases follow_cases h with ⟨-, hany⟩ | ⟨steps, rfl, hany⟩
  · exact hany _
  · rcases d.entry_cases steps with hentry | hentry | hentry <;> rw [hentry] at hnext ⊢
    · cases hnext
    · have hne : steps ≠ key := by
        rintro rfl
        exact hkey hentry
      rw [hany, entry_withFile_of_directory hne hentry]
    · cases hnext

/-- A component that leads to a file, or to where one is made, leads to what is there. -/
theorem follow_withFile_self (h : d.follow place component = .ok next)
    (hnext : next = .file key ∨ next = .vacant key) :
    d.entry key ≠ .directory key ∧
      (d.withFile key bytes).follow place component = .ok (.file key) := by
  rcases follow_cases h with ⟨hnone, -⟩ | ⟨steps, rfl, hany⟩
  · exact absurd hnext (not_or.mpr (hnone key))
  · obtain rfl : steps = key := by
      rcases d.entry_cases steps with hentry | hentry | hentry <;> simp_all
    refine ⟨fun hentry => ?_, by rw [hany, entry_withFile_self]⟩
    rw [hentry] at hnext
    simp at hnext

/-- A name that leads to a directory leads there when a file is made elsewhere. -/
theorem foldlM_withFile {names : List String} (hkey : d.entry key ≠ .directory key)
    (h : names.foldlM d.follow place = .ok next) (hnext : next.IsDirectory) :
    names.foldlM (d.withFile key bytes).follow place = .ok next := by
  induction names generalizing place with
  | nil => exact h
  | cons first names ih =>
    rw [List.foldlM_cons] at h ⊢
    obtain ⟨middle, hfollow, hrest⟩ := bind_eq_ok_iff.mp h
    have hmiddle := isDirectory_of_foldlM hrest hnext
    exact bind_eq_ok_iff.mpr
      ⟨middle, follow_withFile_of_isDirectory hkey hfollow hmiddle, ih hrest⟩

/-- A name that leads to where a file is made leads to that file. -/
theorem foldlM_withFile_self {names : List String} (hplace : place.IsDirectory)
    (h : names.foldlM d.follow place = .ok next) (hnext : next = .file key ∨ next = .vacant key) :
    names.foldlM (d.withFile key bytes).follow place = .ok (.file key) := by
  rcases List.eq_nil_or_concat names with rfl | ⟨init, last, rfl⟩
  · obtain rfl := Except.ok.inj h
    rcases hnext with rfl | rfl <;> cases hplace
  · rw [List.concat_eq_append, List.foldlM_append] at h ⊢
    obtain ⟨middle, hinit, hlast⟩ := bind_eq_ok_iff.mp h
    rw [List.foldlM_cons] at hlast
    obtain ⟨found, hfollow, hfound⟩ := bind_eq_ok_iff.mp hlast
    obtain rfl := Except.ok.inj hfound
    obtain ⟨hkey, hfollow'⟩ := follow_withFile_self hfollow hnext
    have hmiddle := isDirectory_of_follow hfollow
    refine bind_eq_ok_iff.mpr ⟨middle, foldlM_withFile hkey hinit hmiddle, ?_⟩
    rw [List.foldlM_cons]
    exact bind_eq_ok_iff.mpr ⟨_, hfollow', rfl⟩

/-- A name leads to the file that has been made where it led. -/
theorem locate_withFile (h : d.locate name = .ok next)
    (hnext : next = .file key ∨ next = .vacant key) :
    (d.withFile key bytes).locate name = .ok (.file key) := by
  unfold locate at h ⊢
  split_ifs at h ⊢
  · obtain rfl := Except.ok.inj h
    simp at hnext
  · split at h
    · exact foldlM_withFile_self .outside h hnext
    · exact foldlM_withFile_self .inside h hnext

/-- Where a text can be put is where its name leads. -/
theorem locate_of_target (h : d.target name = .ok place) : d.locate name = .ok place := by
  unfold target at h
  split at h
  · obtain ⟨found, -, hthrown⟩ := bind_eq_ok_iff.mp h
    cases hthrown
  · exact h

/-- A name leads to the files at two kinds of places: where the file is and where it is made. -/
theorem target_of_destination (h : d.destination name = .ok (some key)) :
    d.target name = .ok (.file key) ∨ d.target name = .ok (.vacant key) := by
  unfold destination at h
  obtain ⟨place, htarget, hplace⟩ := bind_eq_ok_iff.mp h
  rw [htarget]
  cases place with
  | file steps =>
    obtain rfl := Option.some.inj (Except.ok.inj hplace)
    exact .inl rfl
  | vacant steps =>
    obtain rfl := Option.some.inj (Except.ok.inj hplace)
    exact .inr rfl
  | _ => cases hplace

/-- A name that leads to a file finds the bytes that have been put there. -/
theorem read_withFile (h : d.destination name = .ok (some key)) :
    (d.withFile key bytes).read name = .ok bytes := by
  have hlocate : (d.withFile key bytes).locate name = .ok (.file key) := by
    rcases target_of_destination h with hfile | hvacant
    · exact locate_withFile (locate_of_target hfile) (.inl rfl)
    · exact locate_withFile (locate_of_target hvacant) (.inr rfl)
  refine bind_eq_ok_iff.mpr ⟨_, hlocate, ?_⟩
  have hbytes : (d.withFile key bytes).files.get? key = some bytes := by
    rw [withFile, Dictionary.get?_insert, if_pos rfl]
  simp only [hbytes]
  rfl

instance : LawfulFileStore Directory where
  bytes?_put_self d key bytes := (Dictionary.get?_insert d.files key key bytes).trans (if_pos rfl)
  bytes?_put_of_ne {d key other bytes} hne :=
    (Dictionary.get?_insert d.files key other bytes).trans (if_neg (Ne.symm hne))
  read_put := read_withFile

end Directory

end XmlCompare
