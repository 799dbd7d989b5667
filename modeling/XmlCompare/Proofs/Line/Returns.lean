import Mathlib.Data.List.Chain
import XmlCompare.Text.Entity

/-!
# Carriage returns in front of line feeds

A line may be ended by a line feed alone or by a carriage return and a line feed. Texts that are put
together have no carriage return in front of a line feed if none of them has, and if none meets in
the middle. Escaping makes no difference to it, since references are written with neither character.
-/

set_option autoImplicit false

namespace XmlCompare.Line

variable {cs more : List Char}

/-- No line feed stands directly behind a carriage return. -/
def BareFeeds (cs : List Char) : Prop := ¬ ['\r', '\n'] <:+: cs

instance (cs : List Char) : Decidable (BareFeeds cs) := inferInstanceAs (Decidable (¬ _))

/-- Line feeds are bare if no two neighbours are a return and a feed. -/
theorem bareFeeds_iff_isChain :
    BareFeeds cs ↔ cs.IsChain fun a b => ¬ (a = '\r' ∧ b = '\n') := by
  rw [List.isChain_iff_forall_rel_of_append_cons_cons]
  constructor
  · rintro h a b front back rfl ⟨rfl, rfl⟩
    exact h ⟨front, back, by simp⟩
  · rintro h ⟨front, back, hcs⟩
    have hpair : cs = front ++ '\r' :: '\n' :: back := by simp [← hcs]
    exact h hpair ⟨rfl, rfl⟩

/-- Line feeds are bare if they are so behind the first character and it is no return in front of
one. -/
theorem bareFeeds_cons {c : Char} :
    BareFeeds (c :: cs) ↔ ¬ (c = '\r' ∧ cs.head? = some '\n') ∧ BareFeeds cs := by
  rw [bareFeeds_iff_isChain, bareFeeds_iff_isChain, List.isChain_cons]
  refine and_congr_left' ?_
  cases cs <;> simp

/-- Of texts between which no carriage return meets a line feed, each counts by itself. -/
theorem bareFeeds_append (h : cs.getLast? ≠ some '\r' ∨ more.head? ≠ some '\n') :
    BareFeeds (cs ++ more) ↔ BareFeeds cs ∧ BareFeeds more := by
  rw [bareFeeds_iff_isChain, bareFeeds_iff_isChain, bareFeeds_iff_isChain, List.isChain_append]
  refine and_congr_right' (and_iff_left ?_)
  rintro a ha b hb ⟨rfl, rfl⟩
  exact h.elim (fun hlast => hlast ha) fun hfirst => hfirst hb

/-- Without carriage returns all line feeds are bare. -/
theorem bareFeeds_of_not_mem (h : '\r' ∉ cs) : BareFeeds cs := fun hmem =>
  h (hmem.subset List.mem_cons_self)

/-- What has no carriage return may stand in front of any text. -/
theorem bareFeeds_append_of_not_mem (h : '\r' ∉ cs) (more : List Char) :
    BareFeeds (cs ++ more) ↔ BareFeeds more := by
  rw [bareFeeds_append (.inl fun hlast => h (List.mem_of_getLast? hlast))]
  exact and_iff_right (bareFeeds_of_not_mem h)

/-! ## Characters that are written one by one -/

/-- Carriage returns and line feeds are written as they are, and nothing else is written with
them. -/
def KeepsFeeds (written : Char → List Char) : Prop := ∀ c, written c = [c] ∨
  (c ≠ '\r' ∧ c ≠ '\n') ∧ written c ≠ [] ∧ '\r' ∉ written c ∧ '\n' ∉ written c

/-- Escaping between quotes keeps line feeds. -/
theorem keepsFeeds_escapeChar : KeepsFeeds Text.escapeChar := by
  intro c
  unfold Text.escapeChar
  split
  iterate 5 exact .inr (by decide)
  exact .inl rfl

/-- Escaping in character data keeps line feeds. -/
theorem keepsFeeds_escapeTextChar : KeepsFeeds Text.escapeTextChar := by
  intro c
  unfold Text.escapeTextChar
  split
  iterate 3 exact .inr (by decide)
  exact .inl rfl

namespace KeepsFeeds

variable {written : Char → List Char}

/-- A text that is written begins with a line feed exactly if it did before. -/
theorem head?_flatMap (h : KeepsFeeds written) (cs : List Char) :
    (cs.flatMap written).head? = some '\n' ↔ cs.head? = some '\n' := by
  cases cs with
  | nil => rfl
  | cons c cs =>
    rw [List.flatMap_cons, List.head?_cons]
    rcases h c with heq | ⟨⟨-, hfeed⟩, hne, -, hnot⟩
    · rw [heq]
      rfl
    · rw [List.head?_append_of_ne_nil _ hne]
      refine iff_of_false (fun hfirst => hnot (List.mem_of_head? hfirst)) ?_
      exact fun hfirst => hfeed (Option.some.inj hfirst)

/-- A text that ends with a return when it is written did so before. -/
theorem getLast?_of_flatMap (h : KeepsFeeds written)
    (hlast : (cs.flatMap written).getLast? = some '\r') : cs.getLast? = some '\r' := by
  rcases List.eq_nil_or_concat cs with rfl | ⟨front, c, rfl⟩
  · cases hlast
  · rw [List.concat_eq_append] at hlast ⊢
    rw [List.flatMap_append, List.flatMap_singleton] at hlast
    rw [List.getLast?_concat]
    rcases h c with heq | ⟨-, hne, hnot, -⟩
    · rwa [heq, List.getLast?_concat] at hlast
    · rw [List.getLast?_append_of_ne_nil _ hne] at hlast
      exact absurd (List.mem_of_getLast? hlast) hnot

/-- A text that is written has as many line feeds as before. -/
theorem count_flatMap (h : KeepsFeeds written) (cs : List Char) :
    (cs.flatMap written).count '\n' = cs.count '\n' := by
  induction cs with
  | nil => rfl
  | cons c cs ih =>
    rw [List.flatMap_cons, List.count_append, ih]
    rcases h c with heq | ⟨⟨-, hfeed⟩, -, -, hnot⟩
    · rw [heq, ← List.count_append, List.singleton_append]
    · rw [List.count_eq_zero_of_not_mem hnot, List.count_cons_of_ne hfeed, Nat.zero_add]

/-- The line feeds of a text that is written are bare exactly if they were before. -/
theorem bareFeeds_flatMap (h : KeepsFeeds written) (cs : List Char) :
    BareFeeds (cs.flatMap written) ↔ BareFeeds cs := by
  induction cs with
  | nil => rfl
  | cons c cs ih =>
    rw [List.flatMap_cons, bareFeeds_cons]
    rcases h c with heq | ⟨⟨hreturn, -⟩, -, hnot, -⟩
    · rw [heq, List.singleton_append, bareFeeds_cons, h.head?_flatMap, ih]
    · rw [bareFeeds_append_of_not_mem hnot, ih]
      exact (and_iff_right fun hboth => hreturn hboth.1).symm

end KeepsFeeds

end XmlCompare.Line
