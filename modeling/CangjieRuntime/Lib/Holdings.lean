/-
  Who holds what: a set split among holders.

  `Partitions f u` says that the holdings `f i` are disjoint and together make up `u`.  Every step
  of a system that only passes elements around is a move of a subset from one holder to another,
  so conservation is one lemma (`Partitions.move`) used once per step.
-/
import Mathlib

set_option linter.unusedVariables false

namespace Holdings

variable {ι α : Type}

/-- The holdings `f` are disjoint and make up `u`. -/
structure Partitions (f : ι → Set α) (u : Set α) : Prop where
  cover : ∀ x, x ∈ u ↔ ∃ i, x ∈ f i
  disjoint : ∀ i j x, x ∈ f i → x ∈ f j → i = j

/-- Everything in `u` has exactly one holder. -/
theorem Partitions.existsUnique {f : ι → Set α} {u : Set α} (h : Partitions f u) {x : α}
    (hx : x ∈ u) : ∃! i, x ∈ f i := by
  obtain ⟨i, hi⟩ := (h.cover x).mp hx
  exact ⟨i, hi, fun j hj => h.disjoint j i x hj hi⟩

theorem Partitions.subset {f : ι → Set α} {u : Set α} (h : Partitions f u) (i : ι) :
    f i ⊆ u := fun x hx => (h.cover x).mpr ⟨i, hx⟩

theorem Partitions.disjoint_of_subset {f : ι → Set α} {u s : Set α} (h : Partitions f u)
    {i j : ι} (hij : i ≠ j) (hs : s ⊆ f j) : Disjoint (f i) s := by
  rw [Set.disjoint_left]
  intro x hi hj
  exact hij (h.disjoint i j x hi (hs hj))

/-- **Conservation.**  Moving a subset from one holder to another keeps the partition. -/
theorem Partitions.move {f f' : ι → Set α} {u s : Set α} (h : Partitions f u) {a b : ι}
    (hab : a ≠ b) (hs : s ⊆ f a) (ha : f' a = f a \ s) (hb : f' b = f b ∪ s)
    (hother : ∀ i, i ≠ a → i ≠ b → f' i = f i) : Partitions f' u := by
  -- an element of `s` is held by `b` afterwards, every other element by whom it was before
  have hnew : ∀ i x, x ∈ f' i ↔ (x ∈ s ∧ i = b) ∨ (x ∉ s ∧ x ∈ f i) := by
    intro i x
    by_cases hia : i = a
    · subst hia
      rw [ha]
      simp only [Set.mem_sdiff]
      tauto
    · by_cases hib : i = b
      · subst hib
        rw [hb]
        simp only [Set.mem_union]
        by_cases hx : x ∈ s
        · simp [hx]
        · simp [hx]
      · rw [hother i hia hib]
        by_cases hx : x ∈ s
        · have : x ∉ f i := fun hxi => hia (h.disjoint i a x hxi (hs hx))
          simp [hx, this, hib]
        · simp [hx]
  constructor
  · intro x
    rw [h.cover x]
    constructor
    · rintro ⟨i, hi⟩
      by_cases hx : x ∈ s
      · exact ⟨b, (hnew b x).mpr (Or.inl ⟨hx, rfl⟩)⟩
      · exact ⟨i, (hnew i x).mpr (Or.inr ⟨hx, hi⟩)⟩
    · rintro ⟨i, hi⟩
      rcases (hnew i x).mp hi with ⟨hx, -⟩ | ⟨-, hi⟩
      · exact ⟨a, hs hx⟩
      · exact ⟨i, hi⟩
  · intro i j x hi hj
    rcases (hnew i x).mp hi with ⟨hx, rfl⟩ | ⟨hx, hi⟩ <;>
      rcases (hnew j x).mp hj with ⟨hx', rfl⟩ | ⟨hx', hj⟩
    · rfl
    · exact absurd hx hx'
    · exact absurd hx' hx
    · exact h.disjoint i j x hi hj

/-- Holdings that have not changed. -/
theorem Partitions.congr {f f' : ι → Set α} {u : Set α} (h : Partitions f u)
    (heq : ∀ i, f' i = f i) : Partitions f' u := by
  rw [show f' = f from funext heq]
  exact h

end Holdings
