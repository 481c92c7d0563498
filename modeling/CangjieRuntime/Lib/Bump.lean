/-
  Bump allocation.

  A bump allocator keeps one position, and a request gets the stretch the position passes.  With
  the requests recorded latest first, the state of the allocator is `Stacked`: every stretch starts
  where the one before it ended.  So the stretches are disjoint (`Stacked.disjoint`) and all lie
  between the start and the position (`Stacked.subset`); whether the position is below an end is a
  question about the sum of the sizes alone (`Stacked.position_eq`).
-/
import Mathlib

set_option linter.unusedVariables false

namespace Bump

variable {α : Type} (address size : α → Nat)

/-- The addresses of a request. -/
def extent (a : α) : Set Nat := Set.Ico (address a) (address a + size a)

/-- The requests, latest first, fill `[start, position)` one after the other. -/
def Stacked (start : Nat) : Nat → List α → Prop
  | position, [] => position = start
  | position, a :: rest => position = address a + size a ∧ Stacked start (address a) rest

variable {address size} {start position : Nat} {requests : List α}

theorem Stacked.position_eq (h : Stacked address size start position requests) :
    position = start + (requests.map size).sum := by
  induction requests generalizing position with
  | nil => simpa [Stacked] using h
  | cons a rest ih =>
    have := ih h.2
    rw [List.map_cons, List.sum_cons, h.1]
    omega

/-- Every request got addresses between the start and the position. -/
theorem Stacked.bounds (h : Stacked address size start position requests) {a : α}
    (ha : a ∈ requests) : start ≤ address a ∧ address a + size a ≤ position := by
  induction requests generalizing position with
  | nil => exact absurd ha List.not_mem_nil
  | cons b rest ih =>
    have hb := h.2.position_eq
    rcases List.mem_cons.mp ha with rfl | ha
    · exact ⟨by omega, h.1.ge⟩
    · have := ih h.2 ha
      have := h.1
      omega

theorem Stacked.subset (h : Stacked address size start position requests) {a : α}
    (ha : a ∈ requests) : extent address size a ⊆ Set.Ico start position :=
  Set.Ico_subset_Ico (h.bounds ha).1 (h.bounds ha).2

/-- No two requests share an address. -/
theorem Stacked.disjoint (h : Stacked address size start position requests) :
    requests.Pairwise fun a b => Disjoint (extent address size a) (extent address size b) := by
  induction requests generalizing position with
  | nil => exact List.Pairwise.nil
  | cons a rest ih =>
    refine List.pairwise_cons.mpr ⟨fun b hb => ?_, ih h.2⟩
    rw [Set.disjoint_left]
    intro x hxa hxb
    have := (h.2.bounds hb).2
    have := hxa.1
    have := hxb.2
    omega

/-- One more request. -/
theorem Stacked.push (h : Stacked address size start position requests) {a : α}
    (ha : address a = position) :
    Stacked address size start (position + size a) (a :: requests) :=
  ⟨by rw [ha], by rw [ha]; exact h⟩

end Bump
