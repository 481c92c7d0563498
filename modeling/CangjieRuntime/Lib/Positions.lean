/-
  The ones of a number as an ascending list of positions.

  `positions w n` lists the positions below `w` at which `n` has a one.  A loop that tests the
  lowest bit and shifts goes through `positions_succ`; a shift drops the positions below its count
  (`positions_shiftRight`); and an array of words is one list of positions, word after word
  (`arrayPositions`).
-/
import Mathlib

set_option linter.unusedVariables false

namespace Bits

/-- The positions below `w` at which `n` has a one, in ascending order. -/
def positions (w n : Nat) : List Nat := (List.range w).filter fun i => n.testBit i

@[simp] theorem mem_positions {w n i : Nat} : i ∈ positions w n ↔ i < w ∧ n.testBit i = true := by
  simp [positions]

theorem positions_pairwise (w n : Nat) : (positions w n).Pairwise (· < ·) :=
  List.Pairwise.filter _ List.pairwise_lt_range

@[simp] theorem positions_zero_right (w : Nat) : positions w 0 = [] := by
  simp [positions]

/-- The lowest bit, and the rest shifted. -/
theorem positions_succ (w n : Nat) : positions (w + 1) n =
    (if n.testBit 0 then [0] else []) ++ (positions w (n >>> 1)).map (· + 1) := by
  have hrest : ((List.range w).map Nat.succ).filter (fun i => n.testBit i) =
      (positions w (n >>> 1)).map (· + 1) := by
    rw [positions, List.filter_map]
    congr 1
    refine List.filter_congr fun i _ => ?_
    rw [Nat.testBit_shiftRight, Nat.add_comm]
    rfl
  rw [positions, List.range_succ_eq_map, List.filter_cons, hrest]
  split <;> rfl

/-- The width does not matter past the number's own. -/
theorem positions_widen {w n : Nat} (hn : n < 2 ^ w) (k : Nat) :
    positions (w + k) n = positions w n := by
  have hnone : ∀ i ∈ List.map (w + ·) (List.range k), n.testBit i ≠ true := by
    intro i hi
    obtain ⟨j, -, rfl⟩ := List.mem_map.mp hi
    rw [Nat.testBit_lt_two_pow (Nat.lt_of_lt_of_le hn (Nat.pow_le_pow_right (by decide)
      (Nat.le_add_right w j)))]
    decide
  rw [positions, List.range_add, List.filter_append, List.filter_eq_nil_iff.mpr hnone,
    List.append_nil]
  rfl

/-- **A shift drops the positions below its count.**  Those that are left count from the new start.
    -/
theorem positions_shiftRight {w n : Nat} (hn : n < 2 ^ w) (k : Nat) :
    (positions w (n >>> k)).map (k + ·) = (positions w n).filter (k ≤ ·) := by
  have hrange : (List.range (k + w)).filter (fun i => n.testBit i && decide (k ≤ i)) =
      (positions w (n >>> k)).map (k + ·) := by
    have hlow : ∀ i ∈ List.range k, (n.testBit i && decide (k ≤ i)) ≠ true := by
      intro i hi
      have hlt := List.mem_range.mp hi
      simp [Nat.not_le.mpr hlt]
    rw [List.range_add, List.filter_append, List.filter_eq_nil_iff.mpr hlow, List.nil_append,
      List.filter_map, positions]
    congr 1
    refine List.filter_congr fun i _ => ?_
    simp [Nat.testBit_shiftRight]
  rw [← hrange, ← positions_widen hn k, positions, List.filter_filter, Nat.add_comm w k]
  exact List.filter_congr fun i _ => Bool.and_comm _ _

/-- The positions of the ones of `count` words of `w` bits, from word `index` on. -/
def arrayPositions (w : Nat) (words : Nat → Nat) (index count : Nat) : List Nat :=
  (List.range' index count).flatMap fun k => (positions w (words k)).map (w * k + ·)

@[simp] theorem arrayPositions_zero (w : Nat) (words : Nat → Nat) (index : Nat) :
    arrayPositions w words index 0 = [] := rfl

theorem arrayPositions_succ (w : Nat) (words : Nat → Nat) (index count : Nat) :
    arrayPositions w words index (count + 1) =
      (positions w (words index)).map (w * index + ·) ++
        arrayPositions w words (index + 1) count := by
  rw [arrayPositions, List.range'_succ, List.flatMap_cons]
  rfl

theorem arrayPositions_append (w : Nat) (words : Nat → Nat) (index m n : Nat) :
    arrayPositions w words index (m + n) =
      arrayPositions w words index m ++ arrayPositions w words (index + m) n := by
  rw [arrayPositions, ← List.range'_append_1, List.flatMap_append]
  rfl

theorem mem_arrayPositions {w index count b : Nat} {words : Nat → Nat} :
    b ∈ arrayPositions w words index count ↔
      ∃ k i, index ≤ k ∧ k < index + count ∧ i < w ∧ (words k).testBit i = true ∧
        b = w * k + i := by
  simp only [arrayPositions, List.mem_flatMap, List.mem_range'_1, List.mem_map, mem_positions]
  constructor
  · rintro ⟨k, ⟨hle, hlt⟩, i, ⟨hi, hbit⟩, rfl⟩
    exact ⟨k, i, hle, hlt, hi, hbit, rfl⟩
  · rintro ⟨k, i, hle, hlt, hi, hbit, rfl⟩
    exact ⟨k, ⟨hle, hlt⟩, i, ⟨hi, hbit⟩, rfl⟩

/-- A one of a number below `2 ^ w` is below `w`. -/
theorem lt_of_testBit {w n i : Nat} (hn : n < 2 ^ w) (hi : n.testBit i = true) : i < w := by
  by_contra hge
  rw [Nat.testBit_lt_two_pow (Nat.lt_of_lt_of_le hn (Nat.pow_le_pow_right (by decide)
    (Nat.le_of_not_lt hge)))] at hi
  cases hi

/-- The positions of the words from `index` on are at least `w * index`. -/
theorem le_of_mem_arrayPositions {w index count b : Nat} {words : Nat → Nat}
    (hb : b ∈ arrayPositions w words index count) : w * index ≤ b := by
  obtain ⟨k, i, hle, -, -, -, rfl⟩ := mem_arrayPositions.mp hb
  exact Nat.le_trans (Nat.mul_le_mul_left w hle) (Nat.le_add_right _ _)

/-- Word after word is ascending. -/
theorem arrayPositions_pairwise (w : Nat) (words : Nat → Nat) (index count : Nat) :
    (arrayPositions w words index count).Pairwise (· < ·) := by
  induction count generalizing index with
  | zero => exact List.Pairwise.nil
  | succ count ih =>
    rw [arrayPositions_succ, List.pairwise_append]
    refine ⟨?_, ih (index + 1), fun a ha b hb => ?_⟩
    · exact (positions_pairwise w (words index)).map _ fun a b hab => Nat.add_lt_add_left hab _
    · obtain ⟨i, hi, rfl⟩ := List.mem_map.mp ha
      have hlt := (mem_positions.mp hi).1
      have hle := le_of_mem_arrayPositions hb
      rw [Nat.mul_add, Nat.mul_one] at hle
      omega

end Bits
