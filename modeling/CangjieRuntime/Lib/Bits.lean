/-
  Sets of bits, and counting them.

  `setBits w n` is the set of the positions below `w` at which `n` has a one, `count w n` its size.
  A word array is a set of bit positions as well: position `b` is bit `b % w` of word `b / w`.

    * `count_eq_clear_lowest`: clearing the lowest one with `n &&& (n - 1)` takes one off the count,
      which is what a loop that counts ones that way rests on;
    * `count_eq_card_slice`: a word that agrees with a set of positions over its own stretch counts
      the members of that stretch, so sums over words become sizes of sets of positions.
-/
import Mathlib

set_option linter.unusedVariables false

namespace Bits

/-- The positions below `w` at which `n` has a one. -/
def setBits (w n : Nat) : Finset Nat := (Finset.range w).filter fun i => n.testBit i = true

/-- The number of ones of `n` below `w`. -/
def count (w n : Nat) : Nat := (setBits w n).card

@[simp] theorem mem_setBits {w n i : Nat} : i ∈ setBits w n ↔ i < w ∧ n.testBit i = true := by
  simp [setBits]

theorem count_le (w n : Nat) : count w n ≤ w := by
  have h := Finset.card_filter_le (Finset.range w) fun i => n.testBit i = true
  rwa [Finset.card_range] at h

@[simp] theorem count_zero (w : Nat) : count w 0 = 0 := by simp [count, setBits]

/-- `n &&& (n - 1)` is `n` without its lowest one. -/
theorem testBit_clear_lowest {k m : Nat} (i : Nat) :
    (2 ^ k * (2 * m + 1) &&& (2 ^ k * (2 * m + 1) - 1)).testBit i =
      ((2 ^ k * (2 * m + 1)).testBit i && decide (i ≠ k)) := by
  have hpow : 0 < 2 ^ k := Nat.two_pow_pos k
  -- both numbers have the bits of `m` above position `k`
  have hn : 2 ^ k * (2 * m + 1) = 2 ^ (k + 1) * m + 2 ^ k := by rw [Nat.pow_succ]; ring
  have hpred : 2 ^ k * (2 * m + 1) - 1 = 2 ^ (k + 1) * m + (2 ^ k - 1) := by omega
  have hlow : 2 ^ k < 2 ^ (k + 1) := by rw [Nat.pow_succ]; omega
  rw [Nat.testBit_and, hpred, hn, Nat.testBit_two_pow_mul_add _ hlow,
    Nat.testBit_two_pow_mul_add _ (by omega)]
  by_cases hi : i < k + 1
  · rw [if_pos hi, if_pos hi, Nat.testBit_two_pow, Nat.testBit_two_pow_sub_one]
    by_cases hik : i = k
    · simp [hik]
    · simp [hik, Ne.symm hik]
  · rw [if_neg hi, if_neg hi, Bool.and_self]
    simp [show i ≠ k by omega]

/-- **Clearing the lowest one.**  `n &&& (n - 1)` is `n` without it: a loop that clears it ends
    after as many rounds as there are ones. -/
theorem count_eq_clear_lowest {w n : Nat} (hn : n ≠ 0) (hw : n < 2 ^ w) :
    count w n = count w (n &&& (n - 1)) + 1 := by
  obtain ⟨k, m, hodd, rfl⟩ := Nat.exists_eq_two_pow_mul_odd hn
  obtain ⟨m, rfl⟩ := hodd
  have hkw : k < w := by
    have hle : 2 ^ k ≤ 2 ^ k * (2 * m + 1) := Nat.le_mul_of_pos_right _ (by omega)
    exact (Nat.pow_lt_pow_iff_right (by decide)).mp (Nat.lt_of_le_of_lt hle hw)
  have hk : (2 ^ k * (2 * m + 1)).testBit k = true := by
    rw [Nat.testBit_two_pow_mul]
    simp
  have hsplit : setBits w (2 ^ k * (2 * m + 1)) =
      insert k (setBits w (2 ^ k * (2 * m + 1) &&& (2 ^ k * (2 * m + 1) - 1))) := by
    ext i
    simp only [mem_setBits, Finset.mem_insert, testBit_clear_lowest, Bool.and_eq_true,
      decide_eq_true_eq]
    by_cases hik : i = k
    · subst hik
      simp [hkw, hk]
    · simp [hik]
  unfold count
  rw [hsplit, Finset.card_insert_of_notMem]
  intro hmem
  have hbit := (mem_setBits.mp hmem).2
  rw [testBit_clear_lowest] at hbit
  simp at hbit

/-- **A word as a stretch of a set of positions.**  The ones of word `q` are the members of the set
    from `w * q` on, up to the next word. -/
theorem count_eq_card_slice {w n q : Nat} (hw : 0 < w) {s : Finset Nat}
    (h : ∀ i < w, n.testBit i = true ↔ w * q + i ∈ s) :
    count w n = (s.filter fun b => b / w = q).card := by
  have himage : s.filter (fun b => b / w = q) = (setBits w n).image (w * q + ·) := by
    ext b
    simp only [Finset.mem_filter, Finset.mem_image, mem_setBits]
    constructor
    · rintro ⟨hb, hq⟩
      have hdm := Nat.div_add_mod b w
      have hlt := Nat.mod_lt b hw
      rw [hq] at hdm
      exact ⟨b % w, ⟨hlt, (h _ hlt).mpr (by rw [hdm]; exact hb)⟩, hdm⟩
    · rintro ⟨i, ⟨hi, hbit⟩, rfl⟩
      refine ⟨(h i hi).mp hbit, ?_⟩
      rw [Nat.mul_add_div hw, Nat.div_eq_of_lt hi, Nat.add_zero]
  rw [himage, Finset.card_image_of_injective _ (add_right_injective (w * q))]
  rfl

/-! ## Word arrays -/

/-- The positions below `n` at which an array of `w`-bit words has a one. -/
def ones (w : Nat) (words : Nat → Nat) (n : Nat) : Finset Nat :=
  (Finset.range n).filter fun b => (words (b / w)).testBit (b % w) = true

@[simp] theorem mem_ones {w n b : Nat} {words : Nat → Nat} :
    b ∈ ones w words n ↔ b < n ∧ (words (b / w)).testBit (b % w) = true := by
  simp [ones]

theorem ones_mono {w n n' : Nat} (words : Nat → Nat) (h : n ≤ n') :
    ones w words n ⊆ ones w words n' := by
  intro b hb
  rw [mem_ones] at hb ⊢
  exact ⟨by omega, hb.2⟩

/-- The ones of word `q` below its bit `r`. -/
theorem card_ones_add {w q r : Nat} (hw : 0 < w) (hr : r ≤ w) (words : Nat → Nat) :
    (ones w words (w * q + r)).card =
      (ones w words (w * q)).card + count w (words q &&& (2 ^ r - 1)) := by
  have hcount : count w (words q &&& (2 ^ r - 1)) =
      ((ones w words (w * q + r)).filter fun b => b / w = q).card := by
    refine count_eq_card_slice hw fun i hi => ?_
    rw [mem_ones, Nat.mul_add_div hw, Nat.div_eq_of_lt hi, Nat.add_zero, Nat.mul_add_mod,
      Nat.mod_eq_of_lt hi, Nat.testBit_and, Nat.testBit_two_pow_sub_one, Bool.and_eq_true,
      decide_eq_true_eq, Nat.add_lt_add_iff_left, and_comm]
  have hrest : (ones w words (w * q + r)).filter (fun b => ¬ b / w = q) =
      ones w words (w * q) := by
    ext b
    simp only [Finset.mem_filter, mem_ones]
    have hword : b < w * q + r → ¬ b / w = q → b < w * q := by
      intro hb hne
      have hlt : b / w < q + 1 := (Nat.div_lt_iff_lt_mul hw).mpr (by rw [Nat.add_mul]; nlinarith)
      have hlt' : b / w < q := by omega
      have := (Nat.div_lt_iff_lt_mul hw).mp hlt'
      rwa [Nat.mul_comm] at this
    have hword' : b < w * q → ¬ b / w = q := by
      intro hb heq
      have := (Nat.div_lt_iff_lt_mul hw).mpr (by rwa [Nat.mul_comm] at hb : b < q * w)
      omega
    constructor
    · rintro ⟨⟨hb, hbit⟩, hne⟩
      exact ⟨hword hb hne, hbit⟩
    · rintro ⟨hb, hbit⟩
      exact ⟨⟨by omega, hbit⟩, hword' hb⟩
  have hsplit := Finset.card_filter_add_card_filter_not (s := ones w words (w * q + r))
    fun b => b / w = q
  rw [hrest] at hsplit
  omega

theorem count_and_mask {w n : Nat} : count w (n &&& (2 ^ w - 1)) = count w n := by
  unfold count
  congr 1
  ext i
  simp only [mem_setBits, Nat.testBit_and, Nat.testBit_two_pow_sub_one, Bool.and_eq_true,
    decide_eq_true_eq]
  tauto

/-- One word more. -/
theorem card_ones_succ {w : Nat} (hw : 0 < w) (words : Nat → Nat) (q : Nat) :
    (ones w words (w * (q + 1))).card = (ones w words (w * q)).card + count w (words q) := by
  rw [Nat.mul_succ, card_ones_add hw (Nat.le_refl w), count_and_mask]

/-- The ones of a word, among those of the array. -/
theorem count_eq_card_word {w n q : Nat} (hw : 0 < w) (words : Nat → Nat) (hq : q < n) :
    count w (words q) = ((ones w words (w * n)).filter fun b => b / w = q).card := by
  refine count_eq_card_slice hw fun i hi => ?_
  have hlt : w * q + i < w * n := by
    have := Nat.mul_le_mul_left w (Nat.succ_le_of_lt hq)
    rw [Nat.mul_succ] at this
    omega
  rw [mem_ones, Nat.mul_add_div hw, Nat.div_eq_of_lt hi, Nat.add_zero, Nat.mul_add_mod,
    Nat.mod_eq_of_lt hi]
  exact ⟨fun h => ⟨hlt, h⟩, fun h => h.2⟩

/-- **Counting word by word**, over the words a predicate selects.  The slices are disjoint, and
    their union is the part of the set in these words. -/
theorem sum_count_eq_card {w : Nat} (hw : 0 < w) (words : Nat → Nat) (n : Nat) (P : Nat → Prop)
    [DecidablePred P] :
    ∑ q ∈ (Finset.range n).filter P, count w (words q) =
      ((ones w words (w * n)).filter fun b => P (b / w)).card := by
  have hmaps : ∀ b ∈ (ones w words (w * n)).filter (fun b => P (b / w)),
      b / w ∈ (Finset.range n).filter P := by
    intro b hb
    rw [Finset.mem_filter, mem_ones] at hb
    rw [Finset.mem_filter, Finset.mem_range]
    exact ⟨(Nat.div_lt_iff_lt_mul hw).mpr (by rw [Nat.mul_comm]; exact hb.1.1), hb.2⟩
  rw [Finset.card_eq_sum_card_fiberwise hmaps]
  refine Finset.sum_congr rfl fun q hq => ?_
  rw [Finset.mem_filter, Finset.mem_range] at hq
  rw [count_eq_card_word hw words hq.1, Finset.filter_filter]
  congr 1
  ext b
  simp only [Finset.mem_filter]
  constructor
  · rintro ⟨hb, rfl⟩
    exact ⟨hb, hq.2, rfl⟩
  · rintro ⟨hb, -, heq⟩
    exact ⟨hb, heq⟩

end Bits
