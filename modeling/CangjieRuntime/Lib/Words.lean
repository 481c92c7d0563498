/-
  Fixed-width machine words as natural numbers.

  A word of width `w` is a `Nat` below `2 ^ w`; the operations reduce modulo `2 ^ w`, which is how
  unsigned arithmetic behaves under a wrapping overflow strategy.  Each operation comes with the
  one lemma its users need: the exact value, under the bound that excludes a wrap.
-/
import Mathlib.Algebra.Order.Group.Nat

namespace Words

/-- `a + b` on `w`-bit words. -/
def add (w a b : Nat) : Nat := (a + b) % 2 ^ w

/-- `a - b` on `w`-bit words. -/
def sub (w a b : Nat) : Nat := (a + (2 ^ w - b)) % 2 ^ w

/-- `a * b` on `w`-bit words. -/
def mul (w a b : Nat) : Nat := (a * b) % 2 ^ w

/-- `a << k` on `w`-bit words; the shift count is taken modulo `w`. -/
def shl (w a k : Nat) : Nat := a <<< (k % w) % 2 ^ w

/-- `a >> k` on `w`-bit words; the shift count is taken modulo `w`. -/
def shr (w a k : Nat) : Nat := a >>> (k % w)

theorem add_eq {w a b : Nat} (h : a + b < 2 ^ w) : add w a b = a + b := Nat.mod_eq_of_lt h

theorem sub_eq {w a b : Nat} (hb : b ≤ a) (ha : a < 2 ^ w) : sub w a b = a - b := by
  unfold sub
  rw [show a + (2 ^ w - b) = (a - b) + 2 ^ w by omega, Nat.add_mod_right]
  exact Nat.mod_eq_of_lt (by omega)

theorem mul_eq {w a b : Nat} (h : a * b < 2 ^ w) : mul w a b = a * b := Nat.mod_eq_of_lt h

theorem add_lt (w a b : Nat) : add w a b < 2 ^ w := Nat.mod_lt _ (Nat.two_pow_pos w)
theorem sub_lt (w a b : Nat) : sub w a b < 2 ^ w := Nat.mod_lt _ (Nat.two_pow_pos w)

/-- The mask `0 - 2 ^ k` clears the low `k` bits. -/
theorem and_neg_two_pow {w x k : Nat} (hx : x < 2 ^ w) (hk : k < w) :
    x &&& sub w 0 (2 ^ k) = x / 2 ^ k * 2 ^ k := by
  have hmask : sub w 0 (2 ^ k) = (2 ^ (w - k) - 1) * 2 ^ k := by
    have hle : 2 ^ k < 2 ^ w := Nat.pow_lt_pow_right (by decide) hk
    have hpos := Nat.two_pow_pos k
    rw [sub, Nat.zero_add, Nat.mod_eq_of_lt (by omega), Nat.sub_mul, ← Nat.pow_add,
      Nat.sub_add_cancel (by omega), Nat.one_mul]
  rw [hmask]
  refine Nat.eq_of_testBit_eq fun i => ?_
  rw [Nat.testBit_and, Nat.testBit_mul_two_pow, Nat.testBit_mul_two_pow, Nat.testBit_div_two_pow,
    Nat.testBit_two_pow_sub_one]
  by_cases hi : k ≤ i
  · rw [Nat.sub_add_cancel hi]
    by_cases hiw : i < w
    · have : i - k < w - k := by omega
      simp [hi, this]
    · have : x.testBit i = false :=
        Nat.testBit_lt_two_pow (lt_of_lt_of_le hx (Nat.pow_le_pow_right (by decide) (by omega)))
      simp [this]
  · simp [hi]

end Words
