/-
  Bit fields in a memory of bytes.

  The bits of a memory are numbered through, the low bit of each byte first, as on a little-endian
  machine.  `field m bit len` is the number whose bit `i` is bit `bit + i` of the memory, and
  `load m p n` the little-endian number in `n` bytes; both are known by their bits
  (`testBit_field`, `testBit_load`), which is how a load that is shifted and masked is compared with
  a field that was put together bit by bit.
-/
import Mathlib

set_option linter.unusedVariables false

namespace BitField

variable {m : Nat → UInt8} {bit len p n k : Nat}

/-- Bit `k` of the memory. -/
def bitAt (m : Nat → UInt8) (k : Nat) : Bool := (m (k / 8)).toNat.testBit (k % 8)

/-- The `len` bits from `bit` on, as a number. -/
def field (m : Nat → UInt8) (bit : Nat) : Nat → Nat
  | 0 => 0
  | len + 1 => field m bit len + 2 ^ len * (bitAt m (bit + len)).toNat

/-- The little-endian number in the `n` bytes from `p` on. -/
def load (m : Nat → UInt8) (p : Nat) : Nat → Nat
  | 0 => 0
  | n + 1 => load m p n + 2 ^ (8 * n) * (m (p + n)).toNat

theorem field_lt (m : Nat → UInt8) (bit len : Nat) : field m bit len < 2 ^ len := by
  induction len with
  | zero => exact Nat.one_pos
  | succ len ih =>
    have hbit : (bitAt m (bit + len)).toNat ≤ 1 := Bool.toNat_le _
    have hmul := Nat.mul_le_mul_left (2 ^ len) hbit
    rw [field, Nat.pow_succ]
    omega

/-- **The bits of a field.**  Two fields are equal if their bits are, and so the proofs about them
    go bit by bit. -/
theorem testBit_field (m : Nat → UInt8) (bit len i : Nat) :
    (field m bit len).testBit i = (decide (i < len) && bitAt m (bit + i)) := by
  induction len with
  | zero => simp [field]
  | succ len ih =>
    rw [field, Nat.add_comm, Nat.testBit_two_pow_mul_add _ (field_lt m bit len), ih]
    rcases Nat.lt_trichotomy i len with hlt | rfl | hgt
    · simp [hlt, show i < len + 1 by omega]
    · cases bitAt m (bit + i) <;> simp
    · obtain ⟨j, hj⟩ : ∃ j, i - len = j + 1 := ⟨i - len - 1, by omega⟩
      rw [if_neg (by omega), hj, decide_eq_false (show ¬ i < len + 1 by omega), Bool.false_and]
      cases bitAt m (bit + len) <;> simp [Nat.testBit_succ]

theorem load_lt (m : Nat → UInt8) (p n : Nat) : load m p n < 2 ^ (8 * n) := by
  induction n with
  | zero => exact Nat.one_pos
  | succ n ih =>
    have hbyte := (m (p + n)).toNat_lt
    have hmul : 2 ^ (8 * n) * (m (p + n)).toNat ≤ 2 ^ (8 * n) * 255 :=
      Nat.mul_le_mul_left _ (by omega)
    rw [load, show 8 * (n + 1) = 8 * n + 8 by omega, Nat.pow_add]
    omega

/-- **The bits of a load.**  Those of a byte are in a row, the lowest first, and the bytes follow
    each other. -/
theorem testBit_load (m : Nat → UInt8) (p n i : Nat) :
    (load m p n).testBit i = (decide (i < 8 * n) && bitAt m (8 * p + i)) := by
  induction n with
  | zero => simp [load]
  | succ n ih =>
    rw [load, Nat.add_comm, Nat.testBit_two_pow_mul_add _ (load_lt m p n), ih]
    by_cases hlt : i < 8 * n
    · simp [hlt, show i < 8 * (n + 1) by omega]
    · rw [if_neg hlt]
      by_cases hin : i < 8 * (n + 1)
      · have hbyte : (8 * p + i) / 8 = p + n := by omega
        have hbit : (8 * p + i) % 8 = i - 8 * n := by omega
        rw [decide_eq_true hin, Bool.true_and, bitAt, hbyte, hbit]
      · have hhigh : (m (p + n)).toNat < 2 ^ (i - 8 * n) :=
          Nat.lt_of_lt_of_le (m (p + n)).toNat_lt (Nat.pow_le_pow_right (by decide)
            (show 8 ≤ i - 8 * n by omega))
        rw [decide_eq_false hin, Bool.false_and, Nat.testBit_lt_two_pow hhigh]

/-- **A load, shifted and masked, is a field**, as far as the load reaches. -/
theorem load_shift_mod (m : Nat → UInt8) (p n k len : Nat) (h : k + len ≤ 8 * n) :
    (load m p n >>> k) % 2 ^ len = field m (8 * p + k) len := by
  refine Nat.eq_of_testBit_eq fun i => ?_
  rw [Nat.testBit_mod_two_pow, Nat.testBit_shiftRight, testBit_load, testBit_field,
    ← Nat.add_assoc]
  by_cases hi : i < len
  · rw [decide_eq_true (show k + i < 8 * n by omega), Bool.true_and]
  · rw [decide_eq_false hi, Bool.false_and, Bool.false_and]

/-- A short field of one byte. -/
theorem byte_shift_mod (m : Nat → UInt8) (p k len : Nat) (h : k + len ≤ 8) :
    ((m p).toNat >>> k) % 2 ^ len = field m (8 * p + k) len := by
  have hload : load m p 1 = (m p).toNat := by
    rw [load, load, Nat.mul_zero, Nat.pow_zero, Nat.one_mul, Nat.zero_add, Nat.add_zero]
  rw [← hload]
  exact load_shift_mod m p 1 k len h

/-- A field is its low part and the field behind it. -/
theorem field_add (m : Nat → UInt8) (bit len more : Nat) :
    field m bit (len + more) = field m bit len + 2 ^ len * field m (bit + len) more := by
  induction more with
  | zero => rw [Nat.add_zero, field, Nat.mul_zero, Nat.add_zero]
  | succ more ih =>
    rw [← Nat.add_assoc, field, ih, field, Nat.pow_add, Nat.add_assoc bit]
    ring

end BitField
