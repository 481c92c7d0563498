/-
  LEB128 numbers in memory.

  Seven bits a byte, lowest first; every byte but the last has its high bit set.  `Uleb m p v q`
  says that the bytes from `p` up to `q` are a number with the value `v`, and `Sleb m p d q` that
  they are a signed one, whose last byte has the sign in its bit 6.  The encoding need not be the
  shortest one: an assembler may pad a number to make room.

  A decoder collects the bits with `|||` at a growing shift; `or_shift` turns one round of that
  into an addition.
-/
import Mathlib

set_option linter.unusedVariables false

namespace Leb128

variable {m : Nat → UInt8} {p q v : Nat}

/-- The bytes from `p` to `q` are the number `v`. -/
inductive Uleb (m : Nat → UInt8) : Nat → Nat → Nat → Prop
  | last {p : Nat} (h : (m p).toNat < 128) : Uleb m p (m p).toNat (p + 1)
  | more {p v q : Nat} (h : 128 ≤ (m p).toNat) (hrest : Uleb m (p + 1) v q) :
      Uleb m p ((m p).toNat - 128 + 128 * v) q

/-- The bytes from `p` to `q` are the signed number `d`. -/
inductive Sleb (m : Nat → UInt8) : Nat → Int → Nat → Prop
  | pos {p : Nat} (h : (m p).toNat < 64) : Sleb m p (m p).toNat (p + 1)
  | neg {p : Nat} (h : 64 ≤ (m p).toNat) (h' : (m p).toNat < 128) :
      Sleb m p ((m p).toNat - 128) (p + 1)
  | more {p q : Nat} {d : Int} (h : 128 ≤ (m p).toNat) (hrest : Sleb m (p + 1) d q) :
      Sleb m p ((m p).toNat - 128 + 128 * d) q

theorem Uleb.lt (h : Uleb m p v q) : p < q := by
  induction h with
  | last => exact Nat.lt_succ_self _
  | more _ _ ih => exact Nat.lt_of_succ_lt ih

theorem Sleb.lt {d : Int} (h : Sleb m p d q) : p < q := by
  induction h with
  | pos => exact Nat.lt_succ_self _
  | neg => exact Nat.lt_succ_self _
  | more _ _ ih => exact Nat.lt_of_succ_lt ih

/-- The shortest encoding of a number. -/
def ulebEncode (v : Nat) : List UInt8 :=
  if v < 128 then [v.toUInt8] else (v % 128 + 128).toUInt8 :: ulebEncode (v / 128)

/-- The shortest encoding of a signed number: it ends where the rest is the sign of the last byte. -/
def slebEncode (d : Int) : List UInt8 :=
  if -64 ≤ d ∧ d < 64 then [(d % 128).toNat.toUInt8]
  else ((d % 128).toNat + 128).toUInt8 :: slebEncode (d / 128)
termination_by d.natAbs
decreasing_by omega

/-- The bytes are in memory. -/
def Holds (m : Nat → UInt8) : Nat → List UInt8 → Prop
  | _, [] => True
  | p, b :: bs => m p = b ∧ Holds m (p + 1) bs

theorem Holds.append {xs ys : List UInt8} (h : Holds m p (xs ++ ys)) :
    Holds m p xs ∧ Holds m (p + xs.length) ys := by
  induction xs generalizing p with
  | nil => exact ⟨trivial, h⟩
  | cons b bs ih =>
    obtain ⟨hbs, hys⟩ := ih h.2
    refine ⟨⟨h.1, hbs⟩, ?_⟩
    rw [List.length_cons, ← Nat.add_assoc, Nat.add_right_comm]
    exact hys

theorem toNat_toUInt8 {n : Nat} (h : n < 256) : n.toUInt8.toNat = n := by
  rw [Nat.toUInt8, UInt8.toNat_ofNat']
  exact Nat.mod_eq_of_lt h

theorem uleb_encode (v : Nat) : ∀ p, Holds m p (ulebEncode v) →
    Uleb m p v (p + (ulebEncode v).length) := by
  induction v using Nat.strong_induction_on with
  | _ v ih =>
    intro p h
    rw [ulebEncode] at h ⊢
    by_cases hlt : v < 128
    · rw [if_pos hlt] at h ⊢
      have hbyte : (m p).toNat = v := by rw [h.1, toNat_toUInt8 (by omega)]
      have hlast := @Uleb.last m p (by omega)
      rwa [hbyte] at hlast
    · rw [if_neg hlt] at h ⊢
      have hbyte : (m p).toNat = v % 128 + 128 := by rw [h.1, toNat_toUInt8 (by omega)]
      have hmore := Uleb.more (by omega) (ih (v / 128) (by omega) (p + 1) h.2)
      rw [hbyte, Nat.add_sub_cancel, Nat.mod_add_div] at hmore
      rwa [List.length_cons, ← Nat.add_assoc, Nat.add_right_comm]

theorem sleb_encode (d : Int) : ∀ p, Holds m p (slebEncode d) →
    Sleb m p d (p + (slebEncode d).length) := by
  induction d using slebEncode.induct with
  | case1 d hsmall =>
    intro p h
    rw [slebEncode, if_pos hsmall] at h ⊢
    have hbyte : (m p).toNat = (d % 128).toNat := by rw [h.1, toNat_toUInt8 (by omega)]
    by_cases hneg : d < 0
    · have hlast := @Sleb.neg m p (by omega) (by omega)
      rwa [show ((m p).toNat : Int) - 128 = d by omega] at hlast
    · have hlast := @Sleb.pos m p (by omega)
      rwa [show ((m p).toNat : Int) = d by omega] at hlast
  | case2 d hlarge ih =>
    intro p h
    rw [slebEncode, if_neg hlarge] at h ⊢
    have hbyte : (m p).toNat = (d % 128).toNat + 128 := by rw [h.1, toNat_toUInt8 (by omega)]
    have hmore := Sleb.more (by omega) (ih (p + 1) h.2)
    rw [show ((m p).toNat : Int) - 128 + 128 * (d / 128) = d by omega] at hmore
    rwa [List.length_cons, ← Nat.add_assoc, Nat.add_right_comm]

/-- A signed number with `7 * n` bits has at most `n` bytes. -/
theorem slebEncode_length : ∀ (n : Nat) (d : Int), -(64 * 128 ^ n) ≤ d → d < 64 * 128 ^ n →
    (slebEncode d).length ≤ n + 1 := by
  intro n
  induction n with
  | zero =>
    intro d hle hlt
    rw [slebEncode, if_pos (by omega)]
    exact Nat.le_refl 1
  | succ n ih =>
    intro d hle hlt
    rw [slebEncode]
    split
    · exact Nat.le_add_left 1 _
    · rw [pow_succ] at hle hlt
      have hrest := ih (d / 128) (by omega) (by omega)
      rw [List.length_cons]
      omega

/-! ## The bits of a byte -/

theorem toNat_lt (b : UInt8) : b.toNat < 256 := b.toNat_lt

/-- The low seven bits. -/
theorem and_valueMask (b : Nat) : b &&& 0x7f = b % 128 := Nat.and_two_pow_sub_one_eq_mod b 7

/-- The high bit. -/
theorem and_high {b : Nat} (h : b < 256) : b &&& 0x80 ≠ 0 ↔ 128 ≤ b := by
  have hall : ∀ b : Fin 256, b.val &&& 0x80 ≠ 0 ↔ 128 ≤ b.val := by decide +kernel
  exact hall ⟨b, h⟩

/-- Bit 6. -/
theorem and_sign {b : Nat} (h : b < 256) : b &&& 0x40 ≠ 0 ↔ 64 ≤ b % 128 := by
  have hall : ∀ b : Fin 256, b.val &&& 0x40 ≠ 0 ↔ 64 ≤ b.val % 128 := by decide +kernel
  exact hall ⟨b, h⟩

/-- Bits above all the bits collected so far are added. -/
theorem or_shift {x s : Nat} (h : x < 2 ^ s) (k : Nat) : x ||| k * 2 ^ s = x + k * 2 ^ s := by
  rw [Nat.lor_comm, ← Nat.shiftLeft_eq, ← Nat.shiftLeft_add_eq_or_of_lt h, Nat.add_comm]

end Leb128
