/-
  The size classes of the runtime's allocator (`rt.common/MemCommon.cj`).

  A table of five segments is coded twice: `SizeManagerRoundUp` rounds a size with a mask,
  `SizeManagerIndex` numbers its class with a shift.  In four segments the granule of the rounding
  is the power of two that the index shifts by, and the two agree.  In the last one the rounding
  has the granule `8 * 1028`, which is no power of two: its mask clears bit 13 and the low five
  bits, while the index shifts by 13 (`sizeManagerRoundUp_large`).  `SoundPair` says which pairs of
  sizes are consistent all the same.
-/
import CangjieRuntime.Lib.Words
import Mathlib

set_option linter.unusedVariables false

namespace CangjieRuntime.Common

namespace MemCommon

abbrev MAX_BYTES : Nat := 256 * 1024
abbrev NFREELIST : Nat := 208

/-- `UIntNative.Max`, which also stands for no size. -/
abbrev UINT_NATIVE_MAX : Nat := 18446744073709551615

/-- `SizeRoundUp`: up to a multiple of `alignNum`, a power of two. -/
def sizeRoundUp (bytes alignNum : Nat) : Nat :=
  Words.sub 64 (Words.add 64 bytes alignNum) 1 &&& (UINT_NATIVE_MAX ^^^ Words.sub 64 alignNum 1)

/-- `SizeIndex`: the number of the size class among those of one step. -/
def sizeIndex (bytes alignShift : Nat) : Nat :=
  Words.sub 64 (Words.shr 64
    (Words.sub 64 (Words.add 64 bytes (Words.shl 64 1 alignShift)) 1) alignShift) 1

/-- `SizeManagerRoundUp`: the step depends on the size. -/
def sizeManagerRoundUp (bytes : Nat) : Nat :=
  if bytes ≤ 128 then sizeRoundUp bytes 8
  else if bytes ≤ 1024 then sizeRoundUp bytes 16
  else if bytes ≤ 8 * 1024 then sizeRoundUp bytes 128
  else if bytes ≤ 64 * 1024 then sizeRoundUp bytes 1024
  else if bytes ≤ 256 * 1024 then sizeRoundUp bytes (8 * 1028)
  else UINT_NATIVE_MAX

/-- `SizeManagerIndex`: the classes of all steps, counted through. -/
def sizeManagerIndex (bytes : Nat) : Nat :=
  if bytes ≤ 128 then sizeIndex bytes 3
  else if bytes ≤ 1024 then Words.add 64 (sizeIndex (Words.sub 64 bytes 128) 4) 16
  else if bytes ≤ 8 * 1024 then Words.add 64 (sizeIndex (Words.sub 64 bytes 1024) 7) 72
  else if bytes ≤ 64 * 1024 then Words.add 64 (sizeIndex (Words.sub 64 bytes (8 * 1024)) 10) 128
  else if bytes ≤ 256 * 1024 then
    Words.add 64 (sizeIndex (Words.sub 64 bytes (64 * 1024)) 13) 184
  else UINT_NATIVE_MAX

/-! ## Consistency -/

/-- What the classes promise about two sizes: room for the request, a list for its class, an order
    that follows the sizes, and one rounded size for every class. -/
structure SizesConsistent (b₁ b₂ : Nat) : Prop where
  le_roundUp : b₁ ≤ sizeManagerRoundUp b₁
  index_lt : sizeManagerIndex b₁ < NFREELIST
  mono : b₁ ≤ b₂ → sizeManagerIndex b₁ ≤ sizeManagerIndex b₂ ∧
    sizeManagerRoundUp b₁ ≤ sizeManagerRoundUp b₂
  same_class : sizeManagerIndex b₁ = sizeManagerIndex b₂ ↔
    sizeManagerRoundUp b₁ = sizeManagerRoundUp b₂

/-- The stretch of 32 bytes a size ends in; the last segment rounds within it. -/
def granule (bytes : Nat) : Nat := (bytes + 31) / 32

/-- The stretch of 8192 bytes a size ends in; in the last segment, its class. -/
def stretch (bytes : Nat) : Nat := (bytes + 8191) / 8192

/-- `b₁` lies so that the padding sets bit 13, which the mask then does not clear, and `b₂`, not
    more than 8192 bytes ahead, does not. -/
def Crossed (b₁ b₂ : Nat) : Prop :=
  256 ≤ granule b₁ % 512 ∧ granule b₂ % 512 < 256 ∧ granule b₁ < granule b₂ ∧
    granule b₂ ≤ granule b₁ + 256

/-- The pairs the tables agree on: not both in the last segment, or in the same granule, or in
    different classes without the carry of `Crossed`. -/
def SoundPair (b₁ b₂ : Nat) : Prop :=
  b₁ ≤ 64 * 1024 ∨ b₂ ≤ 64 * 1024 ∨ granule b₁ = granule b₂ ∨
    (stretch b₁ ≠ stretch b₂ ∧ ¬ Crossed b₁ b₂ ∧ ¬ Crossed b₂ b₁)

/-! ## Rounding -/

/-- The mask of a power of two clears the low bits. -/
theorem and_mask_two_pow {x k : Nat} (hx : x < 2 ^ 64) (hk : k < 64) :
    x &&& (UINT_NATIVE_MAX ^^^ (2 ^ k - 1)) = x / 2 ^ k * 2 ^ k := by
  have hmax : UINT_NATIVE_MAX = 2 ^ 64 - 1 := rfl
  refine Nat.eq_of_testBit_eq ?_
  intro i
  rw [Nat.testBit_and, Nat.testBit_xor, hmax, Nat.testBit_two_pow_sub_one,
    Nat.testBit_two_pow_sub_one, Nat.testBit_mul_two_pow, Nat.testBit_div_two_pow]
  by_cases hki : k ≤ i
  · rw [Nat.sub_add_cancel hki]
    by_cases hi : i < 64
    · simp [hki, hi, Nat.not_lt.mpr hki]
    · have hbit : x.testBit i = false :=
        Nat.testBit_lt_two_pow (hx.trans_le (Nat.pow_le_pow_right (by decide) (by omega)))
      simp [hbit]
  · have hi : i < 64 := by omega
    simp [hki, hi, Nat.lt_of_not_le hki]

/-- The ones of `8 * 1028 - 1`. -/
theorem testBit_large (i : Nat) :
    (8 * 1028 - 1).testBit i = (decide (i < 5) || decide (i = 13)) := by
  have hlow : 2 ^ 5 - 1 < 2 ^ 13 := by decide
  have hsum : 8 * 1028 - 1 = 2 ^ 13 * 1 + (2 ^ 5 - 1) := by decide
  rw [hsum, Nat.testBit_two_pow_mul_add _ hlow, Nat.testBit_two_pow_sub_one]
  by_cases hi : i < 13
  · simp [hi, Nat.ne_of_lt hi]
  · have hfive : ¬ i < 5 := by omega
    have hthirteen : i - 13 = 0 ↔ i = 13 := by omega
    rw [if_neg hi, Bool.eq_iff_iff, Nat.testBit_one_eq_true_iff_self_eq_zero, hthirteen]
    simp [hfive]

/-- The mask of `8 * 1028` clears bit 13 and the low five bits. -/
theorem and_mask_large {x : Nat} (hx : x < 2 ^ 64) :
    x &&& (UINT_NATIVE_MAX ^^^ (8 * 1028 - 1)) = x / 16384 * 16384 + x % 8192 / 32 * 32 := by
  have hmax : UINT_NATIVE_MAX = 2 ^ 64 - 1 := rfl
  have hlow : x % 2 ^ 13 / 2 ^ 5 * 2 ^ 5 < 2 ^ 14 := by omega
  have hsum : x / 16384 * 16384 + x % 8192 / 32 * 32 =
      2 ^ 14 * (x / 2 ^ 14) + x % 2 ^ 13 / 2 ^ 5 * 2 ^ 5 := by omega
  refine Nat.eq_of_testBit_eq ?_
  intro i
  rw [hsum, Nat.testBit_two_pow_mul_add _ hlow, Nat.testBit_and, Nat.testBit_xor, hmax,
    Nat.testBit_two_pow_sub_one, testBit_large, Nat.testBit_mul_two_pow, Nat.testBit_div_two_pow,
    Nat.testBit_div_two_pow, Nat.testBit_mod_two_pow]
  by_cases hi : i < 14
  · have hi64 : i < 64 := by omega
    rw [if_pos hi]
    by_cases hfive : 5 ≤ i
    · have hthirteen : i < 13 ↔ i ≠ 13 := by omega
      simp [hi64, hfive, Nat.not_lt.mpr hfive, hthirteen, Bool.and_comm]
    · simp [hi64, hfive, Nat.lt_of_not_le hfive]
  · have hfive : ¬ i < 5 := by omega
    have hthirteen : i ≠ 13 := by omega
    rw [if_neg hi, Nat.sub_add_cancel (by omega)]
    by_cases hi64 : i < 64
    · simp [hfive, hthirteen, hi64]
    · have hbit : x.testBit i = false :=
        Nat.testBit_lt_two_pow (hx.trans_le (Nat.pow_le_pow_right (by decide) (by omega)))
      simp [hbit]

/-- The padding of a size inside the table. -/
theorem padded_eq {bytes alignNum : Nat} (hpos : 1 ≤ alignNum) (hlt : bytes + alignNum < 2 ^ 64) :
    Words.sub 64 (Words.add 64 bytes alignNum) 1 = bytes + alignNum - 1 := by
  rw [Words.add_eq hlt, Words.sub_eq (by omega) hlt]

/-- Rounding to a power of two. -/
theorem sizeRoundUp_eq {bytes k : Nat} (hk : k < 64) (hlt : bytes + 2 ^ k < 2 ^ 64) :
    sizeRoundUp bytes (2 ^ k) = (bytes + 2 ^ k - 1) / 2 ^ k * 2 ^ k := by
  have hpos : 1 ≤ 2 ^ k := Nat.one_le_two_pow
  rw [sizeRoundUp, padded_eq hpos hlt, Words.sub_eq hpos (by omega)]
  exact and_mask_two_pow (by omega) hk

/-- Numbering the multiples of a power of two. -/
theorem sizeIndex_eq {bytes k : Nat} (hbytes : 1 ≤ bytes) (hk : k < 64)
    (hlt : bytes + 2 ^ k < 2 ^ 64) : sizeIndex bytes k = (bytes + 2 ^ k - 1) / 2 ^ k - 1 := by
  have hpos : 1 ≤ 2 ^ k := Nat.one_le_two_pow
  have hshl : Words.shl 64 1 k = 2 ^ k := by
    rw [Words.shl, Nat.mod_eq_of_lt hk, Nat.one_shiftLeft]
    exact Nat.mod_eq_of_lt (by omega)
  have hone : 1 ≤ (bytes + 2 ^ k - 1) / 2 ^ k := Nat.div_pos (by omega) hpos
  have hle : (bytes + 2 ^ k - 1) / 2 ^ k ≤ bytes + 2 ^ k - 1 := Nat.div_le_self _ _
  rw [sizeIndex, hshl, padded_eq hpos hlt, Words.shr, Nat.mod_eq_of_lt hk,
    Nat.shiftRight_eq_div_pow, Words.sub_eq hone (by omega)]

/-! ## The table, segment by segment -/

section Table

variable {b : Nat}

theorem sizeManagerRoundUp_le_128 (h : b ≤ 128) : sizeManagerRoundUp b = (b + 7) / 8 * 8 := by
  rw [sizeManagerRoundUp, if_pos h]
  refine (sizeRoundUp_eq (k := 3) (by decide) (by omega)).trans ?_
  omega

theorem sizeManagerRoundUp_le_1024 (h : 128 < b) (h' : b ≤ 1024) :
    sizeManagerRoundUp b = (b + 15) / 16 * 16 := by
  rw [sizeManagerRoundUp, if_neg (by omega), if_pos h']
  refine (sizeRoundUp_eq (k := 4) (by decide) (by omega)).trans ?_
  omega

theorem sizeManagerRoundUp_le_8K (h : 1024 < b) (h' : b ≤ 8 * 1024) :
    sizeManagerRoundUp b = (b + 127) / 128 * 128 := by
  rw [sizeManagerRoundUp, if_neg (by omega), if_neg (by omega), if_pos h']
  refine (sizeRoundUp_eq (k := 7) (by decide) (by omega)).trans ?_
  omega

theorem sizeManagerRoundUp_le_64K (h : 8 * 1024 < b) (h' : b ≤ 64 * 1024) :
    sizeManagerRoundUp b = (b + 1023) / 1024 * 1024 := by
  rw [sizeManagerRoundUp, if_neg (by omega), if_neg (by omega), if_neg (by omega), if_pos h']
  refine (sizeRoundUp_eq (k := 10) (by decide) (by omega)).trans ?_
  omega

/-- The last segment rounds to 32 bytes, and drops bit 13 of the padded size. -/
theorem sizeManagerRoundUp_large (h : 64 * 1024 < b) (h' : b ≤ MAX_BYTES) :
    sizeManagerRoundUp b = (b + 8223) / 16384 * 16384 + (b + 8223) % 8192 / 32 * 32 := by
  simp only [MAX_BYTES] at h'
  rw [sizeManagerRoundUp, if_neg (by omega), if_neg (by omega), if_neg (by omega),
    if_neg (by omega), if_pos h', sizeRoundUp, padded_eq (by omega) (by omega),
    Words.sub_eq (by omega) (by omega)]
  exact and_mask_large (by omega)

theorem sizeManagerIndex_le_128 (h : 1 ≤ b) (h' : b ≤ 128) :
    sizeManagerIndex b = (b + 7) / 8 - 1 := by
  rw [sizeManagerIndex, if_pos h',
    sizeIndex_eq (k := 3) h (by decide) (by omega)]
  omega

/-- A segment after the first one: the index counts from its start `low`, where `offset` classes
    are below. -/
theorem segment_index_eq {low k offset : Nat} (h : low < b) (h' : b ≤ MAX_BYTES) (hk : k < 14)
    (hoffset : offset < NFREELIST) :
    Words.add 64 (sizeIndex (Words.sub 64 b low) k) offset =
      (b - low + 2 ^ k - 1) / 2 ^ k - 1 + offset := by
  simp only [MAX_BYTES, NFREELIST] at h' hoffset
  have hpow : 2 ^ k < 2 ^ 14 := Nat.pow_lt_pow_right (by decide) hk
  have hdiv : (b - low + 2 ^ k - 1) / 2 ^ k ≤ b - low + 2 ^ k - 1 := Nat.div_le_self _ _
  rw [Words.sub_eq (by omega) (by omega), sizeIndex_eq (by omega) (by omega) (by omega),
    Words.add_eq (by omega)]

theorem sizeManagerIndex_le_1024 (h : 128 < b) (h' : b ≤ 1024) :
    sizeManagerIndex b = (b - 128 + 15) / 16 - 1 + 16 := by
  rw [sizeManagerIndex, if_neg (by omega), if_pos h',
    segment_index_eq (k := 4) h (by simp only [MAX_BYTES]; omega) (by decide) (by decide)]
  omega

theorem sizeManagerIndex_le_8K (h : 1024 < b) (h' : b ≤ 8 * 1024) :
    sizeManagerIndex b = (b - 1024 + 127) / 128 - 1 + 72 := by
  rw [sizeManagerIndex, if_neg (by omega), if_neg (by omega), if_pos h',
    segment_index_eq (k := 7) h (by simp only [MAX_BYTES]; omega) (by decide) (by decide)]
  omega

theorem sizeManagerIndex_le_64K (h : 8 * 1024 < b) (h' : b ≤ 64 * 1024) :
    sizeManagerIndex b = (b - 8192 + 1023) / 1024 - 1 + 128 := by
  rw [sizeManagerIndex, if_neg (by omega), if_neg (by omega), if_neg (by omega), if_pos h',
    segment_index_eq (k := 10) h (by simp only [MAX_BYTES]; omega) (by decide) (by decide)]
  omega

theorem sizeManagerIndex_large (h : 64 * 1024 < b) (h' : b ≤ MAX_BYTES) :
    sizeManagerIndex b = (b - 65536 + 8191) / 8192 - 1 + 184 := by
  have hle : b ≤ 256 * 1024 := h'
  rw [sizeManagerIndex, if_neg (by omega), if_neg (by omega), if_neg (by omega),
    if_neg (by omega), if_pos hle,
    segment_index_eq (k := 13) h h' (by decide) (by decide)]
  omega

end Table

/-! ## Pairs of sizes -/

section Pairs

variable {b b₁ b₂ : Nat}

/-- What the table gives a size up to 64K: an even rounding, numbered in step with it. -/
theorem small_segments (h : 1 ≤ b) (h' : b ≤ 64 * 1024) :
    (b ≤ 128 ∧ sizeManagerRoundUp b = 8 * (sizeManagerIndex b + 1) ∧
        sizeManagerIndex b = (b + 7) / 8 - 1) ∨
      (128 < b ∧ b ≤ 1024 ∧ sizeManagerRoundUp b = 128 + 16 * (sizeManagerIndex b - 15) ∧
        sizeManagerIndex b = (b + 15) / 16 + 7) ∨
      (1024 < b ∧ b ≤ 8 * 1024 ∧
        sizeManagerRoundUp b = 1024 + 128 * (sizeManagerIndex b - 71) ∧
        sizeManagerIndex b = (b + 127) / 128 + 63) ∨
      (8 * 1024 < b ∧ sizeManagerRoundUp b = 8192 + 1024 * (sizeManagerIndex b - 127) ∧
        sizeManagerIndex b = (b + 1023) / 1024 + 119) := by
  by_cases h₁ : b ≤ 128
  · rw [sizeManagerRoundUp_le_128 h₁, sizeManagerIndex_le_128 h h₁]
    omega
  by_cases h₂ : b ≤ 1024
  · rw [sizeManagerRoundUp_le_1024 (by omega) h₂, sizeManagerIndex_le_1024 (by omega) h₂]
    omega
  by_cases h₃ : b ≤ 8 * 1024
  · rw [sizeManagerRoundUp_le_8K (by omega) h₃, sizeManagerIndex_le_8K (by omega) h₃]
    omega
  rw [sizeManagerRoundUp_le_64K (by omega) h', sizeManagerIndex_le_64K (by omega) h']
  omega

/-- A size in the last segment: the rounding and the class, in 32-byte granules. -/
theorem large_segment (h : 64 * 1024 < b) (h' : b ≤ MAX_BYTES) :
    sizeManagerIndex b = stretch b + 175 ∧
      (granule b % 512 < 256 ∧ sizeManagerRoundUp b = 32 * granule b ∨
        256 ≤ granule b % 512 ∧ sizeManagerRoundUp b = 32 * (granule b + 256)) := by
  have hround := sizeManagerRoundUp_large h h'
  have hindex := sizeManagerIndex_large h h'
  unfold granule stretch
  omega

theorem le_sizeManagerRoundUp (h : 1 ≤ b) (h' : b ≤ MAX_BYTES) : b ≤ sizeManagerRoundUp b := by
  by_cases hsmall : b ≤ 64 * 1024
  · have := small_segments h hsmall
    omega
  · have := large_segment (by omega) h'
    unfold granule at this
    omega

theorem sizeManagerIndex_lt (h : 1 ≤ b) (h' : b ≤ MAX_BYTES) :
    sizeManagerIndex b < NFREELIST := by
  simp only [MAX_BYTES, NFREELIST] at h' ⊢
  by_cases hsmall : b ≤ 64 * 1024
  · have := small_segments h hsmall
    omega
  · have := large_segment (by omega) h'
    unfold stretch at this
    omega

/-- The classes of two sizes up to 64K, and of such a size with a larger one. -/
theorem small_consistent (h₁ : 1 ≤ b₁) (h₂ : 1 ≤ b₂) (hsmall : b₁ ≤ 64 * 1024)
    (h₂' : b₂ ≤ MAX_BYTES) :
    (b₁ ≤ b₂ → sizeManagerIndex b₁ ≤ sizeManagerIndex b₂ ∧
      sizeManagerRoundUp b₁ ≤ sizeManagerRoundUp b₂) ∧
    (sizeManagerIndex b₁ = sizeManagerIndex b₂ ↔
      sizeManagerRoundUp b₁ = sizeManagerRoundUp b₂) := by
  have hseg₁ := small_segments h₁ hsmall
  by_cases hsmall₂ : b₂ ≤ 64 * 1024
  · have hseg₂ := small_segments h₂ hsmall₂
    omega
  · have hseg₂ := large_segment (by omega) h₂'
    unfold granule stretch at hseg₂
    omega

/-- Two sizes of the last segment, in their order. -/
theorem large_consistent (h₁ : 64 * 1024 < b₁) (h₁' : b₁ ≤ MAX_BYTES) (hle : b₁ ≤ b₂)
    (h₂' : b₂ ≤ MAX_BYTES) :
    ((sizeManagerIndex b₁ ≤ sizeManagerIndex b₂ ∧
        sizeManagerRoundUp b₁ ≤ sizeManagerRoundUp b₂) ∧
      (sizeManagerIndex b₁ = sizeManagerIndex b₂ ↔
        sizeManagerRoundUp b₁ = sizeManagerRoundUp b₂)) ↔
    granule b₁ = granule b₂ ∨ (stretch b₁ ≠ stretch b₂ ∧ ¬ Crossed b₁ b₂) := by
  obtain ⟨hindex₁, hround₁⟩ := large_segment h₁ h₁'
  obtain ⟨hindex₂, hround₂⟩ := large_segment (h₁.trans_le hle) h₂'
  have hgranule : granule b₁ ≤ granule b₂ := by
    unfold granule
    omega
  -- a class is a run of 256 granules
  have hstretch₁ : stretch b₁ = (granule b₁ + 255) / 256 := by
    unfold granule stretch
    omega
  have hstretch₂ : stretch b₂ = (granule b₂ + 255) / 256 := by
    unfold granule stretch
    omega
  unfold Crossed
  omega

theorem SoundPair.symm (h : SoundPair b₁ b₂) : SoundPair b₂ b₁ := by
  rcases h with h | h | h | ⟨hne, h₁₂, h₂₁⟩
  · exact .inr (.inl h)
  · exact .inl h
  · exact .inr (.inr (.inl h.symm))
  · exact .inr (.inr (.inr ⟨hne.symm, h₂₁, h₁₂⟩))

/-- The larger size of a pair has nothing to add to what the smaller one says. -/
theorem sizesConsistent_both (h₁ : 1 ≤ b₁) (hle : b₁ ≤ b₂) (h₂ : b₂ ≤ MAX_BYTES)
    (hmono : sizeManagerIndex b₁ ≤ sizeManagerIndex b₂ ∧
      sizeManagerRoundUp b₁ ≤ sizeManagerRoundUp b₂)
    (hclass : sizeManagerIndex b₁ = sizeManagerIndex b₂ ↔
      sizeManagerRoundUp b₁ = sizeManagerRoundUp b₂) :
    SizesConsistent b₁ b₂ ∧ SizesConsistent b₂ b₁ := by
  have h₁' : b₁ ≤ MAX_BYTES := hle.trans h₂
  have h₂' : 1 ≤ b₂ := h₁.trans hle
  refine ⟨⟨le_sizeManagerRoundUp h₁ h₁', sizeManagerIndex_lt h₁ h₁', fun _ => hmono, hclass⟩,
    ⟨le_sizeManagerRoundUp h₂' h₂, sizeManagerIndex_lt h₂' h₂, ?_, ?_⟩⟩
  · intro hge
    obtain rfl : b₁ = b₂ := Nat.le_antisymm hle hge
    exact ⟨Nat.le_refl _, Nat.le_refl _⟩
  · rw [eq_comm, hclass, eq_comm]

/-- A pair in its order. -/
theorem consistent_iff_of_le (h₁ : 1 ≤ b₁) (hle : b₁ ≤ b₂) (h₂ : b₂ ≤ MAX_BYTES) :
    SizesConsistent b₁ b₂ ∧ SizesConsistent b₂ b₁ ↔ SoundPair b₁ b₂ := by
  have h₁' : b₁ ≤ MAX_BYTES := hle.trans h₂
  have hcrossed : ¬ Crossed b₂ b₁ := by
    rintro ⟨-, -, hlt, -⟩
    unfold granule at hlt
    omega
  by_cases hsmall : b₁ ≤ 64 * 1024
  · obtain ⟨hmono, hclass⟩ := small_consistent h₁ (h₁.trans hle) hsmall h₂
    constructor
    · intro _
      exact .inl hsmall
    · intro _
      exact sizesConsistent_both h₁ hle h₂ (hmono hle) hclass
  · have hlarge := large_consistent (by omega) h₁' hle h₂
    constructor
    · rintro ⟨h, -⟩
      rcases hlarge.mp ⟨h.mono hle, h.same_class⟩ with hgranule | ⟨hne, hcross⟩
      · exact .inr (.inr (.inl hgranule))
      · exact .inr (.inr (.inr ⟨hne, hcross, hcrossed⟩))
    · intro h
      have hsound : granule b₁ = granule b₂ ∨ (stretch b₁ ≠ stretch b₂ ∧ ¬ Crossed b₁ b₂) := by
        rcases h with h | h | h | ⟨hne, hcross, -⟩
        · exact absurd h hsmall
        · exact absurd (hle.trans h) hsmall
        · exact .inl h
        · exact .inr ⟨hne, hcross⟩
      obtain ⟨hmono, hclass⟩ := hlarge.mpr hsound
      exact sizesConsistent_both h₁ hle h₂ hmono hclass

/-- **The size classes.**  Two sizes are consistent, in either order, if and only if the pair is
    sound.  In four of the five segments the mask of the rounding and the shift of the index belong
    to one power of two, so that only pairs with both sizes in the last segment can fail; there the
    granule of the rounding is no power of two, and `SoundPair` says what is left. -/
theorem sizesConsistent_iff (h₁ : 1 ≤ b₁) (h₁' : b₁ ≤ MAX_BYTES) (h₂ : 1 ≤ b₂)
    (h₂' : b₂ ≤ MAX_BYTES) :
    SizesConsistent b₁ b₂ ∧ SizesConsistent b₂ b₁ ↔ SoundPair b₁ b₂ := by
  rcases Nat.le_total b₁ b₂ with hle | hle
  · exact consistent_iff_of_le h₁ hle h₂'
  · rw [and_comm, consistent_iff_of_le h₂ hle h₁']
    exact ⟨SoundPair.symm, SoundPair.symm⟩

/-- Two sizes of one granule above 64K are consistent. -/
theorem sizesConsistent_iff_70000 : SizesConsistent 70000 70001 ∧ SizesConsistent 70001 70000 :=
  (sizesConsistent_iff (by decide) (by decide) (by decide) (by decide)).mpr
    (.inr (.inr (.inl (by decide))))

/-- Sizes 81888 and 81889 are of one class; a block freed under the second one has 81920 bytes and
    is handed out under the first one, which rounds up to 90080. -/
theorem sizes_inconsistent : ¬ ∀ b₁ b₂, 1 ≤ b₁ → b₁ ≤ MAX_BYTES → 1 ≤ b₂ → b₂ ≤ MAX_BYTES →
    SizesConsistent b₁ b₂ := by
  intro hclaim
  have h := hclaim 81888 81889 (by decide) (by decide) (by decide) (by decide)
  have hround := (h.mono (by decide)).2
  exact absurd hround (by decide)

end Pairs

end MemCommon

end CangjieRuntime.Common
