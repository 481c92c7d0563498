/-
  What the masks and the part size of the region bitmap are.

  An object that starts at an aligned offset and has an aligned size covers a stretch of bits,
  `Call.bits`.  The masks that `RegionBitmapGetBitMaskInfo` computes cut this stretch into words:
  a head word, full words, and a last word when the stretch does not end on a word boundary.
  `Call.mask` names the mask of each word, and `mask_testBit` says that it is exact.
-/
import CangjieRuntime.Gc.RegionBitmap
import CangjieRuntime.Lib.Bits

set_option linter.unusedVariables false

namespace CangjieRuntime.Gc

open Bits

namespace RegionBitmap

/-! ## Counting ones -/

/-- The loop takes away the lowest bit in each round, and counts the rounds. -/
theorem popCountLoop_eq (fuel : Nat) :
    ∀ value count, value < 2 ^ 64 → Bits.count 64 value ≤ fuel →
      popCountLoop fuel value count = count + Bits.count 64 value := by
  induction fuel with
  | zero =>
    intro value count _ hfuel
    simp only [popCountLoop]
    omega
  | succ fuel ih =>
    intro value count hlt hfuel
    unfold popCountLoop
    by_cases hzero : value = 0
    · simp [hzero]
    · have hclear := count_eq_clear_lowest hzero hlt
      have hle : value &&& (value - 1) ≤ value := Nat.and_le_left
      rw [if_pos hzero, ih _ _ (by omega) (by omega)]
      omega

/-- **`PopCount` counts the ones of a word.**  A round of the loop clears the lowest one and counts
    it (`count_eq_clear_lowest`). -/
theorem popCount_eq {value : Nat} (h : value < 2 ^ 64) : popCount value = count 64 value := by
  unfold popCount
  rw [popCountLoop_eq 64 value 0 h (count_le 64 value), Nat.zero_add]

/-- A word has at most 64 ones. -/
theorem popCount_le {value : Nat} (h : value < 2 ^ 64) : popCount value ≤ 64 := by
  rw [popCount_eq h]
  exact count_le 64 value

/-! ## The part size -/

/-- The number of words of a region's bitmap. -/
abbrev wordCount (regionSize : Nat) : Nat := regionSize / (MARKED_BYTES_PER_BIT * BITS_PER_WORD)

/-- Up to sixteen words each is a part of its own, above that sixteen parts are rounded up. -/
theorem partDivisor_eq {regionSize : Nat} (hpos : 0 < wordCount regionSize)
    (hlt : regionSize < 2 ^ 64) :
    partDivisor regionSize =
      if wordCount regionSize < 16 then 1 else (wordCount regionSize + 15) / 16 := by
  have hbound : wordCount regionSize ≤ 2 ^ 55 := by
    unfold wordCount
    simp only [MARKED_BYTES_PER_BIT, BITS_PER_WORD]
    omega
  unfold partDivisor
  simp only
  rw [show regionSize / (MARKED_BYTES_PER_BIT * BITS_PER_WORD) = wordCount regionSize from rfl]
  generalize wordCount regionSize = w at *
  by_cases hsmall : w < 16
  · rw [if_pos hsmall, if_pos hsmall, Nat.mod_self, if_neg (by simp), Nat.div_self hpos]
  · rw [if_neg hsmall, if_neg hsmall]
    by_cases hmod : w % 16 = 0
    · rw [if_neg (by simpa using hmod)]
      omega
    · rw [if_pos hmod, Words.sub_eq (by omega) (by omega), Words.add_eq (by omega)]
      omega

/-- A part has at least one word. -/
theorem partDivisor_pos {regionSize : Nat} (hpos : 0 < wordCount regionSize)
    (hlt : regionSize < 2 ^ 64) : 0 < partDivisor regionSize := by
  rw [partDivisor_eq hpos hlt]
  split_ifs <;> omega

/-- No word is in part sixteen. -/
theorem part_lt {regionSize : Nat} (hlt : regionSize < 2 ^ 64) {idx : Nat}
    (hidx : idx < wordCount regionSize) : idx / partDivisor regionSize < PART_COUNT := by
  have hpos : 0 < wordCount regionSize := Nat.lt_of_le_of_lt (Nat.zero_le _) hidx
  rw [Nat.div_lt_iff_lt_mul (partDivisor_pos hpos hlt), partDivisor_eq hpos hlt]
  simp only [PART_COUNT]
  split_ifs <;> omega

/-! ## Masks -/

/-- A shifted one is a power of two. -/
theorem shl_one {r : Nat} (hr : r < 64) : Words.shl 64 1 r = 2 ^ r := by
  unfold Words.shl
  rw [Nat.mod_eq_of_lt hr, Nat.one_shiftLeft,
    Nat.mod_eq_of_lt (Nat.pow_lt_pow_right (by decide) hr)]

/-- `(1 << r) - 1`. -/
theorem lowMask_eq {r : Nat} (hr : r < 64) : Words.sub 64 (Words.shl 64 1 r) 1 = 2 ^ r - 1 := by
  rw [shl_one hr, Words.sub_eq Nat.one_le_two_pow (Nat.pow_lt_pow_right (by decide) hr)]

/-- A mask of low bits is a word. -/
theorem lowMask_lt (r : Nat) (hr : r < 64) : 2 ^ r - 1 < 2 ^ 64 := by
  have : 2 ^ r < 2 ^ 64 := Nat.pow_lt_pow_right (by decide) hr
  omega

end RegionBitmap

namespace MarkBits

open RegionBitmap

/-- The object of a call is aligned, not empty, and inside the region. -/
structure Call.Ok (regionSize : Nat) (c : Call) : Prop where
  start : c.start % MARKED_BYTES_PER_BIT = 0
  size : c.byteCnt % MARKED_BYTES_PER_BIT = 0
  pos : 0 < c.byteCnt
  inside : c.start + c.byteCnt ≤ regionSize

/-- The bits of an object. -/
def Call.bits (c : Call) : Finset Nat :=
  Finset.Ico (c.start / MARKED_BYTES_PER_BIT) ((c.start + c.byteCnt) / MARKED_BYTES_PER_BIT)

/-- The head word. -/
abbrev Call.head (c : Call) : Nat := c.info.headWordIdx

/-- The last word. -/
def Call.last (c : Call) : Nat := c.info.headWordIdx + c.info.tailWordCnt

/-- The mask of each word from the head to the last. -/
def Call.mask (c : Call) (idx : Nat) : Nat :=
  if idx = c.head then c.info.headMaskBits
  else if idx = c.last ∧ c.info.lastMaskBits ≠ 0 then c.info.lastMaskBits
  else UINT64_MAX

/-- The two shapes of an object: it fills up its head word, or it ends inside of it. -/
theorem Call.info_cases {regionSize : Nat} {c : Call} (h : c.Ok regionSize)
    (hlt : regionSize < 2 ^ 64) :
    (∃ r tail, c.start / 8 = 64 * c.head + r ∧ r < 64 ∧ c.byteCnt / 8 = 64 - r + tail ∧
      c.info = ⟨c.head, UINT64_MAX ^^^ (2 ^ r - 1), (tail + 63) / 64, 2 ^ (tail % 64) - 1⟩) ∨
    ∃ r n, c.start / 8 = 64 * c.head + r ∧ 0 < n ∧ r + n < 64 ∧ c.byteCnt / 8 = n ∧
      c.info = ⟨c.head, ((2 ^ (r + n) - 1) >>> r) <<< r % 2 ^ 64, 0, 0⟩ := by
  obtain ⟨hstart, hsize, hpos, hinside⟩ := h
  have hr : c.start / 8 % 64 < 64 := Nat.mod_lt _ (by decide)
  have hhead : c.head = c.start / 8 / 64 := by
    unfold Call.head Call.info getBitMaskInfo
    simp only
    split_ifs <;> rfl
  have hsplit : c.start / 8 = 64 * c.head + c.start / 8 % 64 := by omega
  have hheadBits : Words.sub 64 64 (c.start / 8 % 64) = 64 - c.start / 8 % 64 :=
    Words.sub_eq (by omega) (by decide)
  by_cases hfull : 64 - c.start / 8 % 64 ≤ c.byteCnt / 8
  · left
    have htail : Words.sub 64 (c.byteCnt / 8) (64 - c.start / 8 % 64) =
        c.byteCnt / 8 - (64 - c.start / 8 % 64) := Words.sub_eq hfull (by omega)
    refine ⟨c.start / 8 % 64, c.byteCnt / 8 - (64 - c.start / 8 % 64), hsplit, hr, by omega, ?_⟩
    rw [hhead]
    unfold Call.info getBitMaskInfo
    simp only [MARKED_BYTES_PER_BIT, BITS_PER_WORD]
    rw [hheadBits, if_pos hfull, htail, lowMask_eq hr, lowMask_eq (Nat.mod_lt _ (by decide)),
      Words.add_eq (by omega), Words.sub_eq (by omega) (by omega)]
    rfl
  · right
    refine ⟨c.start / 8 % 64, c.byteCnt / 8, hsplit, by simp only [MARKED_BYTES_PER_BIT] at *; omega,
      by omega, rfl, ?_⟩
    rw [hhead]
    unfold Call.info getBitMaskInfo
    simp only [MARKED_BYTES_PER_BIT, BITS_PER_WORD]
    rw [hheadBits, if_neg hfull, Words.add_eq (by omega), lowMask_eq (by omega)]
    unfold Words.shl Words.shr
    rw [Nat.mod_eq_of_lt hr]

/-- **The masks are exact.**  Within the words of an object, the mask of a word has a one where
    the object has a bit. -/
theorem Call.mask_testBit {regionSize : Nat} {c : Call} (h : c.Ok regionSize)
    (hlt : regionSize < 2 ^ 64) {idx : Nat} (hlow : c.head ≤ idx) (hhigh : idx ≤ c.last) {i : Nat}
    (hi : i < 64) : (c.mask idx).testBit i = true ↔ 64 * idx + i ∈ c.bits := by
  obtain ⟨hstart, hsize, hpos, hinside⟩ := id h
  have hend : (c.start + c.byteCnt) / 8 = c.start / 8 + c.byteCnt / 8 := by
    simp only [MARKED_BYTES_PER_BIT] at *
    omega
  unfold Call.bits
  rw [Finset.mem_Ico]
  simp only [MARKED_BYTES_PER_BIT]
  rw [hend]
  have hmax : UINT64_MAX.testBit i = true := by
    rw [show UINT64_MAX = 2 ^ 64 - 1 from rfl, Nat.testBit_two_pow_sub_one]
    simpa using hi
  unfold Call.last at hhigh
  unfold Call.mask Call.last
  -- the bits go beyond the head word, or end in it
  rcases Call.info_cases h hlt with ⟨r, tail, hs, hr, hn, hinfo⟩ | ⟨r, n, hs, hn, hrn, hsz, hinfo⟩
  · rw [hinfo] at hhigh ⊢
    simp only at hhigh ⊢
    rw [hs, hn]
    by_cases hhead : idx = c.head
    · -- the head word, from bit `r` on
      subst hhead
      rw [if_pos rfl, Nat.testBit_xor, hmax, Nat.testBit_two_pow_sub_one]
      simp only [Bool.true_xor, Bool.not_eq_true', decide_eq_false_iff_not]
      omega
    · rw [if_neg hhead]
      have hzero : 2 ^ (tail % 64) - 1 ≠ 0 ↔ tail % 64 ≠ 0 := by
        constructor
        · intro hne hmod
          rw [hmod] at hne
          exact hne rfl
        · intro hne hmask
          have := Nat.one_lt_two_pow hne
          omega
      by_cases hlast : idx = c.head + (tail + 63) / 64 ∧ 2 ^ (tail % 64) - 1 ≠ 0
      · -- the last word, below bit `tail % 64`
        rw [if_pos hlast, Nat.testBit_two_pow_sub_one, decide_eq_true_eq]
        have := hzero.mp hlast.2
        omega
      · rw [if_neg hlast, hmax]
        rw [hzero] at hlast
        simp only [true_iff]
        omega
  · rw [hinfo] at hhigh ⊢
    simp only at hhigh ⊢
    have hhead : idx = c.head := by omega
    subst hhead
    rw [if_pos rfl, hs, hsz, Nat.testBit_mod_two_pow, Nat.testBit_shiftLeft, Nat.testBit_shiftRight,
      Nat.testBit_two_pow_sub_one]
    simp only [ge_iff_le, Bool.and_eq_true, decide_eq_true_eq]
    omega

/-! ## The words of an object -/

section Words

variable {regionSize : Nat} {c : Call}

/-- The bits of an object are those of its words of memory. -/
theorem Call.mem_bits (b : Nat) : b ∈ c.bits ↔ c.start / 8 ≤ b ∧ b < (c.start + c.byteCnt) / 8 :=
  Finset.mem_Ico

/-- An object's bits lie in the words from its head to its last. -/
theorem Call.word_mem (h : c.Ok regionSize) (hlt : regionSize < 2 ^ 64) {b : Nat}
    (hb : b ∈ c.bits) : c.head ≤ b / 64 ∧ b / 64 ≤ c.last := by
  rw [Call.mem_bits] at hb
  obtain ⟨hstart, hsize, hpos, hinside⟩ := id h
  simp only [MARKED_BYTES_PER_BIT] at hstart hsize
  unfold Call.last
  rcases Call.info_cases h hlt with ⟨r, tail, hs, hr, hn, hinfo⟩ | ⟨r, n, hs, hn, hrn, hsz, hinfo⟩
  · rw [hinfo]
    simp only
    omega
  · rw [hinfo]
    simp only
    omega

/-- The last word is a word of the bitmap, and so are all before it. -/
theorem Call.last_lt (h : c.Ok regionSize) (hlt : regionSize < 2 ^ 64)
    (hpage : regionSize % 4096 = 0) : c.last < wordCount regionSize := by
  obtain ⟨hstart, hsize, hpos, hinside⟩ := id h
  simp only [MARKED_BYTES_PER_BIT] at hstart hsize
  unfold Call.last
  simp only [wordCount, MARKED_BYTES_PER_BIT, BITS_PER_WORD]
  rcases Call.info_cases h hlt with ⟨r, tail, hs, hr, hn, hinfo⟩ | ⟨r, n, hs, hn, hrn, hsz, hinfo⟩
  · rw [hinfo]
    simp only
    omega
  · rw [hinfo]
    simp only
    omega

/-- The first bit of an object is in its head word. -/
theorem Call.first_mem (h : c.Ok regionSize) (hlt : regionSize < 2 ^ 64) :
    c.start / 8 ∈ c.bits ∧ c.start / 8 / 64 = c.head := by
  obtain ⟨hstart, hsize, hpos, hinside⟩ := id h
  simp only [MARKED_BYTES_PER_BIT] at hstart hsize
  rw [Call.mem_bits]
  refine ⟨by omega, ?_⟩
  rcases Call.info_cases h hlt with ⟨r, tail, hs, hr, hn, hinfo⟩ | ⟨r, n, hs, hn, hrn, hsz, hinfo⟩ <;>
    omega

/-- There are as many as it has words of 8 bytes. -/
theorem Call.card_bits (h : c.Ok regionSize) : c.bits.card * 8 = c.byteCnt := by
  obtain ⟨hstart, hsize, hpos, hinside⟩ := h
  simp only [MARKED_BYTES_PER_BIT] at hstart hsize
  unfold Call.bits
  rw [Nat.card_Ico]
  simp only [MARKED_BYTES_PER_BIT]
  omega

/-- Its masks are words. -/
theorem Call.mask_lt (h : c.Ok regionSize) (hlt : regionSize < 2 ^ 64) (idx : Nat) :
    c.mask idx < 2 ^ 64 := by
  have hmasks : c.info.headMaskBits < 2 ^ 64 ∧ c.info.lastMaskBits < 2 ^ 64 := by
    rcases Call.info_cases h hlt with ⟨r, tail, hs, hr, hn, hinfo⟩ | ⟨r, n, hs, hn, hrn, hsz, hinfo⟩
    · rw [hinfo]
      exact ⟨Nat.xor_lt_two_pow (by decide) (lowMask_lt r hr),
        lowMask_lt _ (Nat.mod_lt _ (by decide))⟩
    · rw [hinfo]
      exact ⟨Nat.mod_lt _ (by decide), show 0 < 2 ^ 64 by decide⟩
  unfold Call.mask
  split_ifs
  · exact hmasks.1
  · exact hmasks.2
  · decide

/-- The number of ones of a word's mask is the number of the object's bits in that word. -/
theorem Call.popCount_mask (h : c.Ok regionSize) (hlt : regionSize < 2 ^ 64) {idx : Nat}
    (hlow : c.head ≤ idx) (hhigh : idx ≤ c.last) :
    popCount (c.mask idx) = (c.bits.filter fun b => b / 64 = idx).card := by
  rw [popCount_eq (Call.mask_lt h hlt idx)]
  exact count_eq_card_slice (by decide) fun i hi => Call.mask_testBit h hlt hlow hhigh hi

/-- `headWordIdx + tailWordCnt` does not wrap. -/
theorem Call.lastWordIdx_eq (h : c.Ok regionSize) (hlt : regionSize < 2 ^ 64)
    (hpage : regionSize % 4096 = 0) :
    Words.add 64 c.info.headWordIdx c.info.tailWordCnt = c.last := by
  have hlast := Call.last_lt h hlt hpage
  simp only [wordCount, MARKED_BYTES_PER_BIT, BITS_PER_WORD] at hlast
  unfold Call.last at hlast ⊢
  exact Words.add_eq (by omega)

end Words

end MarkBits

end CangjieRuntime.Gc
