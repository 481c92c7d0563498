/-
  The forwarding offset of an object: the live bytes in front of it (`RegionBitmapGetPreLiveBytes`).

  The number of ones below a bit comes from three places, and each loop has one lemma:

    * whole parts are read off their counters (`partsLoop_eq`);
    * the whole words between the part's start and the bit's word are counted downwards
      (`wordsLoop_eq`);
    * the bit's word is counted under a mask.

  The loop over words ends when the unsigned index falls below the part's start.  The first part
  starts at word 0, and no unsigned index is below 0: in the words of the first part after the very
  first, the loop runs past word 0 (`wordsLoop_ne_ok`).  So the count is right exactly where the
  loop is not entered with start 0 (`PartReached`).
-/
import CangjieRuntime.Gc.MarkExact

set_option linter.unusedVariables false

namespace CangjieRuntime.Gc

open Bits Runs

namespace RegionBitmap

/-! ## The three loops -/

variable {b : RegionBitmap} {regionSize offset step start : Nat}

/-- The loop over parts adds the number of whole parts to the byte it starts with. -/
theorem partIndexLoop_eq (hstep : 0 < step) (fuel : Nat) :
    ∀ remaining partIndex, remaining < 2 ^ 64 → partIndex < 256 → remaining / step < fuel →
      partIndexLoop step fuel remaining partIndex = .ok ((partIndex + remaining / step) % 256) := by
  induction fuel with
  | zero =>
    intro remaining partIndex _ _ hfuel
    exact absurd hfuel (Nat.not_lt_zero _)
  | succ fuel ih =>
    intro remaining partIndex hlt hbyte hfuel
    unfold partIndexLoop
    by_cases hle : step ≤ remaining
    · have hdiv := Nat.div_eq_sub_div hstep hle
      rw [if_pos hle, Words.sub_eq hle hlt,
        ih _ _ (by omega) (Words.add_lt 8 partIndex 1) (by omega), Words.add]
      congr 1
      omega
    · rw [if_neg hle, Nat.div_eq_of_lt (by omega), Nat.add_zero, Nat.mod_eq_of_lt hbyte]

/-- **Whole parts**: the counters of the first `p` parts; the byte in front of part 0 ends it. -/
theorem partsLoop_eq (p : Nat) : ∀ fuel pre start, p ≤ PART_COUNT → p < fuel →
    pre + ∑ q ∈ Finset.range p, b.partLiveBytes q < 2 ^ 64 → start + p * step < 2 ^ 64 →
      b.partsLoop step fuel ((255 + p) % 256) pre start =
        .ok (pre + ∑ q ∈ Finset.range p, b.partLiveBytes q, start + p * step) := by
  induction p with
  | zero =>
    intro fuel pre start _ hfuel _ _
    obtain ⟨fuel, rfl⟩ : ∃ n, fuel = n + 1 := ⟨fuel - 1, by omega⟩
    unfold partsLoop
    rw [if_neg (by decide), Finset.sum_range_zero, Nat.zero_mul]
    rfl
  | succ p ih =>
    intro fuel pre start hp hfuel hsum hstart
    obtain ⟨fuel, rfl⟩ : ∃ n, fuel = n + 1 := ⟨fuel - 1, by omega⟩
    simp only [PART_COUNT] at hp ih
    rw [Finset.sum_range_succ] at hsum
    rw [Nat.succ_mul] at hstart
    have hbyte : (255 + (p + 1)) % 256 = p := by omega
    have hprev : Words.sub 8 p 1 = (255 + p) % 256 := by
      unfold Words.sub
      omega
    have hnext := ih fuel (pre + b.partLiveBytes p) (start + step) (by omega) (by omega) (by omega)
      (by omega)
    unfold partsLoop loadPart
    rw [hbyte, if_pos (by simp only [UINT8_MAX]; omega), if_pos (by simp only [PART_COUNT]; omega)]
    simp only [bind, Except.bind]
    rw [hprev, Words.add_eq (by omega), Words.add_eq (by omega), hnext, Finset.sum_range_succ,
      Nat.succ_mul]
    congr 2
    · omega
    · omega

/-- **Whole words**, from `index` down to a start that is not 0.  It adds up the ones between the
    two words; by induction on the number of words. -/
theorem wordsLoop_eq (hwords : ∀ i, b.words i < 2 ^ 64) (hstart : 0 < start) (n : Nat) :
    ∀ index fuel bits, index + 1 = start + n → n < fuel → index < b.wordCnt → index < 2 ^ 64 →
      bits + (ones 64 b.words (64 * (index + 1))).card < 2 ^ 64 →
      ∃ r, b.wordsLoop start fuel index bits = .ok r ∧
        r + (ones 64 b.words (64 * start)).card =
          bits + (ones 64 b.words (64 * (index + 1))).card := by
  induction n with
  | zero =>
    intro index fuel bits hindex hfuel _ _ _
    obtain ⟨fuel, rfl⟩ : ∃ n, fuel = n + 1 := ⟨fuel - 1, by omega⟩
    refine ⟨bits, ?_, by rw [hindex, Nat.add_zero]⟩
    unfold wordsLoop
    rw [if_neg (by omega)]
  | succ n ih =>
    intro index fuel bits hindex hfuel hcnt hlt hsum
    obtain ⟨fuel, rfl⟩ : ∃ n, fuel = n + 1 := ⟨fuel - 1, by omega⟩
    obtain ⟨index, rfl⟩ : ∃ i, index = i + 1 := ⟨index - 1, by omega⟩
    have hword := card_ones_succ (show 0 < 64 by decide) b.words (index + 1)
    have hcount := popCount_eq (hwords (index + 1))
    obtain ⟨r, hr, hcard⟩ := ih index fuel (bits + count 64 (b.words (index + 1))) (by omega)
      (by omega) (by omega) (by omega) (by omega)
    refine ⟨r, ?_, by omega⟩
    unfold wordsLoop loadWord
    rw [if_pos (by omega), if_pos hcnt]
    simp only [bind, Except.bind]
    rw [Words.sub_eq (by omega) hlt, Nat.add_sub_cancel, hcount, Words.add_eq (by omega)]
    exact hr

/-- From the start 0 the loop never gets to its end: no index is below 0. -/
theorem wordsLoop_ne_ok (fuel : Nat) : ∀ index bits r, b.wordsLoop 0 fuel index bits ≠ .ok r := by
  induction fuel with
  | zero =>
    intro index bits r hres
    cases hres
  | succ fuel ih =>
    intro index bits r hres
    unfold wordsLoop at hres
    rw [if_pos (Nat.zero_le index)] at hres
    cases hword : b.loadWord index with
    | error fault =>
      rw [hword] at hres
      cases hres
    | ok word =>
      rw [hword] at hres
      exact ih _ _ _ hres

/-! ## The mask of an offset -/

/-- The region sizes that fit the part counters.  The counters are half-words, and a part of a
    larger region could have more marked bits than one of them holds. -/
structure RegionOk (regionSize : Nat) : Prop where
  page : regionSize % 4096 = 0
  nonempty : 0 < regionSize
  lt : regionSize < 2 ^ 64
  partFits : partDivisor regionSize * 64 < 2 ^ 16

/-- The word of an offset. -/
abbrev wordOf (offset : Nat) : Nat := offset / (BITS_PER_WORD * MARKED_BYTES_PER_BIT)

/-- What `RegionBitmapGetPreMaskInfo` computes. -/
def preMask (regionSize offset : Nat) : PreMaskInfo where
  partIndex := (255 + wordOf offset / partDivisor regionSize) % 256
  mask := 2 ^ (offset / MARKED_BYTES_PER_BIT % BITS_PER_WORD) - 1
  stepSize := partDivisor regionSize
  index := wordOf offset

/-- A region has at least one word of marks. -/
theorem RegionOk.wordCount_pos (h : RegionOk regionSize) : 0 < wordCount regionSize := by
  have := h.page
  have := h.nonempty
  simp only [wordCount, MARKED_BYTES_PER_BIT, BITS_PER_WORD]
  omega

/-- Its parts have at least one word each. -/
theorem RegionOk.step_pos (h : RegionOk regionSize) : 0 < partDivisor regionSize :=
  partDivisor_pos h.wordCount_pos h.lt

/-- An offset in the region has its mark in one of the words. -/
theorem RegionOk.wordOf_lt (h : RegionOk regionSize) (hoffset : offset < regionSize) :
    wordOf offset < wordCount regionSize := by
  have := h.page
  simp only [wordOf, wordCount, MARKED_BYTES_PER_BIT, BITS_PER_WORD]
  omega

/-- The sixteen parts of less than 1024 words hold the words. -/
theorem RegionOk.wordCount_lt (h : RegionOk regionSize) : wordCount regionSize < 2 ^ 14 := by
  have hpos := h.wordCount_pos
  have hpart := part_lt h.lt (Nat.sub_lt hpos Nat.one_pos)
  rw [Nat.div_lt_iff_lt_mul h.step_pos] at hpart
  have hfits := h.partFits
  simp only [PART_COUNT] at hpart
  omega

/-- `GetPreMaskInfo` returns the mask of the offset, with enough fuel for its loop over the
    parts. -/
theorem RegionOk.getPreMaskInfo_eq (h : RegionOk regionSize) (hoffset : offset < regionSize)
    {fuel : Nat} (hfuel : wordOf offset / partDivisor regionSize < fuel) :
    getPreMaskInfo fuel offset regionSize = .ok (preMask regionSize offset) := by
  have hlt := h.lt
  have hword := partIndexLoop_eq h.step_pos fuel (wordOf offset) UINT8_MAX
    (Nat.lt_of_le_of_lt (Nat.div_le_self _ _) (by omega)) (by decide) hfuel
  unfold getPreMaskInfo
  simp only [hword, bind, Except.bind]
  rw [lowMask_eq (Nat.mod_lt _ (by decide))]
  rfl

/-! ## Counted bitmaps -/

/-- The part counters agree with the words. -/
structure Counted (regionSize : Nat) (b : RegionBitmap) : Prop where
  wordCnt : b.wordCnt = wordCount regionSize
  wordLt : ∀ i, b.words i < 2 ^ 64
  parts : ∀ p, b.partLiveBytes p =
    ∑ i ∈ (Finset.range (wordCount regionSize)).filter (· / partDivisor regionSize = p),
      count 64 (b.words i)

/-- The marked bits below the bit of an offset. -/
def below (b : RegionBitmap) (offset : Nat) : Finset Nat :=
  ones 64 b.words (offset / MARKED_BYTES_PER_BIT)

/-- The word of the offset is the first word, or not in the first part. -/
def PartReached (regionSize offset : Nat) : Prop :=
  wordOf offset = 0 ∨ partDivisor regionSize ≤ wordOf offset

/-- The counters of the first `p` parts count the ones of their words. -/
theorem Counted.sum_parts (h : Counted regionSize b) (hregion : RegionOk regionSize) {p : Nat}
    (hp : p * partDivisor regionSize ≤ wordCount regionSize) :
    ∑ q ∈ Finset.range p, b.partLiveBytes q =
      (ones 64 b.words (64 * (p * partDivisor regionSize))).card := by
  have hstep := hregion.step_pos
  have hwords : ∀ i, i ∈ Finset.range (p * partDivisor regionSize) ↔
      i ∈ (Finset.range (wordCount regionSize)).filter (· / partDivisor regionSize < p) := by
    intro i
    rw [Finset.mem_filter, Finset.mem_range, Finset.mem_range, Nat.div_lt_iff_lt_mul hstep]
    omega
  have hsum := Finset.sum_fiberwise_of_maps_to
    (s := Finset.range (p * partDivisor regionSize)) (t := Finset.range p)
    (g := (· / partDivisor regionSize))
    (fun i hi => Finset.mem_range.mpr ((Nat.div_lt_iff_lt_mul hstep).mpr (Finset.mem_range.mp hi)))
    (fun i => count 64 (b.words i))
  have hall := sum_count_eq_card (show 0 < 64 by decide) b.words (p * partDivisor regionSize)
    (fun _ => True)
  simp only [Finset.filter_true] at hall
  rw [← hall, ← hsum]
  refine Finset.sum_congr rfl fun q hq => ?_
  rw [h.parts q]
  refine Finset.sum_congr ?_ fun _ _ => rfl
  ext i
  rw [Finset.mem_filter, Finset.mem_filter, hwords i, Finset.mem_filter, Finset.mem_range]
  constructor
  · rintro ⟨hi, rfl⟩
    exact ⟨⟨hi, Finset.mem_range.mp hq⟩, rfl⟩
  · rintro ⟨⟨hi, -⟩, heq⟩
    exact ⟨hi, heq⟩

/-! ## The count -/

/-- A run that, given enough fuel, ends with `v`. -/
def Returns (run : Nat → Except Fault Nat) (v : Nat) : Prop :=
  ∃ bound, ∀ fuel, bound ≤ fuel → run fuel = .ok v

/-- `RegionBitmapGetPreMaskInfo`, then `RegionBitmapGetPreLiveBytes`. -/
def preLiveBytesAt (b : RegionBitmap) (offset regionSize fuel : Nat) : Except Fault Nat := do
  let info ← getPreMaskInfo fuel offset regionSize
  b.getPreLiveBytes fuel info

/-- There are at most as many marks below an offset as words of memory. -/
theorem card_below_le (b : RegionBitmap) (offset : Nat) : (b.below offset).card ≤ offset / 8 := by
  have hle := Finset.card_filter_le (Finset.range (offset / 8))
    fun i => (b.words (i / 64)).testBit (i % 64) = true
  rw [Finset.card_range] at hle
  exact hle

/-- There are at most as many ones as bits. -/
theorem card_ones_le (w : Nat) (words : Nat → Nat) (n : Nat) : (ones w words n).card ≤ n := by
  have hle := Finset.card_filter_le (Finset.range n)
    fun i => (words (i / w)).testBit (i % w) = true
  rwa [Finset.card_range] at hle

/-- The bits below an offset: those of the words before, and the low bits of the offset's word. -/
theorem card_below (b : RegionBitmap) (offset : Nat) :
    (b.below offset).card = (ones 64 b.words (64 * wordOf offset)).card +
      count 64 (b.words (wordOf offset) &&&
        (2 ^ (offset / MARKED_BYTES_PER_BIT % BITS_PER_WORD) - 1)) := by
  have hsplit : offset / 8 = 64 * (offset / 512) + offset / 8 % 64 := by omega
  rw [← card_ones_add (by decide) (Nat.le_of_lt (Nat.mod_lt _ (by decide))), below]
  simp only [wordOf, MARKED_BYTES_PER_BIT, BITS_PER_WORD]
  rw [← hsplit]

section Count

variable {fuel : Nat} {info : PreMaskInfo} {pre first word : Nat}

/-- The count, after the loop over parts and the load of the offset's word. -/
theorem getPreLiveBytes_eq
    (hparts : b.partsLoop info.stepSize fuel info.partIndex 0 0 = .ok (pre, first))
    (hload : b.loadWord info.index = .ok word) :
    b.getPreLiveBytes fuel info =
      if info.index = first then
        .ok (Words.mul 64 (Words.add 64 pre (popCount (word &&& info.mask))) MARKED_BYTES_PER_BIT)
      else (do
        let liveBits ← b.wordsLoop first fuel (Words.sub 64 info.index 1)
          (popCount (word &&& info.mask))
        .ok (Words.mul 64 (Words.add 64 pre liveBits) MARKED_BYTES_PER_BIT)) := by
  unfold getPreLiveBytes
  rw [hparts]
  simp only [bind, Except.bind]
  rw [hload]

/-- A count of at most `2 ^ 20` bits in bytes. -/
theorem bytes_eq {n total : Nat} (h : pre + n = total) (hlt : total ≤ 2 ^ 20) :
    Words.mul 64 (Words.add 64 pre n) MARKED_BYTES_PER_BIT = 8 * total := by
  have hpow : 8 * 2 ^ 20 < 2 ^ 64 := by decide
  have hpow' : 2 ^ 20 < 2 ^ 64 := by decide
  rw [Words.add_eq (by omega), h, Words.mul_eq (by simp only [MARKED_BYTES_PER_BIT]; omega),
    Nat.mul_comm]

/-- **The count is right** where the loop over words does not start from word 0. -/
theorem Counted.getPreLiveBytes_eq (h : Counted regionSize b) (hregion : RegionOk regionSize)
    (hoffset : offset < regionSize) (hreached : PartReached regionSize offset)
    (hfuel : wordOf offset < fuel) (hparts : PART_COUNT < fuel) :
    b.getPreLiveBytes fuel (preMask regionSize offset) = .ok (8 * (b.below offset).card) := by
  have hword := hregion.wordOf_lt hoffset
  have hwords := hregion.wordCount_lt
  have hpart := part_lt hregion.lt hword
  have hstep := hregion.step_pos
  have hcard := card_below b offset
  have hle : (b.below offset).card ≤ 2 ^ 20 := by
    have := card_below_le b offset
    simp only [wordOf, MARKED_BYTES_PER_BIT, BITS_PER_WORD] at hword
    omega
  -- the word of the offset in its part
  have hdm := Nat.div_add_mod (wordOf offset) (partDivisor regionSize)
  have hmod := Nat.mod_lt (wordOf offset) hstep
  rw [Nat.mul_comm] at hdm
  let p := wordOf offset / partDivisor regionSize
  let first := p * partDivisor regionSize
  have hfirst : first ≤ wordOf offset := Nat.div_mul_le_self _ _
  have hsum : ∑ q ∈ Finset.range p, b.partLiveBytes q = (ones 64 b.words (64 * first)).card :=
    h.sum_parts hregion (Nat.le_of_lt (Nat.lt_of_le_of_lt hfirst hword))
  have hones := card_ones_le 64 b.words (64 * first)
  have hloop : b.partsLoop (preMask regionSize offset).stepSize fuel
      (preMask regionSize offset).partIndex 0 0 =
        .ok ((ones 64 b.words (64 * first)).card, first) := by
    have hloop := @partsLoop_eq b (partDivisor regionSize) p fuel 0 0
      (Nat.le_of_lt hpart) (Nat.lt_trans hpart hparts) (by rw [hsum]; omega)
      (by rw [Nat.zero_add]; exact lt_of_le_of_lt hfirst (by omega))
    rwa [hsum, Nat.zero_add, Nat.zero_add] at hloop
  have hload : b.loadWord (wordOf offset) = .ok (b.words (wordOf offset)) := by
    unfold loadWord
    rw [if_pos (by rw [h.wordCnt]; exact hword)]
  have hmasked := popCount_eq (Nat.lt_of_le_of_lt
    (Nat.and_le_left (m := 2 ^ (offset / MARKED_BYTES_PER_BIT % BITS_PER_WORD) - 1))
    (h.wordLt (wordOf offset)))
  rw [RegionBitmap.getPreLiveBytes_eq hloop hload]
  by_cases heq : wordOf offset = first
  · rw [if_pos (show (preMask regionSize offset).index = first from heq)]
    refine congrArg Except.ok (bytes_eq ?_ hle)
    rw [hcard, ← hmasked, heq]
    rfl
  · -- the offset is not in the first part, so the words end before a start that is not 0
    have hpos : 0 < first := by
      refine Nat.mul_pos (Nat.div_pos (hreached.resolve_left fun hzero => heq ?_) hstep) hstep
      omega
    obtain ⟨r, hr, hcount⟩ := wordsLoop_eq h.wordLt hpos (wordOf offset - first)
      (wordOf offset - 1) fuel (count 64 (b.words (wordOf offset) &&&
        (2 ^ (offset / MARKED_BYTES_PER_BIT % BITS_PER_WORD) - 1)))
      (by omega) (by omega) (by rw [h.wordCnt]; omega) (by omega) (by
        rw [Nat.sub_add_cancel (by omega)]; omega)
    rw [Nat.sub_add_cancel (by omega)] at hcount
    have hprev : Words.sub 64 (wordOf offset) 1 = wordOf offset - 1 :=
      Words.sub_eq (by omega) (by omega)
    rw [if_neg (show ¬ (preMask regionSize offset).index = first from heq)]
    simp only [preMask, hprev, hmasked, hr, bind, Except.bind]
    exact congrArg Except.ok (bytes_eq (by omega) hle)

/-- **No count** in the words of the first part after the first one.  There the loop has no words to
    stop at: it goes down to word 0, and its index wraps below it. -/
theorem getPreLiveBytes_ne_ok (hreached : ¬ PartReached regionSize offset) (v : Nat) :
    b.getPreLiveBytes fuel (preMask regionSize offset) ≠ .ok v := by
  obtain ⟨hzero, hlt⟩ := not_or.mp hreached
  have hpart : (preMask regionSize offset).partIndex = 255 := by
    simp only [preMask, Nat.div_eq_of_lt (Nat.lt_of_not_le hlt)]
  cases fuel with
  | zero => exact fun hres => by cases hres
  | succ fuel =>
    have hloop : b.partsLoop (preMask regionSize offset).stepSize (fuel + 1)
        (preMask regionSize offset).partIndex 0 0 = .ok (0, 0) := by
      rw [hpart]
      rfl
    cases hword : b.loadWord (wordOf offset) with
    | error fault =>
      unfold getPreLiveBytes
      rw [hloop]
      simp only [preMask, hword, bind, Except.bind]
      exact fun hres => by cases hres
    | ok word =>
      rw [RegionBitmap.getPreLiveBytes_eq hloop hword,
        if_neg (by exact hzero)]
      intro hres
      cases hloop' : b.wordsLoop 0 (fuel + 1) (Words.sub 64 (preMask regionSize offset).index 1)
        (popCount (word &&& (preMask regionSize offset).mask)) with
      | error fault =>
        rw [hloop'] at hres
        cases hres
      | ok r => exact wordsLoop_ne_ok _ _ _ _ hloop'

/-- The exact condition, for one bitmap. -/
theorem Counted.preLiveBytesAt_iff (h : Counted regionSize b) (hregion : RegionOk regionSize)
    (hoffset : offset < regionSize) :
    Returns (b.preLiveBytesAt offset regionSize) (8 * (b.below offset).card) ↔
      PartReached regionSize offset := by
  have hmask : ∀ fuel, wordOf offset + PART_COUNT < fuel →
      b.preLiveBytesAt offset regionSize fuel =
        b.getPreLiveBytes fuel (preMask regionSize offset) := by
    intro fuel hfuel
    unfold preLiveBytesAt
    rw [hregion.getPreMaskInfo_eq hoffset (Nat.lt_of_le_of_lt (Nat.div_le_self _ _) (by omega))]
    rfl
  constructor
  · rintro ⟨bound, hrun⟩
    by_contra hreached
    have hrun := hrun (bound + wordOf offset + PART_COUNT + 1) (by omega)
    rw [hmask _ (by omega)] at hrun
    exact getPreLiveBytes_ne_ok hreached _ hrun
  · intro hreached
    refine ⟨wordOf offset + PART_COUNT + 1, fun fuel hfuel => ?_⟩
    rw [hmask fuel (by omega)]
    exact h.getPreLiveBytes_eq hregion hoffset hreached (by omega) (by omega)

/-- A bitmap that may be null. -/
theorem preLiveBytesOf_eq {bitmap : Option RegionBitmap} (h : ∀ b ∈ bitmap, Counted regionSize b)
    (hregion : RegionOk regionSize) (hoffset : offset < regionSize)
    (hreached : bitmap = none ∨ PartReached regionSize offset)
    (hfuel : wordOf offset + PART_COUNT < fuel) :
    preLiveBytesOf fuel bitmap (preMask regionSize offset) =
      .ok (8 * bitmap.elim 0 fun b => (b.below offset).card) := by
  cases hbitmap : bitmap with
  | none => rfl
  | some b =>
    refine (h b hbitmap).getPreLiveBytes_eq hregion hoffset (hreached.resolve_left ?_) (by omega)
      (by omega)
    rw [hbitmap]
    exact Option.some_ne_none b

/-- Where the loop never reaches the part of the offset, a result means that there is no bitmap. -/
theorem preLiveBytesOf_eq_none {bitmap : Option RegionBitmap}
    (hreached : ¬ PartReached regionSize offset) {v : Nat}
    (hres : preLiveBytesOf fuel bitmap (preMask regionSize offset) = .ok v) : bitmap = none := by
  cases hbitmap : bitmap with
  | none => rfl
  | some b =>
    rw [hbitmap] at hres
    exact absurd hres (getPreLiveBytes_ne_ok hreached v)

end Count

end RegionBitmap

/-! ## The bitmaps of a live info -/

namespace LiveInfo

open RegionBitmap

variable {regionSize offset : Nat} {info : LiveInfo}

/-- The marked bits below an offset in the bitmaps that are there. -/
def below (info : LiveInfo) (offset : Nat) : Nat :=
  (info.markBitmap.elim 0 fun b => (b.below offset).card) +
    info.resurrectBitmap.elim 0 fun b => (b.below offset).card

/-- Every bitmap that is there is counted. -/
structure Counted (regionSize : Nat) (info : LiveInfo) : Prop where
  marked : ∀ b ∈ info.markBitmap, RegionBitmap.Counted regionSize b
  resurrected : ∀ b ∈ info.resurrectBitmap, RegionBitmap.Counted regionSize b

/-- The same bound where the bitmap may be missing. -/
theorem card_elim_le (bitmap : Option RegionBitmap) (offset : Nat) :
    (bitmap.elim 0 fun b => (b.below offset).card) ≤ offset / 8 := by
  cases bitmap with
  | none => exact Nat.zero_le _
  | some b => exact card_below_le b offset

/-- A higher offset has more marks below it. -/
theorem card_elim_mono (bitmap : Option RegionBitmap) {offset' : Nat} (hle : offset ≤ offset') :
    (bitmap.elim 0 fun b => (b.below offset).card) ≤
      bitmap.elim 0 fun b => (b.below offset').card := by
  cases bitmap with
  | none => exact Nat.le_refl 0
  | some b => exact Finset.card_le_card (ones_mono b.words (Nat.div_le_div_right hle))

/-- The exact condition, for the bitmaps of a live info: without one there is nothing to count. -/
theorem Counted.getPreLiveBytes_iff (h : info.Counted regionSize) (hregion : RegionOk regionSize)
    (hoffset : offset < regionSize) :
    Returns (fun fuel => info.getPreLiveBytes fuel offset regionSize) (8 * info.below offset) ↔
      (info.markBitmap = none ∧ info.resurrectBitmap = none) ∨ PartReached regionSize offset := by
  have hmask : ∀ fuel, wordOf offset + PART_COUNT < fuel →
      getPreMaskInfo fuel offset regionSize = .ok (preMask regionSize offset) := fun fuel hfuel =>
    hregion.getPreMaskInfo_eq hoffset (Nat.lt_of_le_of_lt (Nat.div_le_self _ _) (by omega))
  constructor
  · -- the run ends, so the part is reached or there is nothing to count
    rintro ⟨bound, hrun⟩
    by_cases hreached : PartReached regionSize offset
    · exact Or.inr hreached
    · have hfuel : wordOf offset + PART_COUNT < bound + wordOf offset + PART_COUNT + 1 := by omega
      have hrun := hrun (bound + wordOf offset + PART_COUNT + 1) (by omega)
      generalize bound + wordOf offset + PART_COUNT + 1 = fuel at hrun hfuel
      simp only [getPreLiveBytes, hmask _ hfuel, bind, Except.bind] at hrun
      cases hmark : preLiveBytesOf fuel info.markBitmap (preMask regionSize offset) with
      | error fault =>
        rw [hmark] at hrun
        cases hrun
      | ok marked =>
        simp only [hmark] at hrun
        cases hres : preLiveBytesOf fuel info.resurrectBitmap (preMask regionSize offset) with
        | error fault =>
          rw [hres] at hrun
          cases hrun
        | ok resurrected =>
          exact Or.inl ⟨preLiveBytesOf_eq_none hreached hmark,
            preLiveBytesOf_eq_none hreached hres⟩
  · -- with the part in reach both bitmaps are counted
    intro hcond
    refine ⟨wordOf offset + PART_COUNT + 1, fun fuel hfuel => ?_⟩
    have hmark := preLiveBytesOf_eq h.marked hregion hoffset (hcond.imp_left And.left)
      (show wordOf offset + PART_COUNT < fuel by omega)
    have hres := preLiveBytesOf_eq h.resurrected hregion hoffset (hcond.imp_left And.right)
      (show wordOf offset + PART_COUNT < fuel by omega)
    have hbytes : offset / 8 < 2 ^ 20 := by
      have hword := hregion.wordOf_lt hoffset
      have := hregion.wordCount_lt
      simp only [wordOf, MARKED_BYTES_PER_BIT, BITS_PER_WORD] at hword
      omega
    have hmarkLe := card_elim_le info.markBitmap offset
    have hresLe := card_elim_le info.resurrectBitmap offset
    simp only [getPreLiveBytes, hmask fuel (by omega), hmark, hres, bind, Except.bind]
    rw [Words.add_eq (by omega), below, Nat.mul_add]

end LiveInfo

/-! ## Marked bitmaps -/

namespace MarkBits

open RegionBitmap

variable {regionSize : Nat} {b : RegionBitmap} {objects : Set Call}

/-- What marking the objects leaves, when every call has returned. -/
def Marked (regionSize : Nat) (b : RegionBitmap) (objects : Set Call) : Prop :=
  ∃ (τ : Type) (_ : Fintype τ) (_ : DecidableEq τ) (m : Marking τ) (s : State τ),
    m.regionSize = regionSize ∧ (marking m).Reachable s ∧ (∀ t, ∃ r, s.pc t = .returned r) ∧
      s.bitmap = b ∧ objects = Set.range m.call

/-- The live counts of a marked bitmap are those of its bits. -/
theorem Marked.counted (h : Marked regionSize b objects) : Counted regionSize b := by
  obtain ⟨τ, _, _, m, s, rfl, hreach, hret, rfl, -⟩ := h
  have hinv := (inv_invariant m).reachable hreach
  exact ⟨hinv.wordCnt, hinv.wordLt, fun p => hinv.parts_eq hret p⟩

/-- The first bit of an object counts for every object behind it. -/
theorem Marked.below_lt (h : Marked regionSize b objects) {c d : Call} (hc : c ∈ objects)
    (hd : d ∈ objects) (hlt : c.start < d.start) :
    (b.below c.start).card < (b.below d.start).card := by
  obtain ⟨τ, _, _, m, s, rfl, hreach, hret, rfl, rfl⟩ := h
  obtain ⟨t, rfl⟩ := hc
  obtain ⟨u, rfl⟩ := hd
  have hinv := (inv_invariant m).reachable hreach
  have hfirst := (Call.first_mem (m.ok t) m.lt).1
  have hset := (hinv.set_iff hret _).mpr ⟨t, hfirst⟩
  have hstart := (m.ok t).start
  have hstart' := (m.ok u).start
  simp only [MARKED_BYTES_PER_BIT] at hstart hstart'
  refine Finset.card_lt_card (Finset.ssubset_iff_of_subset
    (ones_mono _ (Nat.div_le_div_right (Nat.le_of_lt hlt))) |>.mpr ?_)
  refine ⟨(m.call t).start / 8, mem_ones.mpr ⟨?_, hset⟩, fun hmem => ?_⟩
  · simp only [MARKED_BYTES_PER_BIT]
    omega
  · exact Nat.lt_irrefl _ (mem_ones.mp hmem).1

/-- Objects that are not the same start at different offsets. -/
theorem Marked.start_ne (h : Marked regionSize b objects) {c d : Call} (hc : c ∈ objects)
    (hd : d ∈ objects) (hne : c ≠ d) : c.start ≠ d.start := by
  obtain ⟨τ, _, _, m, s, rfl, -, -, -, rfl⟩ := h
  obtain ⟨t, rfl⟩ := hc
  obtain ⟨u, rfl⟩ := hd
  intro heq
  have hfirst := (Call.first_mem (m.ok t) m.lt).1
  have hfirst' := (Call.first_mem (m.ok u) m.lt).1
  rw [← heq] at hfirst'
  exact hne (m.call_eq hfirst hfirst')

/-- A marked object starts within the region. -/
theorem Marked.start_lt (h : Marked regionSize b objects) {c : Call} (hc : c ∈ objects) :
    c.start < regionSize := by
  obtain ⟨τ, _, _, m, s, rfl, -, -, -, rfl⟩ := h
  obtain ⟨t, rfl⟩ := hc
  have := (m.ok t).pos
  have := (m.ok t).inside
  omega

/-- The bitmaps of a live info, each null or left by a marking. -/
def LiveInfoMarked (regionSize : Nat) (info : LiveInfo) : Prop :=
  (∀ b ∈ info.markBitmap, ∃ objects, Marked regionSize b objects) ∧
    ∀ b ∈ info.resurrectBitmap, ∃ objects, Marked regionSize b objects

/-- So both bitmaps of a live info are counted. -/
theorem LiveInfoMarked.counted {info : LiveInfo} (h : LiveInfoMarked regionSize info) :
    info.Counted regionSize where
  marked b hb := by
    obtain ⟨objects, hmarked⟩ := h.1 b hb
    exact hmarked.counted
  resurrected b hb := by
    obtain ⟨objects, hmarked⟩ := h.2 b hb
    exact hmarked.counted

/-- **Forwarding offsets.**  `RegionBitmapGetPreLiveBytes` returns eight times the number of marked
    bits below the offset exactly when `PartReached`; a live info adds up its bitmaps; and where
    the counts are right they grow with the offset and tell the objects apart. -/
theorem preLiveBytes_iff (hregion : RegionOk regionSize) :
    (∀ b objects, Marked regionSize b objects → ∀ offset, offset % 8 = 0 → offset < regionSize →
      (Returns (b.preLiveBytesAt offset regionSize) (8 * (b.below offset).card) ↔
        PartReached regionSize offset)) ∧
    (∀ info, LiveInfoMarked regionSize info → ∀ offset, offset % 8 = 0 → offset < regionSize →
      (Returns (fun fuel => info.getPreLiveBytes fuel offset regionSize) (8 * info.below offset) ↔
        (info.markBitmap = none ∧ info.resurrectBitmap = none) ∨
          PartReached regionSize offset)) ∧
    (∀ info, LiveInfoMarked regionSize info → ∀ offset offset', offset % 8 = 0 →
      offset' % 8 = 0 → offset ≤ offset' → offset' < regionSize →
      PartReached regionSize offset → PartReached regionSize offset' →
      ∃ v v', Returns (fun fuel => info.getPreLiveBytes fuel offset regionSize) v ∧
        Returns (fun fuel => info.getPreLiveBytes fuel offset' regionSize) v' ∧ v ≤ v') ∧
    (∀ b objects, Marked regionSize b objects → ∀ c ∈ objects, ∀ d ∈ objects, c ≠ d →
      PartReached regionSize c.start → PartReached regionSize d.start →
      ∃ v v', Returns (b.preLiveBytesAt c.start regionSize) v ∧
        Returns (b.preLiveBytesAt d.start regionSize) v' ∧ v ≠ v') := by
  refine ⟨fun b objects hmarked offset _ hlt => hmarked.counted.preLiveBytesAt_iff hregion hlt,
    fun info hmarked offset _ hlt => hmarked.counted.getPreLiveBytes_iff hregion hlt, ?_, ?_⟩
  · intro info hmarked offset offset' _ _ hle hlt hreached hreached'
    have hiff := hmarked.counted.getPreLiveBytes_iff hregion (Nat.lt_of_le_of_lt hle hlt)
    have hiff' := hmarked.counted.getPreLiveBytes_iff hregion hlt
    refine ⟨_, _, hiff.mpr (Or.inr hreached), hiff'.mpr (Or.inr hreached'), ?_⟩
    exact Nat.mul_le_mul_left 8 (Nat.add_le_add (LiveInfo.card_elim_mono _ hle)
      (LiveInfo.card_elim_mono _ hle))
  · intro b objects hmarked c hc d hd hne hreached hreached'
    have hiff := hmarked.counted.preLiveBytesAt_iff hregion (hmarked.start_lt hc)
    have hiff' := hmarked.counted.preLiveBytesAt_iff hregion (hmarked.start_lt hd)
    refine ⟨_, _, hiff.mpr hreached, hiff'.mpr hreached', ?_⟩
    rcases Nat.lt_or_gt_of_ne (hmarked.start_ne hc hd hne) with hlt | hlt
    · have := hmarked.below_lt hc hd hlt
      omega
    · have := hmarked.below_lt hd hc hlt
      omega

/-! ## A region of three pages -/

/-- One object of sixteen bytes in the second word; parts have two words. -/
def secondWord : Marking (Fin 1) where
  regionSize := 12288
  call := fun _ => ⟨512, 16⟩
  page := by decide
  nonempty := by decide
  lt := by decide
  partFits := by decide
  ok := fun _ => ⟨by decide, by decide, by decide, by decide⟩
  disjoint := fun _ _ => Or.inl rfl

/-- The bitmap with a mark in its second word is one that marking produces. -/
theorem secondWord_marked : ∃ b, Marked 12288 b (Set.range secondWord.call) := by
  have h₀ : (marking secondWord).Reachable ⟨construct 12288, fun _ => .load⟩ :=
    .init ⟨rfl, fun _ => rfl⟩
  have step : ∀ {s s' : State (Fin 1)}, (marking secondWord).Reachable s →
      exec 12288 secondWord.call s 0 = .ok s' → (marking secondWord).Reachable s' :=
    fun h hexec => h.step (e := 0) hexec
  have h₁ := step h₀ rfl
  have h₂ := step h₁ rfl
  have h₃ := step h₂ rfl
  have h₄ := step h₃ rfl
  exact ⟨_, Fin 1, inferInstance, inferInstance, secondWord, _, rfl, h₄,
    fun t => ⟨false, by rw [Subsingleton.elim t 0]; rfl⟩, rfl, rfl⟩

/-- A region of three pages is one that the collector has. -/
theorem threePages_ok : RegionOk 12288 := ⟨by decide, by decide, by decide, by decide⟩

/-- The object's own offset is in the second word of the first part: there is no count. -/
theorem preLiveBytes_secondWord : ∃ (b : RegionBitmap) (objects : Set Call),
    Marked 12288 b objects ∧ ⟨512, 16⟩ ∈ objects ∧
      ¬ Returns (b.preLiveBytesAt 512 12288) (8 * (b.below 512).card) := by
  obtain ⟨b, hmarked⟩ := secondWord_marked
  refine ⟨b, _, hmarked, ⟨0, rfl⟩, fun hret => ?_⟩
  have hreached := (hmarked.counted.preLiveBytesAt_iff threePages_ok (by omega)).mp hret
  exact absurd hreached (by unfold PartReached; decide)

/-- In the third word, the second part is reached, and the count is right. -/
theorem preLiveBytes_thirdWord : ∃ b : RegionBitmap, Marked 12288 b (Set.range secondWord.call) ∧
    Returns (b.preLiveBytesAt 1024 12288) (8 * (b.below 1024).card) := by
  obtain ⟨b, hmarked⟩ := secondWord_marked
  refine ⟨b, hmarked, ?_⟩
  exact ((preLiveBytes_iff threePages_ok).1 b _ hmarked 1024 (by decide) (by omega)).mpr
    (Or.inr (by decide))

end MarkBits

end CangjieRuntime.Gc
