/-
  What the bitmap scans visit.

  Each scan is compared with the ascending list of the set positions of its bitmap: position `i`
  stands for the address `content + 8 * i`.  The scan of a range starts at a position computed from
  the start of the range, so what it visits is a suffix of that list, cut where the range ends.

  Addresses wrap, and the loops step one past the last reference; so the lemmas about a word are
  about an address modulo `2 ^ 64`, which is the address itself as long as a bit is left.  The one
  thing they ask for is that the references of the bitmap are at addresses (`Fits`).
-/
import CangjieRuntime.Lib.Positions
import CangjieRuntime.ObjectModel.GCTib

set_option linter.unusedVariables false

namespace CangjieRuntime.ObjectModel

open Bits

/-! ## Rounding -/

/-- The next multiple of 8. -/
def roundUp (address : Nat) : Nat := (address + 7) / 8 * 8

/-- An address is not rounded down. -/
theorem le_roundUp (address : Nat) : address ≤ roundUp address := by
  unfold roundUp
  omega

/-- `GCTibAlignRangeStart` rounds up, modulo the word. -/
theorem gctibAlignRangeStart_eq {address : Nat} (h : address < 2 ^ 64) :
    gctibAlignRangeStart address = roundUp address % 2 ^ 64 := by
  have hmask : MAX ^^^ 7 = Words.sub 64 0 (2 ^ 3) := by decide
  rw [gctibAlignRangeStart, hmask, Words.and_neg_two_pow (Words.add_lt 64 address 7) (by decide),
    Words.add, roundUp]
  omega

/-- Without the sign bit. -/
theorem and_signBit_eq (tag : Nat) : tag &&& (MAX ^^^ gctibSignBit) = tag % 2 ^ 63 := by
  have hmask : MAX ^^^ gctibSignBit = 2 ^ 63 - 1 := by decide
  rw [hmask, Nat.and_two_pow_sub_one_eq_mod]

/-- The distance of an address at or after the content, also when it wrapped to 0. -/
theorem sub_content {content address : Nat} (hle : content ≤ address)
    (hnear : address - content < 2 ^ 64) (hcontent : content < 2 ^ 64) :
    Words.sub 64 (address % 2 ^ 64) content = address - content := by
  rw [Words.sub]
  omega

/-! ## One word -/

/-- All references of a word at `address` are at addresses. -/
def WordFits (bits address : Nat) : Prop :=
  ∀ i, bits.testBit i = true → address + 8 * i < 2 ^ 64

/-- A word with a bit starts at an address of 64 bits. -/
theorem WordFits.address_lt {bits address : Nat} (h : WordFits bits address) (hne : bits ≠ 0) :
    address < 2 ^ 64 := by
  obtain ⟨i, hi⟩ := Nat.exists_testBit_of_ne_zero hne
  have := h i hi
  omega

/-- What is left of a word after some bits fits as well. -/
theorem WordFits.shift {bits address : Nat} (h : WordFits bits address) (k : Nat) :
    WordFits (bits >>> k) (address + 8 * k) := by
  intro i hi
  rw [Nat.testBit_shiftRight] at hi
  have := h _ hi
  omega

/-- One `VisitRefField`. -/
theorem stdGCTibVisitRefField_eq {bits address : Nat} (h : WordFits bits address) (hne : bits ≠ 0) :
    stdGCTibVisitRefField bits (address % 2 ^ 64) =
      (if bits.testBit 0 then [address] else [], bits >>> 1, (address + 8 * 1) % 2 ^ 64) := by
  rw [stdGCTibVisitRefField, Nat.mod_eq_of_lt (h.address_lt hne), Words.add, Nat.and_one_is_mod,
    Nat.testBit_zero]
  congr 1
  rcases Nat.mod_two_eq_zero_or_one bits with hmod | hmod <;> rw [hmod] <;> rfl

/-- A word has one bit less after a shift. -/
theorem shiftRight_one_lt {w bits : Nat} (h : bits < 2 ^ (w + 1)) : bits >>> 1 < 2 ^ w := by
  rw [Nat.pow_succ] at h
  omega

/-- The addresses of the ones of a word, bit by bit. -/
theorem map_positions_succ (w bits address : Nat) :
    (positions (w + 1) bits).map (address + 8 * ·) =
      (if bits.testBit 0 then [address] else []) ++
        (positions w (bits >>> 1)).map (address + 8 * 1 + 8 * ·) := by
  rw [positions_succ, List.map_append, List.map_map]
  congr 1
  · split <;> rfl
  · refine List.map_congr_left fun i _ => ?_
    simp only [Function.comp_apply]
    omega

/-- **The loop over the bits of a word** visits its ones.  By induction on the width: the lowest bit
    is visited or not, and the rest is shifted. -/
theorem visitWord_eq {w : Nat} : ∀ {bits address : Nat}, bits < 2 ^ w → WordFits bits address →
    visitWord bits (address % 2 ^ 64) = (positions w bits).map (address + 8 * ·) := by
  induction w with
  | zero =>
    intro bits address hlt hfits
    obtain rfl : bits = 0 := by omega
    rw [visitWord]
    rfl
  | succ w ih =>
    intro bits address hlt hfits
    rw [visitWord]
    by_cases hzero : bits = 0
    · subst hzero
      simp
    · have hrest := ih (shiftRight_one_lt hlt) (hfits.shift 1)
      simp only [dif_neg hzero, stdGCTibVisitRefField_eq hfits hzero, hrest, map_positions_succ]

/-- **The loop with the early return** visits the ones before `rangeEnd`; if it returned early, a
    one was left behind the end. -/
theorem visitWordInRange_eq {w rangeEnd : Nat} : ∀ {bits address : Nat}, bits < 2 ^ w →
    WordFits bits address →
    (visitWordInRange rangeEnd bits (address % 2 ^ 64)).1 =
        ((positions w bits).map (address + 8 * ·)).filter (· < rangeEnd) ∧
      ((visitWordInRange rangeEnd bits (address % 2 ^ 64)).2 = true →
        ∃ i, bits.testBit i = true ∧ rangeEnd ≤ address + 8 * i) := by
  induction w with
  | zero =>
    intro bits address hlt hfits
    obtain rfl : bits = 0 := by omega
    rw [visitWordInRange]
    exact ⟨rfl, nofun⟩
  | succ w ih =>
    intro bits address hlt hfits
    rw [visitWordInRange]
    -- no bit is left
    by_cases hzero : bits = 0
    · subst hzero
      simp
    · have haddress := Nat.mod_eq_of_lt (hfits.address_lt hzero)
      -- the address is behind the range, or its bit is looked at
      by_cases hend : rangeEnd ≤ address
      · -- every one that is left is behind the end
        have hnone : ((positions (w + 1) bits).map (address + 8 * ·)).filter (· < rangeEnd) = [] := by
          rw [List.filter_eq_nil_iff]
          intro a ha
          obtain ⟨i, -, rfl⟩ := List.mem_map.mp ha
          simp only [decide_eq_true_eq]
          omega
        obtain ⟨i, hi⟩ := Nat.exists_testBit_of_ne_zero hzero
        rw [hnone, haddress]
        simp only [dif_neg hzero, ge_iff_le, if_pos hend]
        refine ⟨?_, fun _ => ⟨i, hi, by omega⟩⟩
        trivial
      · obtain ⟨hvisits, hreturned⟩ := ih (shiftRight_one_lt hlt) (hfits.shift 1)
        simp only [dif_neg hzero, ge_iff_le, haddress, if_neg hend]
        rw [← haddress, stdGCTibVisitRefField_eq hfits hzero]
        refine ⟨?_, fun hreturn => ?_⟩
        · rw [haddress, map_positions_succ, List.filter_append, ← hvisits]
          congr 1
          split
          · simp only [List.filter_cons, Nat.lt_of_not_le hend, decide_true, if_true,
              List.filter_nil]
          · rfl
        · obtain ⟨i, hi, hle⟩ := hreturned hreturn
          rw [Nat.testBit_shiftRight] at hi
          exact ⟨1 + i, hi, by omega⟩

/-- A scan of the shifted word is the scan of the word from that position on. -/
theorem filter_shift {w bits : Nat} (hlt : bits < 2 ^ w) (address k rangeEnd : Nat) :
    ((positions w (bits >>> k)).map (address + 8 * k + 8 * ·)).filter (· < rangeEnd) =
      ((positions w bits).map (address + 8 * ·)).filter
        (fun a => decide (address + 8 * k ≤ a) && decide (a < rangeEnd)) := by
  have hmap : (positions w (bits >>> k)).map (address + 8 * k + 8 * ·) =
      ((positions w bits).filter (k ≤ ·)).map (address + 8 * ·) := by
    rw [← positions_shiftRight hlt k, List.map_map]
    refine List.map_congr_left fun i _ => ?_
    simp only [Function.comp_apply]
    omega
  rw [hmap, List.filter_map, List.filter_map, List.filter_filter]
  congr 1
  refine List.filter_congr fun i _ => ?_
  simp only [Function.comp_apply]
  rw [Bool.and_comm]
  congr 1
  exact decide_eq_decide.mpr (by omega)

/-! ## The short form -/

section Short

variable {tag content start rangeEnd : Nat}

/-- The visits of a short bitmap are the positions of its bits. -/
theorem shortGCTibForEachBitmapWord_eq (hfits : WordFits (tag % 2 ^ 63) content)
    (hcontent : content < 2 ^ 64) : shortGCTibForEachBitmapWord tag content =
      (positions 63 (tag % 2 ^ 63)).map (content + 8 * ·) := by
  have hscan := visitWord_eq (Nat.mod_lt tag (Nat.two_pow_pos 63)) hfits
  rw [Nat.mod_eq_of_lt hcontent] at hscan
  rw [shortGCTibForEachBitmapWord, and_signBit_eq, hscan]

/-- **The short form, in a range.** -/
theorem shortGCTibForEachBitmapWordInRange_eq (hfits : WordFits (tag % 2 ^ 63) content)
    (halign : 8 ∣ content) (hcontent : content < 2 ^ 64) (hle : content ≤ start)
    (hreach : roundUp start < content + 8 * 64) :
    shortGCTibForEachBitmapWordInRange tag content (roundUp start % 2 ^ 64) rangeEnd =
      .ok ((shortGCTibForEachBitmapWord tag content).filter
        fun a => decide (roundUp start ≤ a) && decide (a < rangeEnd)) := by
  have hround := le_roundUp start
  obtain ⟨k, hk⟩ : ∃ k, roundUp start = content + 8 * k := by
    obtain ⟨c, rfl⟩ := halign
    exact ⟨(start + 7) / 8 - c, by unfold roundUp at hround ⊢; omega⟩
  have hindex : gctibRefIndex (Words.sub 64 (roundUp start % 2 ^ 64) content) = k := by
    rw [sub_content (by omega) (by omega) hcontent, gctibRefIndex, hk]
    omega
  have hlt := Nat.mod_lt tag (Nat.two_pow_pos 63)
  have hshifted : (tag % 2 ^ 63) >>> k < 2 ^ 63 :=
    Nat.lt_of_le_of_lt (Nat.shiftRight_le _ _) hlt
  simp only [shortGCTibForEachBitmapWordInRange, hindex, and_signBit_eq, gctibShiftUIntNative,
    if_pos (show k < 64 by omega), bind, Except.bind]
  rw [hk, (visitWordInRange_eq hshifted (hfits.shift k)).1, filter_shift hlt,
    shortGCTibForEachBitmapWord_eq hfits hcontent]

end Short

/-! ## The standard form -/

section Standard

variable {standard : StdGCTib} {content start rangeEnd : Nat}

/-- All references of the table are at addresses.  So no address that a scan visits wraps. -/
def StdGCTib.Fits (standard : StdGCTib) (content : Nat) : Prop :=
  ∀ k, k < standard.nBitmapWords → WordFits (standard.bitmapWords k) (content + 64 * k)

/-- The addresses of `n` words from word `index` on. -/
def StdGCTib.fields (standard : StdGCTib) (content index n : Nat) : List Nat :=
  (arrayPositions 8 standard.bitmapWords index n).map (content + 8 * ·)

/-- The fields of a bitmap, from its first word on. -/
theorem StdGCTib.fields_succ (standard : StdGCTib) (content index n : Nat) :
    standard.fields content index (n + 1) =
      (positions 8 (standard.bitmapWords index)).map (content + 64 * index + 8 * ·) ++
        standard.fields content (index + 1) n := by
  rw [fields, arrayPositions_succ, List.map_append, List.map_map, fields]
  congr 1
  refine List.map_congr_left fun i _ => ?_
  simp only [Function.comp_apply]
  omega

/-- A field lies behind the start of its word. -/
theorem StdGCTib.le_of_mem_fields {index n a : Nat} (ha : a ∈ standard.fields content index n) :
    content + 64 * index ≤ a := by
  obtain ⟨b, hb, rfl⟩ := List.mem_map.mp ha
  have := le_of_mem_arrayPositions hb
  omega

/-- The next word's base. -/
theorem add_mapWordSize (content index : Nat) :
    Words.add 64 ((content + 64 * index) % 2 ^ 64) MAP_WORD_SIZE =
      (content + 64 * (index + 1)) % 2 ^ 64 := by
  rw [Words.add, Nat.mod_add_mod, Nat.mul_add]
  rfl

/-- **The loop over the words.**  Word `index` stands for the 64 bytes of a row of references, and
    the address goes on by as many. -/
theorem stdLoop_eq (hfits : standard.Fits content) : ∀ n index,
    index + n = standard.nBitmapWords →
    stdLoop standard index ((content + 64 * index) % 2 ^ 64) =
      standard.fields content index n := by
  intro n
  induction n with
  | zero =>
    intro index hcount
    rw [stdLoop, dif_neg (by omega)]
    rfl
  | succ n ih =>
    intro index hcount
    have hindex : index < standard.nBitmapWords := by omega
    rw [stdLoop, dif_pos hindex, add_mapWordSize, visitWord_eq (standard.word_lt index) (hfits index hindex),
      ih (index + 1) (by omega), StdGCTib.fields_succ]

/-- One word of the scan of a range: `bits` at `address` are what the word's prologue made of the
    word and its base. -/
theorem stdLoopInRange_step {startIndex rangeStart index n bits address : Nat}
    (hindex : index < standard.nBitmapWords)
    (hselect : stdSelectWord standard startIndex rangeStart index ((content + 64 * index) % 2 ^ 64) =
      .ok (bits, address % 2 ^ 64))
    (hlt : bits < 2 ^ 8) (hfits : WordFits bits address)
    (hword : ∀ i, bits.testBit i = true → address + 8 * i < content + 64 * (index + 1))
    (hrest : stdLoopInRange standard startIndex rangeStart rangeEnd (index + 1)
        ((content + 64 * (index + 1)) % 2 ^ 64) =
      .ok ((standard.fields content (index + 1) n).filter (· < rangeEnd))) :
    stdLoopInRange standard startIndex rangeStart rangeEnd index
        ((content + 64 * index) % 2 ^ 64) =
      .ok (((positions 8 bits).map (address + 8 * ·) ++
        standard.fields content (index + 1) n).filter (· < rangeEnd)) := by
  obtain ⟨hvisits, hreturned⟩ := @visitWordInRange_eq 8 rangeEnd _ _ hlt hfits
  rw [stdLoopInRange, dif_pos hindex, hselect]
  simp only [bind, Except.bind, add_mapWordSize, hrest, hvisits, List.filter_append]
  split
  case isTrue hreturn =>
    -- a reference of this word is behind the end, and so are those of the later words
    obtain ⟨i, hi, hend⟩ := hreturned hreturn
    have hnone : (standard.fields content (index + 1) n).filter (· < rangeEnd) = [] := by
      rw [List.filter_eq_nil_iff]
      intro a ha
      have hle := StdGCTib.le_of_mem_fields ha
      have := hword i hi
      simp only [decide_eq_true_eq]
      omega
    rw [hnone, List.append_nil]
  case isFalse hreturn => rfl

/-- The words behind the first one. -/
theorem stdLoopInRange_tail (hfits : standard.Fits content) {startIndex rangeStart : Nat} :
    ∀ n index, index + n = standard.nBitmapWords → startIndex < index →
    stdLoopInRange standard startIndex rangeStart rangeEnd index
        ((content + 64 * index) % 2 ^ 64) =
      .ok ((standard.fields content index n).filter (· < rangeEnd)) := by
  intro n
  induction n with
  | zero =>
    intro index hcount hlater
    rw [stdLoopInRange, dif_neg (by omega)]
    rfl
  | succ n ih =>
    intro index hcount hlater
    have hindex : index < standard.nBitmapWords := by omega
    have hword : ∀ i, (standard.bitmapWords index).testBit i = true →
        content + 64 * index + 8 * i < content + 64 * (index + 1) := by
      intro i hi
      have := lt_of_testBit (standard.word_lt index) hi
      omega
    rw [StdGCTib.fields_succ]
    exact stdLoopInRange_step hindex (if_neg fun h => absurd h.1 (by omega))
      (standard.word_lt index) (hfits index hindex) hword (ih (index + 1) (by omega) (by omega))

/-- The first word: the bits before the start of the range are shifted out. -/
theorem stdLoopInRange_first (hfits : standard.Fits content) {k n : Nat}
    (hround : roundUp start = content + 8 * k) (hcount : k / 8 + (n + 1) = standard.nBitmapWords) :
    stdLoopInRange standard (k / 8) (roundUp start % 2 ^ 64) rangeEnd (k / 8)
        ((content + 64 * (k / 8)) % 2 ^ 64) =
      .ok ((standard.fields content (k / 8) (n + 1)).filter
        fun a => decide (roundUp start ≤ a) && decide (a < rangeEnd)) := by
  have hindex : k / 8 < standard.nBitmapWords := by omega
  have hlt := standard.word_lt (k / 8)
  have hword := hfits (k / 8) hindex
  have hrest := @stdLoopInRange_tail standard content rangeEnd hfits
    (k / 8) (roundUp start % 2 ^ 64) n (k / 8 + 1) (by omega) (Nat.lt_succ_self (k / 8))
  -- the words behind the first are behind the start
  have hbehind : (standard.fields content (k / 8 + 1) n).filter
        (fun a => decide (roundUp start ≤ a) && decide (a < rangeEnd)) =
      (standard.fields content (k / 8 + 1) n).filter (· < rangeEnd) := by
    refine List.filter_congr fun a ha => ?_
    have hle := StdGCTib.le_of_mem_fields ha
    rw [decide_eq_true (show roundUp start ≤ a by omega), Bool.true_and]
  rw [StdGCTib.fields_succ, List.filter_append, hbehind]
  by_cases hzero : standard.bitmapWords (k / 8) = 0
  · have hselect : stdSelectWord standard (k / 8) (roundUp start % 2 ^ 64) (k / 8)
        ((content + 64 * (k / 8)) % 2 ^ 64) =
        .ok (0, (content + 64 * (k / 8)) % 2 ^ 64) := by
      simp only [stdSelectWord, hzero, ne_eq, not_true_eq_false, and_false, if_false]
    rw [hzero] at hword
    rw [stdLoopInRange_step hindex hselect (by decide) hword (fun i hi => by simp at hi) hrest,
      hzero]
    simp
  · have haddress := hword.address_lt hzero
    have hstart : roundUp start = content + 64 * (k / 8) + 8 * (k % 8) := by omega
    have hshift : gctibRefIndex (Words.sub 64 (roundUp start % 2 ^ 64)
        ((content + 64 * (k / 8)) % 2 ^ 64)) = k % 8 := by
      rw [Nat.mod_eq_of_lt haddress, sub_content (by omega) (by omega) haddress, gctibRefIndex,
        hstart]
      omega
    have hselect : stdSelectWord standard (k / 8) (roundUp start % 2 ^ 64) (k / 8)
        ((content + 64 * (k / 8)) % 2 ^ 64) =
        .ok (standard.bitmapWords (k / 8) >>> (k % 8), roundUp start % 2 ^ 64) := by
      simp only [stdSelectWord, ne_eq, hzero, not_false_eq_true, and_self, if_true, hshift,
        gctibShiftUInt8, if_pos (Nat.mod_lt k (show 0 < 8 by decide)), bind, Except.bind]
    have hshifted : standard.bitmapWords (k / 8) >>> (k % 8) < 2 ^ 8 :=
      Nat.lt_of_le_of_lt (Nat.shiftRight_le _ _) hlt
    have hfitsShift := hword.shift (k % 8)
    rw [← hstart] at hfitsShift
    have hnear : ∀ i, (standard.bitmapWords (k / 8) >>> (k % 8)).testBit i = true →
        roundUp start + 8 * i < content + 64 * (k / 8 + 1) := by
      intro i hi
      rw [Nat.testBit_shiftRight] at hi
      have := lt_of_testBit hlt hi
      omega
    rw [stdLoopInRange_step hindex hselect hshifted hfitsShift hnear hrest, List.filter_append,
      hstart, filter_shift hlt]

/-- The visits of a standard bitmap are the fields of its words. -/
theorem stdGCTibForEachBitmapWord_eq (hfits : standard.Fits content) (hcontent : content < 2 ^ 64) :
    stdGCTibForEachBitmapWord standard content =
      standard.fields content 0 standard.nBitmapWords := by
  have hscan := stdLoop_eq hfits standard.nBitmapWords 0 (Nat.zero_add _)
  rw [Nat.mul_zero, Nat.add_zero, Nat.mod_eq_of_lt hcontent] at hscan
  exact hscan

/-- **The standard form, in a range.** -/
theorem stdGCTibForEachBitmapWordInRange_eq (hfits : standard.Fits content) (halign : 8 ∣ content)
    (hcontent : content < 2 ^ 64) (hle : content ≤ start)
    (hreach : roundUp start < content + 64 * 2 ^ 32) :
    stdGCTibForEachBitmapWordInRange standard content (roundUp start % 2 ^ 64) rangeEnd =
      .ok ((stdGCTibForEachBitmapWord standard content).filter
        fun a => decide (roundUp start ≤ a) && decide (a < rangeEnd)) := by
  have hround := le_roundUp start
  obtain ⟨k, hk⟩ : ∃ k, roundUp start = content + 8 * k := by
    obtain ⟨c, rfl⟩ := halign
    exact ⟨(start + 7) / 8 - c, by unfold roundUp at hround ⊢; omega⟩
  have hindex : gctibMapIndex (Words.sub 64 (roundUp start % 2 ^ 64) content) % 2 ^ 32 = k / 8 := by
    rw [sub_content (by omega) (by omega) hcontent, gctibMapIndex, hk]
    omega
  have hbase : Words.add 64 (Words.mul 64 (k / 8) MAP_WORD_SIZE) content =
      (content + 64 * (k / 8)) % 2 ^ 64 := by
    rw [Words.add, Words.mul, Nat.mod_add_mod, Nat.mul_comm, Nat.add_comm]
    rfl
  -- the references before the first word are before the start
  have hbefore : ∀ m, m ≤ k / 8 → (standard.fields content 0 m).filter
      (fun a => decide (roundUp start ≤ a) && decide (a < rangeEnd)) = [] := by
    intro m hm
    rw [List.filter_eq_nil_iff]
    intro a ha
    obtain ⟨b, hb, rfl⟩ := List.mem_map.mp ha
    obtain ⟨j, i, -, hj, hi, -, rfl⟩ := mem_arrayPositions.mp hb
    rw [Bool.and_eq_true, decide_eq_true_eq, hk]
    omega
  rw [stdGCTibForEachBitmapWordInRange, hindex, hbase, stdGCTibForEachBitmapWord_eq hfits hcontent]
  by_cases hpast : standard.nBitmapWords ≤ k / 8
  · rw [stdLoopInRange, dif_neg (Nat.not_lt.mpr hpast), hbefore _ hpast]
  · obtain ⟨n, hn⟩ : ∃ n, standard.nBitmapWords = k / 8 + (n + 1) :=
      ⟨standard.nBitmapWords - k / 8 - 1, by omega⟩
    have hsplit : standard.fields content 0 standard.nBitmapWords =
        standard.fields content 0 (k / 8) ++ standard.fields content (k / 8) (n + 1) := by
      rw [StdGCTib.fields, hn, arrayPositions_append, List.map_append, Nat.zero_add]
      rfl
    rw [stdLoopInRange_first hfits hk hn.symm, hsplit, List.filter_append,
      hbefore _ (Nat.le_refl _), List.nil_append]

end Standard

/-! ## Both forms -/

section Both

variable {gctib : GCTib} {content start rangeEnd : Nat}

/-- The number of bits of the bitmap. -/
def GCTib.bitCount (gctib : GCTib) : Nat :=
  if gctib.isGCTibWord then 63 else 8 * gctib.standard.nBitmapWords

/-- Bit `i` of the bitmap. -/
def GCTib.bit (gctib : GCTib) (i : Nat) : Bool :=
  decide (i < gctib.bitCount) &&
    if gctib.isGCTibWord then gctib.tag.testBit i
    else (gctib.standard.bitmapWords (i / 8)).testBit (i % 8)

/-- All references of the content are at addresses. -/
def GCTib.Fits (gctib : GCTib) (content : Nat) : Prop :=
  ∀ i, gctib.bit i = true → content + 8 * i < 2 ^ 64

/-- A short bitmap fits as a word. -/
theorem GCTib.Fits.short (h : gctib.Fits content) (hword : gctib.isGCTibWord = true) :
    WordFits (gctib.tag % 2 ^ 63) content := by
  intro i hi
  have hlt := lt_of_testBit (Nat.mod_lt _ (Nat.two_pow_pos 63)) hi
  rw [Nat.testBit_mod_two_pow, Bool.and_eq_true] at hi
  refine h i ?_
  rw [GCTib.bit, GCTib.bitCount, if_pos hword, if_pos hword, decide_eq_true hlt, Bool.true_and]
  exact hi.2

/-- A standard one fits with all its words. -/
theorem GCTib.Fits.standard (h : gctib.Fits content) (hword : gctib.isGCTibWord = false) :
    gctib.standard.Fits content := by
  intro k hk i hi
  have hlt := lt_of_testBit (gctib.standard.word_lt k) hi
  have hbit : gctib.bit (8 * k + i) = true := by
    rw [GCTib.bit, GCTib.bitCount, hword, Nat.mul_add_div (by decide), Nat.mul_add_mod,
      Nat.div_eq_of_lt hlt, Nat.mod_eq_of_lt hlt, Nat.add_zero, hi, Bool.and_eq_true]
    exact ⟨decide_eq_true (by simp only [Bool.false_eq_true, if_false]; omega), rfl⟩
  have := h _ hbit
  omega

/-- **The full scan** visits the addresses of the set bits, in ascending order. -/
theorem gctibForEachBitmapWord_spec (hfits : gctib.Fits content) (hcontent : content < 2 ^ 64) :
    (gctibForEachBitmapWord gctib content).Pairwise (· < ·) ∧
      ∀ a, a ∈ gctibForEachBitmapWord gctib content ↔
        ∃ i, gctib.bit i = true ∧ a = content + 8 * i := by
  cases hword : gctib.isGCTibWord with
  | true =>
    rw [gctibForEachBitmapWord, if_pos hword,
      shortGCTibForEachBitmapWord_eq (hfits.short hword) hcontent]
    constructor
    · exact (positions_pairwise _ _).map _ fun a b hab => by omega
    · intro a
      simp only [List.mem_map, mem_positions, Nat.testBit_mod_two_pow, GCTib.bit, GCTib.bitCount,
        hword, if_true, Bool.and_eq_true, decide_eq_true_eq]
      constructor
      · rintro ⟨i, ⟨hi, -, hbit⟩, rfl⟩
        exact ⟨i, ⟨hi, hbit⟩, rfl⟩
      · rintro ⟨i, ⟨hi, hbit⟩, rfl⟩
        exact ⟨i, ⟨hi, hi, hbit⟩, rfl⟩
  | false =>
    rw [gctibForEachBitmapWord, if_neg (by rw [hword]; decide),
      stdGCTibForEachBitmapWord_eq (hfits.standard hword) hcontent]
    constructor
    · exact (arrayPositions_pairwise _ _ _ _).map _ fun a b hab => by omega
    · intro a
      simp only [StdGCTib.fields, List.mem_map, mem_arrayPositions, GCTib.bit, GCTib.bitCount,
        hword, Bool.false_eq_true, if_false, Bool.and_eq_true, decide_eq_true_eq]
      constructor
      · rintro ⟨b, ⟨k, i, -, hk, hi, hbit, rfl⟩, rfl⟩
        refine ⟨8 * k + i, ⟨by omega, ?_⟩, rfl⟩
        rw [Nat.mul_add_div (by decide), Nat.mul_add_mod, Nat.div_eq_of_lt hi,
          Nat.mod_eq_of_lt hi, Nat.add_zero]
        exact hbit
      · rintro ⟨b, ⟨hb, hbit⟩, rfl⟩
        exact ⟨b, ⟨b / 8, b % 8, Nat.zero_le _, by omega, Nat.mod_lt _ (by decide), hbit,
          (Nat.div_add_mod b 8).symm⟩, rfl⟩

/-- The scan of a range, as far as its start is within reach of the shift and of the index. -/
theorem gctibForEachBitmapWordInRange_filter (hfits : gctib.Fits content) (halign : 8 ∣ content)
    (hle : content ≤ start) (hstart : start < 2 ^ 64)
    (hshort : gctib.isGCTibWord = true → roundUp start < content + 8 * 64)
    (hstandard : gctib.isGCTibWord = false → roundUp start < content + 64 * 2 ^ 32) :
    gctibForEachBitmapWordInRange gctib content start rangeEnd =
      .ok ((gctibForEachBitmapWord gctib content).filter
        fun a => decide (roundUp start ≤ a) && decide (a < rangeEnd)) := by
  have hcontent : content < 2 ^ 64 := Nat.lt_of_le_of_lt hle hstart
  rw [gctibForEachBitmapWordInRange, gctibAlignRangeStart_eq hstart]
  by_cases hempty : roundUp start % 2 ^ 64 ≥ rangeEnd
  · -- an empty range, also when the start wrapped
    rw [if_pos hempty]
    congr 1
    symm
    rw [List.filter_eq_nil_iff]
    intro a ha
    obtain ⟨i, hbit, rfl⟩ := ((gctibForEachBitmapWord_spec hfits hcontent).2 a).mp ha
    have := hfits i hbit
    have hmod := Nat.mod_le (roundUp start) (2 ^ 64)
    rw [Bool.and_eq_true, decide_eq_true_eq, decide_eq_true_eq]
    omega
  · rw [if_neg hempty, gctibForEachBitmapWord]
    cases hword : gctib.isGCTibWord with
    | true =>
      exact shortGCTibForEachBitmapWordInRange_eq (hfits.short hword) halign hcontent hle
        (hshort hword)
    | false =>
      exact stdGCTibForEachBitmapWordInRange_eq (hfits.standard hword) halign hcontent hle
        (hstandard hword)

/-- **The scan of a range is the filtered full scan**, for every start within the bitmap; no shift
    count is out of range.  The scan starts at the position that the start of the range rounds up to
    and stops at the first reference behind the range; the visits ascend, so that all it leaves out
    is outside. -/
theorem gctibForEachBitmapWordInRange_eq (hfits : gctib.Fits content) (halign : 8 ∣ content)
    (hle : content ≤ start) (hlt : start < content + 8 * gctib.bitCount) (hstart : start < 2 ^ 64) :
    ∃ visits, gctibForEachBitmapWordInRange gctib content start rangeEnd = .ok visits ∧
      visits = (gctibForEachBitmapWord gctib content).filter
        (fun a => decide (roundUp start ≤ a) && decide (a < rangeEnd)) ∧
      visits.Pairwise (· < ·) := by
  have hcontent : content < 2 ^ 64 := Nat.lt_of_le_of_lt hle hstart
  obtain ⟨c, rfl⟩ := halign
  have hround : roundUp start ≤ 8 * c + 8 * gctib.bitCount := by
    unfold roundUp
    omega
  refine ⟨_, gctibForEachBitmapWordInRange_filter hfits ⟨c, rfl⟩ hle hstart (fun hword => ?_)
    (fun hword => ?_), rfl, (gctibForEachBitmapWord_spec hfits hcontent).1.filter _⟩
  · rw [GCTib.bitCount, if_pos hword] at hround
    omega
  · have := gctib.standard.count_lt
    rw [GCTib.bitCount, if_neg (by rw [hword]; decide)] at hround
    omega

/-- A table of three words, for a content of 24 fields. -/
def threeWords : StdGCTib where
  nBitmapWords := 3
  bitmapWords k := [0x81, 0x12, 0x40].getD k 0
  count_lt := by decide
  word_lt k := by
    match k with
    | 0 | 1 | 2 => decide
    | k + 3 =>
      show 0 < 2 ^ 8
      decide

/-- The range starts inside a field of the second word and ends inside the third. -/
theorem gctibForEachBitmapWordInRange_eq_threeWords : ∃ visits,
    gctibForEachBitmapWordInRange ⟨8192, threeWords, by decide⟩ 4096 4161 4276 = .ok visits ∧
      visits = (gctibForEachBitmapWord ⟨8192, threeWords, by decide⟩ 4096).filter
        (fun a => decide (roundUp 4161 ≤ a) && decide (a < 4276)) ∧
      visits.Pairwise (· < ·) := by
  have hcount : GCTib.bitCount ⟨8192, threeWords, by decide⟩ = 24 := by decide
  refine gctibForEachBitmapWordInRange_eq (fun i hi => ?_) ⟨512, rfl⟩ (by decide) ?_ (by decide)
  · rw [GCTib.bit, hcount, Bool.and_eq_true, decide_eq_true_eq] at hi
    omega
  · rw [hcount]
    decide

end Both

end CangjieRuntime.ObjectModel
