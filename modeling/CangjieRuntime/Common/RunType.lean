/-
  The run types of the native allocator (`rt.common/RunType.cj`): slot sizes, and the table that
  maps a size to the run type that serves it.

  `InitRunTypeMap` fills the table from the largest size down, and moves to the next smaller run
  type whenever it has reached the size of one.  Its assertions ask that every run type is met on
  the way, which is so for a table of ascending sizes that are multiples of eight (`RunTypes`): the
  assertions then hold, and every size gets the smallest run type with room for it
  (`initRunTypeMap_least`).  For small sizes `RUNTYPE_FAST_RUN_IDX` computes the same index without
  the table (`fastRunIdx_agrees`).
-/
import CangjieRuntime.Lib.Words
import Mathlib

set_option linter.unusedVariables false

namespace CangjieRuntime.Common

abbrev RUN_ALLOC_SMALL_SIZE : Nat := 104
abbrev RUN_ALLOC_LARGE_SIZE : Nat := 2016
abbrev DEFAULT_PAGE_PER_RUN : Nat := 1

/-- A type of runs: small or large, the pages of a run, and the size of its slots. -/
structure RunType where
  isSmall : Bool
  numPagesPerRun : Nat
  size : Nat
  deriving DecidableEq, Repr

namespace RunType

abbrev MAX_NUM_OF_RUN_TYPES : Nat := 256

/-- `TYPES`, by run index. -/
def TYPES : List RunType :=
  [⟨true, DEFAULT_PAGE_PER_RUN, 16⟩, ⟨true, DEFAULT_PAGE_PER_RUN, 24⟩,
   ⟨true, DEFAULT_PAGE_PER_RUN, 32⟩, ⟨true, DEFAULT_PAGE_PER_RUN, 40⟩,
   ⟨true, DEFAULT_PAGE_PER_RUN, 48⟩, ⟨true, DEFAULT_PAGE_PER_RUN, 56⟩,
   ⟨true, DEFAULT_PAGE_PER_RUN, 64⟩, ⟨true, DEFAULT_PAGE_PER_RUN, 72⟩,
   ⟨true, DEFAULT_PAGE_PER_RUN, 80⟩, ⟨true, DEFAULT_PAGE_PER_RUN, 88⟩,
   ⟨true, DEFAULT_PAGE_PER_RUN, 96⟩, ⟨true, DEFAULT_PAGE_PER_RUN, RUN_ALLOC_SMALL_SIZE⟩,
   ⟨false, DEFAULT_PAGE_PER_RUN, 112⟩, ⟨false, DEFAULT_PAGE_PER_RUN, 120⟩,
   ⟨false, DEFAULT_PAGE_PER_RUN, 128⟩, ⟨false, DEFAULT_PAGE_PER_RUN, 136⟩,
   ⟨false, DEFAULT_PAGE_PER_RUN, 144⟩, ⟨false, DEFAULT_PAGE_PER_RUN, 152⟩,
   ⟨false, DEFAULT_PAGE_PER_RUN, 160⟩, ⟨false, DEFAULT_PAGE_PER_RUN, 168⟩,
   ⟨false, DEFAULT_PAGE_PER_RUN, 176⟩, ⟨false, DEFAULT_PAGE_PER_RUN, 184⟩,
   ⟨false, DEFAULT_PAGE_PER_RUN, 192⟩, ⟨false, DEFAULT_PAGE_PER_RUN, 200⟩,
   ⟨false, DEFAULT_PAGE_PER_RUN, 208⟩, ⟨false, DEFAULT_PAGE_PER_RUN, 216⟩,
   ⟨false, DEFAULT_PAGE_PER_RUN, 224⟩, ⟨false, DEFAULT_PAGE_PER_RUN, 232⟩,
   ⟨false, DEFAULT_PAGE_PER_RUN, 240⟩, ⟨false, DEFAULT_PAGE_PER_RUN, 248⟩,
   ⟨false, DEFAULT_PAGE_PER_RUN, 256⟩, ⟨false, DEFAULT_PAGE_PER_RUN, 264⟩,
   ⟨false, DEFAULT_PAGE_PER_RUN, 272⟩, ⟨false, DEFAULT_PAGE_PER_RUN, 280⟩,
   ⟨false, DEFAULT_PAGE_PER_RUN, 288⟩, ⟨false, DEFAULT_PAGE_PER_RUN, 296⟩,
   ⟨false, DEFAULT_PAGE_PER_RUN, 304⟩, ⟨false, DEFAULT_PAGE_PER_RUN, 312⟩,
   ⟨false, DEFAULT_PAGE_PER_RUN, 320⟩, ⟨false, DEFAULT_PAGE_PER_RUN, 328⟩,
   ⟨false, DEFAULT_PAGE_PER_RUN, 336⟩, ⟨false, DEFAULT_PAGE_PER_RUN, 344⟩,
   ⟨false, DEFAULT_PAGE_PER_RUN, 352⟩, ⟨false, DEFAULT_PAGE_PER_RUN, 360⟩,
   ⟨false, DEFAULT_PAGE_PER_RUN, 400⟩, ⟨false, DEFAULT_PAGE_PER_RUN, 448⟩,
   ⟨false, DEFAULT_PAGE_PER_RUN, 504⟩, ⟨false, DEFAULT_PAGE_PER_RUN, 576⟩,
   ⟨false, DEFAULT_PAGE_PER_RUN, 672⟩, ⟨false, DEFAULT_PAGE_PER_RUN, 800⟩,
   ⟨false, DEFAULT_PAGE_PER_RUN, 1008⟩, ⟨false, DEFAULT_PAGE_PER_RUN, 1344⟩,
   ⟨false, DEFAULT_PAGE_PER_RUN, RUN_ALLOC_LARGE_SIZE⟩]

/-- `TYPES[idx].size`; the indices that are read are below the number of run types. -/
def typeSize (types : List RunType) (idx : Nat) : Nat := types[idx]?.elim 0 RunType.size

/-- `RUNTYPE_SIZE_TO_RUN_IDX`, with the table `g_size2Idx`. -/
def sizeToRunIdx (size2Idx : Nat → Nat) (size : Nat) : Nat :=
  size2Idx (Words.sub 64 (size >>> 3) 1)

/-- `RUNTYPE_FAST_RUN_IDX`. -/
def fastRunIdx (size : Nat) : Nat := Words.sub 64 (size >>> 3) 2

/-! ## The table of indices -/

/-- The variables of the loop of `InitRunTypeMap`. -/
structure Fill where
  idx : Nat
  nextSize : Nat
  size2Idx : Nat → Nat

/-- A round of the loop; an assertion that does not hold ends a debug build with its message. -/
def fillRound (types : List RunType) (i : Nat) (s : Fill) : Except String Fill :=
  if (i + 1) <<< 3 > s.nextSize then
    if s.idx < types.length then
      .ok { s with size2Idx := Function.update s.size2Idx i s.idx }
    else .ok s
  else if (i + 1) <<< 3 ≠ s.nextSize then .error "init run config error"
  else if s.idx = 0 then .error "init run config error"
  else
    let idx := s.idx - 1
    let size2Idx := Function.update s.size2Idx i idx
    if 0 < idx ∧ idx < types.length then
      if typeSize types (idx - 1) < s.nextSize then
        .ok ⟨idx, typeSize types (idx - 1), size2Idx⟩
      else .error "not in ascending order"
    else .ok ⟨idx, 0, size2Idx⟩

/-- The rounds of the loop from `i` down to zero. -/
def fillLoop (types : List RunType) : Nat → Fill → Except String Fill
  | 0, s => fillRound types 0 s
  | i + 1, s => do
    let s ← fillRound types (i + 1) s
    fillLoop types i s

/-- `InitRunTypeMap`, with the number of `types` for `NUM_OF_RUN_TYPES`. -/
def initRunTypeMap (types : List RunType) (size2Idx : Nat → Nat) : Except String (Nat → Nat) :=
  let nextSize := typeSize types (types.length - 1)
  if ¬ types.length ≤ MAX_NUM_OF_RUN_TYPES then .error "too many configs"
  else if ¬ nextSize ≤ MAX_NUM_OF_RUN_TYPES <<< 3 then .error "size too big in config"
  else do
    let s ← fillLoop types (MAX_NUM_OF_RUN_TYPES - 1) ⟨types.length, nextSize, size2Idx⟩
    if sizeToRunIdx s.size2Idx RUN_ALLOC_LARGE_SIZE + 1 = types.length then .ok s.size2Idx
    else .error "run config inconsistent: large size"

/-! ## Statement -/

/-- `idx` is the smallest run type with room for `size`. -/
structure Least (types : List RunType) (size idx : Nat) : Prop where
  idx_lt : idx < types.length
  room : size ≤ typeSize types idx
  smaller : ∀ j < idx, typeSize types j < size

/-- Run types that the assertions of `InitRunTypeMap` are made for. -/
structure RunTypes where
  types : List RunType
  count_le : types.length ≤ MAX_NUM_OF_RUN_TYPES
  ascending : ∀ i j, i < j → j < types.length → typeSize types i < typeSize types j
  aligned : ∀ i < types.length, 8 ∣ typeSize types i
  nonempty : 0 < types.length
  largest : typeSize types (types.length - 1) = RUN_ALLOC_LARGE_SIZE

/-- There is one least type. -/
theorem Least.unique {types : List RunType} {size i j : Nat} (hi : Least types size i)
    (hj : Least types size j) : i = j := by
  have hroomI := hi.room
  have hroomJ := hj.room
  rcases Nat.lt_trichotomy i j with hlt | heq | hgt
  · have := hj.smaller i hlt
    omega
  · exact heq
  · have := hi.smaller j hgt
    omega

/-! ## The loop -/

section Loop

variable {config : RunTypes} {size2Idx : Nat → Nat} {s : Fill}

/-- With the rounds below `r` to go: `idx` and `nextSize` stand at the first run type above the
    sizes to come, and the sizes behind have got their run type. -/
structure Filled (config : RunTypes) (size2Idx : Nat → Nat) (r : Nat) (s : Fill) : Prop where
  idx_le : s.idx ≤ config.types.length
  next : s.nextSize = if s.idx = 0 then 0 else typeSize config.types (s.idx - 1)
  next_le : s.nextSize ≤ 8 * r
  above : s.idx < config.types.length → 8 * r < typeSize config.types s.idx
  least : ∀ j, r ≤ j → j < MAX_NUM_OF_RUN_TYPES → 8 * (j + 1) ≤ RUN_ALLOC_LARGE_SIZE →
    Least config.types (8 * (j + 1)) (s.size2Idx j)
  kept : ∀ j, RUN_ALLOC_LARGE_SIZE < 8 * (j + 1) → s.size2Idx j = size2Idx j

/-- The sizes of the run types before one are below its size. -/
theorem typeSize_lt (config : RunTypes) {i j : Nat} (h : i < j) (hj : j < config.types.length) :
    typeSize config.types i < typeSize config.types j :=
  config.ascending i j h hj

/-- No slot is larger than the largest size of the small allocator. -/
theorem typeSize_le_largest (config : RunTypes) {i : Nat} (h : i < config.types.length) :
    typeSize config.types i ≤ RUN_ALLOC_LARGE_SIZE := by
  rw [← config.largest]
  rcases Nat.eq_or_lt_of_le (Nat.le_sub_one_of_lt h) with heq | hlt
  · rw [heq]
  · have hlast : config.types.length - 1 < config.types.length := by omega
    exact Nat.le_of_lt (typeSize_lt config hlt hlast)

/-- The next size is aligned, so that one that is below a multiple of eight is below the one
    before. -/
theorem Filled.next_dvd {r : Nat} (h : Filled config size2Idx r s) : 8 ∣ s.nextSize := by
  have hidx := h.idx_le
  rw [h.next]
  split
  · exact Nat.dvd_zero 8
  · exact config.aligned _ (by omega)

/-! ### What a round does -/

section Rounds

variable {types : List RunType} {r : Nat}

/-- The sizes are multiples of 8. -/
theorem shiftLeft_three (r : Nat) : (r + 1) <<< 3 = 8 * (r + 1) := by
  rw [Nat.shiftLeft_eq]
  omega

/-- A size above the next run type's. -/
theorem fillRound_above (habove : s.nextSize < 8 * (r + 1)) : fillRound types r s =
    .ok { s with size2Idx :=
      if s.idx < types.length then Function.update s.size2Idx r s.idx else s.size2Idx } := by
  rw [fillRound, shiftLeft_three, if_pos habove]
  by_cases hmet : s.idx < types.length
  · rw [if_pos hmet, if_pos hmet]
  · rw [if_neg hmet, if_neg hmet]

/-- The size of the next run type. -/
theorem fillRound_exact (heq : 8 * (r + 1) = s.nextSize) (hpos : s.idx ≠ 0)
    (hle : s.idx ≤ types.length)
    (hlt : s.idx - 1 ≠ 0 → typeSize types (s.idx - 1 - 1) < s.nextSize) :
    fillRound types r s =
      .ok ⟨s.idx - 1, if s.idx - 1 = 0 then 0 else typeSize types (s.idx - 1 - 1),
        Function.update s.size2Idx r (s.idx - 1)⟩ := by
  rw [fillRound, shiftLeft_three, if_neg (by omega), if_neg (not_not.mpr heq), if_neg hpos]
  by_cases hlast : s.idx - 1 = 0
  · rw [if_pos hlast]
    exact if_neg fun h => absurd hlast (Nat.ne_of_gt h.1)
  · rw [if_neg hlast]
    exact (if_pos ⟨Nat.pos_of_ne_zero hlast, by omega⟩).trans (if_pos (hlt hlast))

end Rounds

/-- The entries after a write for the size of this round. -/
theorem Filled.least_update {r idx : Nat} (h : Filled config size2Idx (r + 1) s)
    (hidx : 8 * (r + 1) ≤ RUN_ALLOC_LARGE_SIZE → Least config.types (8 * (r + 1)) idx) :
    ∀ j, r ≤ j → j < MAX_NUM_OF_RUN_TYPES → 8 * (j + 1) ≤ RUN_ALLOC_LARGE_SIZE →
      Least config.types (8 * (j + 1)) (Function.update s.size2Idx r idx j) := by
  intro j hj hlt hsize
  rcases Nat.eq_or_lt_of_le hj with rfl | hlater
  · rw [Function.update_self]
    exact hidx hsize
  · rw [Function.update_of_ne (Nat.ne_of_gt hlater)]
    exact h.least j hlater hlt hsize

/-- A write below the largest size leaves the entries behind it. -/
theorem Filled.kept_update {r idx : Nat} (h : Filled config size2Idx (r + 1) s)
    (hsize : 8 * (r + 1) ≤ RUN_ALLOC_LARGE_SIZE) :
    ∀ j, RUN_ALLOC_LARGE_SIZE < 8 * (j + 1) →
      Function.update s.size2Idx r idx j = size2Idx j := by
  intro j hj
  rw [Function.update_of_ne (by rintro rfl; omega)]
  exact h.kept j hj

/-- **A round.**  Either the size is above the next run type's, and goes to the last one that was
    met; or it is the next run type's own size. -/
theorem fillRound_filled {r : Nat} (hr : r < MAX_NUM_OF_RUN_TYPES)
    (h : Filled config size2Idx (r + 1) s) :
    ∃ s', fillRound config.types r s = .ok s' ∧ Filled config size2Idx r s' := by
  have hidx := h.idx_le
  have hnext := h.next
  have hle := h.next_le
  obtain ⟨c, hc⟩ := h.next_dvd
  have hnonempty := config.nonempty
  by_cases habove : s.nextSize < 8 * (r + 1)
  · -- between the run types, or above all of them
    have hnextLe : s.nextSize ≤ 8 * r := by omega
    refine ⟨_, fillRound_above habove, ?_⟩
    -- all sizes so far have a type, or the largest type was passed
    by_cases hmet : s.idx < config.types.length
    · have hroom := h.above hmet
      have hsize := typeSize_le_largest config hmet
      have hleast : Least config.types (8 * (r + 1)) s.idx := by
        refine ⟨hmet, Nat.le_of_lt hroom, fun j hj => ?_⟩
        rw [if_neg (Nat.ne_of_gt (Nat.zero_lt_of_lt hj))] at hnext
        rcases Nat.eq_or_lt_of_le (Nat.le_sub_one_of_lt hj) with heq | hlt
        · rw [heq]
          omega
        · have := typeSize_lt config hlt (show s.idx - 1 < config.types.length by omega)
          omega
      rw [if_pos hmet]
      refine ⟨hidx, hnext, hnextLe, fun _ => ?_, h.least_update fun _ => hleast,
        h.kept_update (by omega)⟩
      show 8 * r < typeSize config.types s.idx
      omega
    · have hall : s.idx = config.types.length := by omega
      have hnext' := hnext
      rw [if_neg (by omega), hall, config.largest] at hnext'
      rw [if_neg hmet]
      refine ⟨hidx, hnext, hnextLe, fun hlt => absurd hlt hmet, fun j hj hlt hsize => ?_, h.kept⟩
      rcases Nat.eq_or_lt_of_le hj with rfl | hlater
      · exact absurd hsize (by omega)
      · exact h.least j hlater hlt hsize
  · -- the size of the next run type
    have heq : 8 * (r + 1) = s.nextSize := by omega
    have hpos : s.idx ≠ 0 := by
      intro hzero
      rw [if_pos hzero] at hnext
      omega
    rw [if_neg hpos] at hnext
    have hprev : s.idx - 1 < config.types.length := by omega
    have hsize := typeSize_le_largest config hprev
    have hsmaller : ∀ j, j < s.idx - 1 → typeSize config.types j < s.nextSize := by
      intro j hj
      rw [hnext]
      exact typeSize_lt config hj hprev
    have hleast : Least config.types (8 * (r + 1)) (s.idx - 1) :=
      ⟨hprev, by omega, fun j hj => heq ▸ hsmaller j hj⟩
    refine ⟨_, fillRound_exact heq hpos hidx fun hmore => hsmaller _ (by omega),
      Nat.le_of_lt hprev, rfl, ?_, fun _ => ?_, h.least_update fun _ => hleast,
      h.kept_update (by omega)⟩
    · show (if s.idx - 1 = 0 then 0 else typeSize config.types (s.idx - 1 - 1)) ≤ 8 * r
      split
      · exact Nat.zero_le _
      · have hlt := hsmaller (s.idx - 1 - 1) (by omega)
        obtain ⟨d, hd⟩ := config.aligned (s.idx - 1 - 1) (by omega)
        omega
    · show 8 * r < typeSize config.types (s.idx - 1)
      omega

/-- All rounds. -/
theorem fillLoop_filled : ∀ (i : Nat) (s : Fill), i < MAX_NUM_OF_RUN_TYPES →
    Filled config size2Idx (i + 1) s →
    ∃ s', fillLoop config.types i s = .ok s' ∧ Filled config size2Idx 0 s' := by
  intro i
  induction i with
  | zero =>
    intro s hi h
    exact fillRound_filled hi h
  | succ i ih =>
    intro s hi h
    obtain ⟨s', hs', hfilled⟩ := fillRound_filled hi h
    obtain ⟨s'', hs'', hend⟩ := ih s' (by omega) hfilled
    refine ⟨s'', ?_, hend⟩
    rw [fillLoop, hs']
    exact hs''

/-- Where a size is looked up. -/
theorem sizeToRunIdx_eq {size : Nat} (hdvd : 8 ∣ size) (hpos : 0 < size)
    (hle : size ≤ RUN_ALLOC_LARGE_SIZE) :
    ∃ j, size = 8 * (j + 1) ∧ j < MAX_NUM_OF_RUN_TYPES ∧ ∀ map : Nat → Nat,
      sizeToRunIdx map size = map j := by
  obtain ⟨k, rfl⟩ := hdvd
  obtain ⟨j, rfl⟩ := Nat.exists_eq_succ_of_ne_zero (show k ≠ 0 by omega)
  have hj : 8 * (j + 1) ≤ 2016 := hle
  refine ⟨j, rfl, show j < 256 by omega, fun map => ?_⟩
  have hshift : (8 * (j + 1)) >>> 3 = j + 1 := by omega
  show map (Words.sub 64 ((8 * (j + 1)) >>> 3) 1) = map j
  rw [hshift, Words.sub_eq (Nat.le_add_left 1 j) (by omega), Nat.add_sub_cancel]

/-- After all rounds, every size has its run type. -/
theorem Filled.lookup (h : Filled config size2Idx 0 s) {size : Nat} (hdvd : 8 ∣ size)
    (hpos : 0 < size) (hle : size ≤ RUN_ALLOC_LARGE_SIZE) :
    Least config.types size (sizeToRunIdx s.size2Idx size) := by
  obtain ⟨j, rfl, hj, hmap⟩ := sizeToRunIdx_eq hdvd hpos hle
  rw [hmap]
  exact h.least j (Nat.zero_le j) hj hle

/-- The size of a run type is mapped to it. -/
theorem Filled.lookup_typeSize (h : Filled config size2Idx 0 s) {idx : Nat}
    (hidx : idx < config.types.length) (hpos : 0 < typeSize config.types idx) :
    sizeToRunIdx s.size2Idx (typeSize config.types idx) = idx :=
  (h.lookup (config.aligned idx hidx) hpos (typeSize_le_largest config hidx)).unique
    ⟨hidx, Nat.le_refl _, fun j hj => typeSize_lt config hj hidx⟩

/-- The function as a whole: no assertion fails. -/
theorem initRunTypeMap_filled (config : RunTypes) (size2Idx : Nat → Nat) :
    ∃ s, initRunTypeMap config.types size2Idx = .ok s.size2Idx ∧ Filled config size2Idx 0 s := by
  have hcount := config.count_le
  have hnonempty := config.nonempty
  have hlargest := config.largest
  have hlast : config.types.length - 1 < config.types.length := by omega
  have hstart : Filled config size2Idx MAX_NUM_OF_RUN_TYPES
      ⟨config.types.length, typeSize config.types (config.types.length - 1), size2Idx⟩ := by
    refine ⟨Nat.le_refl _, ?_, ?_, fun hlt => absurd hlt (lt_irrefl _), fun j hj hlt => ?_,
      fun j _ => rfl⟩
    · show _ = if config.types.length = 0 then 0 else _
      rw [if_neg (by omega)]
    · show typeSize config.types (config.types.length - 1) ≤ 8 * 256
      rw [hlargest]
      decide
    · exact absurd hlt (Nat.not_lt.mpr hj)
  obtain ⟨s, hs, hfilled⟩ := fillLoop_filled (MAX_NUM_OF_RUN_TYPES - 1) _ (by decide) hstart
  refine ⟨s, ?_, hfilled⟩
  -- the last assertion: the largest size has the last run type
  have hlookup := hfilled.lookup_typeSize hlast (by rw [hlargest]; decide)
  rw [initRunTypeMap, if_neg (not_not.mpr hcount), if_neg (by rw [hlargest]; decide), hs]
  show (if sizeToRunIdx s.size2Idx RUN_ALLOC_LARGE_SIZE + 1 = config.types.length then _ else _) = _
  rw [← hlargest, hlookup, if_pos (by omega)]

/-- **The map of sizes to run types.**  For run types as the assertions want them, and whatever the
    table held, no assertion fails; every size up to the largest gets the smallest run type with
    room for it, and the entries of larger sizes are not touched. -/
theorem initRunTypeMap_least (config : RunTypes) (size2Idx : Nat → Nat) :
    ∃ map, initRunTypeMap config.types size2Idx = .ok map ∧
      (∀ size, 8 ∣ size → 0 < size → size ≤ RUN_ALLOC_LARGE_SIZE →
        Least config.types size (sizeToRunIdx map size)) ∧
      ∀ j, RUN_ALLOC_LARGE_SIZE < 8 * (j + 1) → map j = size2Idx j := by
  obtain ⟨s, hs, hfilled⟩ := initRunTypeMap_filled config size2Idx
  exact ⟨s.size2Idx, hs, fun size => hfilled.lookup, hfilled.kept⟩

end Loop

/-! ## The run types of the allocator -/

/-- The types of the allocator, as the source has them. -/
def runTypes : RunTypes where
  types := TYPES
  count_le := by decide
  ascending := by
    have hpairs : ∀ j < 53, ∀ i < j, typeSize TYPES i < typeSize TYPES j := by decide +kernel
    exact fun i j hij hj => hpairs j hj i hij
  aligned := by decide
  nonempty := by decide
  largest := by decide

/-- The local run types come in steps of eight from 16 on. -/
theorem typeSize_local : ∀ i < 12, typeSize TYPES i = 8 * (i + 2) := by decide

/-- **The ways to an index agree**, for the run types of the allocator and whatever the table held:
    the fast index is the index of the table for every size up to 104, and looking up the size of
    a run type gives the run type. -/
theorem fastRunIdx_agrees (size2Idx : Nat → Nat) :
    ∃ map, initRunTypeMap TYPES size2Idx = .ok map ∧
      (∀ size, 8 ∣ size → 16 ≤ size → size ≤ RUN_ALLOC_SMALL_SIZE →
        fastRunIdx size = sizeToRunIdx map size) ∧
      ∀ idx < TYPES.length, sizeToRunIdx map (typeSize TYPES idx) = idx := by
  obtain ⟨s, hs, hfilled⟩ := initRunTypeMap_filled runTypes size2Idx
  have hpositive : ∀ idx < TYPES.length, 0 < typeSize TYPES idx := by decide
  refine ⟨s.size2Idx, hs, fun size hdvd hlow hhigh => ?_, fun idx hidx =>
    hfilled.lookup_typeSize hidx (hpositive idx hidx)⟩
  obtain ⟨k, rfl⟩ := hdvd
  have hk : 8 * k ≤ 104 := hhigh
  have hfast : fastRunIdx (8 * k) = k - 2 := by
    have hshift : (8 * k) >>> 3 = k := by omega
    rw [fastRunIdx, hshift, Words.sub_eq (by omega) (by omega)]
  -- the run type `k - 2` has that very size
  have hsize := typeSize_local (k - 2) (by omega)
  have hidx : k - 2 < TYPES.length := Nat.lt_trans (show k - 2 < 12 by omega) (by decide)
  have hexact : 8 * k = typeSize TYPES (k - 2) := by omega
  rw [hfast, hexact]
  exact (hfilled.lookup_typeSize hidx (hpositive _ hidx)).symm

end RunType

end CangjieRuntime.Common
