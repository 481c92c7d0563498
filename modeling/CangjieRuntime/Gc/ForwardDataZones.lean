/-
  The zones of the forward data neither overlap nor overflow.

  A zone is a bump allocator (`Bump.Stacked`), whatever the order of the threads' `fetch_add`s.  So
  all that is left is the sum of the sizes: a region of `k` pages takes at most 32 bytes of the
  first zone and `3 * (48 + 64 * k)` of the second, the zones were given 32 and 336 bytes for every
  page of the heap, and `k` is at least one (`Fair.sum_le`).
-/
import CangjieRuntime.Gc.ForwardData

set_option linter.unusedVariables false

namespace CangjieRuntime.Gc

open Runs Bump

namespace ForwardData

/-! ## The layout -/

/-- Where nothing wraps, the size is rounded up to the next page. -/
theorem allocUtilRndUp_eq {x : Nat} (h : x + (ALLOC_UTIL_PAGE_SIZE - 1) < 2 ^ 64) :
    allocUtilRndUp x ALLOC_UTIL_PAGE_SIZE =
      (x + (ALLOC_UTIL_PAGE_SIZE - 1)) / ALLOC_UTIL_PAGE_SIZE * ALLOC_UTIL_PAGE_SIZE := by
  simp only [ALLOC_UTIL_PAGE_SIZE] at h ⊢
  have hpad : Words.sub 64 (Words.add 64 x 4096) 1 = x + (4096 - 1) := by
    by_cases hwrap : x + 4096 = 2 ^ 64
    · rw [Words.add, hwrap]
      simp only [Words.sub]
      omega
    · rw [Words.add_eq (by omega), Words.sub_eq (by omega) (by omega)]
      omega
  rw [allocUtilRndUp, allocUtilRndDown, hpad]
  exact Words.and_neg_two_pow (k := 12) h (by decide)

/-- The live infos of all pages fit into a space. -/
theorem le_spaceSize (heapSize : Nat) : pages heapSize * 368 ≤ spaceSize heapSize := by
  simp only [spaceSize, ALLOC_UTIL_PAGE_SIZE]
  omega

/-- Where a space starts. -/
def spaceStart (heapSize startAddress tag : Nat) : Nat :=
  startAddress + tag * spaceSize heapSize

/-- Where a zone starts. -/
def zoneStart (heapSize startAddress tag : Nat) : Zone → Nat
  | .liveInfo => spaceStart heapSize startAddress tag
  | .bitmap => spaceStart heapSize startAddress tag + pages heapSize * LIVE_INFO_SIZE

/-- Where a zone ends: at the next zone, at the end of the space. -/
def zoneEnd (heapSize startAddress tag : Nat) : Zone → Nat
  | .liveInfo => zoneStart heapSize startAddress tag .bitmap
  | .bitmap => spaceStart heapSize startAddress tag + spaceSize heapSize

variable {heapSize startAddress : Nat}

/-- Under the condition no product of the sizes wraps. -/
theorem NoWrap.getLiveInfoDataSize_eq (h : NoWrap heapSize startAddress) :
    getLiveInfoDataSize heapSize = (pages heapSize, pages heapSize * 368) := by
  have hend := h.mapping
  have hle := le_spaceSize heapSize
  have hunits : allocUtilRndUp heapSize ALLOC_UTIL_PAGE_SIZE / ALLOC_UTIL_PAGE_SIZE =
      pages heapSize := by
    rw [allocUtilRndUp_eq h.heap, Nat.mul_div_cancel _ (by decide), pages]
  have hone : Words.add 64 LIVE_INFO_SIZE (Words.mul 64
      (Words.add 64 REGION_BITMAP_SIZE (ALLOC_UTIL_PAGE_SIZE / 64)) 3) = 368 := by decide
  simp only [getLiveInfoDataSize, hunits, hone]
  rw [Words.mul_eq (by omega)]

/-- Nor does the sum in the rounding. -/
theorem NoWrap.liveInfoSize_eq (h : NoWrap heapSize startAddress) :
    allocUtilRndUp (pages heapSize * 368) ALLOC_UTIL_PAGE_SIZE = spaceSize heapSize := by
  rw [allocUtilRndUp_eq h.data, spaceSize]

/-- A space after its initialisation. -/
theorem spaceInitialize_eq {start : Nat} (h : start + pages heapSize * LIVE_INFO_SIZE < 2 ^ 64) :
    spaceInitialize start (spaceSize heapSize) (pages heapSize) =
      { allocZone := fun
          | .liveInfo => ⟨start, start⟩
          | .bitmap => ⟨start + pages heapSize * LIVE_INFO_SIZE,
              start + pages heapSize * LIVE_INFO_SIZE⟩
        startAddress := start
        size := spaceSize heapSize } := by
  have hmul : Words.mul 64 (pages heapSize) LIVE_INFO_SIZE = pages heapSize * LIVE_INFO_SIZE :=
    Words.mul_eq (lt_of_le_of_lt (Nat.le_add_left _ _) h)
  rw [spaceInitialize]
  congr 1
  funext zone
  cases zone with
  | liveInfo => rfl
  | bitmap => simp only [hmul, Words.add_eq h]

/-- The manager after its initialisation. -/
theorem NoWrap.liveInfoData_eq (h : NoWrap heapSize startAddress) {tag : Nat} (htag : tag < 2) :
    (initializeForCapacity heapSize startAddress).liveInfoData tag =
      { allocZone := fun zone => ⟨zoneStart heapSize startAddress tag zone,
          zoneStart heapSize startAddress tag zone⟩
        startAddress := spaceStart heapSize startAddress tag
        size := spaceSize heapSize } := by
  have hend := h.mapping
  have hle := le_spaceSize heapSize
  have hzones : ∀ start, start + pages heapSize * LIVE_INFO_SIZE < 2 ^ 64 →
      start = spaceStart heapSize startAddress tag →
      spaceInitialize start (spaceSize heapSize) (pages heapSize) =
      { allocZone := fun zone => ⟨zoneStart heapSize startAddress tag zone,
          zoneStart heapSize startAddress tag zone⟩
        startAddress := spaceStart heapSize startAddress tag
        size := spaceSize heapSize } := by
    rintro start hlt rfl
    rw [spaceInitialize_eq hlt]
    congr 1
    funext zone
    cases zone <;> rfl
  simp only [initializeForCapacity, h.getLiveInfoDataSize_eq, h.liveInfoSize_eq]
  simp only [LIVE_INFO_SIZE] at hzones
  match tag with
  | 0 => exact hzones startAddress (by omega) (by simp [spaceStart])
  | 1 =>
    have hadd : Words.add 64 startAddress (spaceSize heapSize) =
        startAddress + spaceSize heapSize := Words.add_eq (by omega)
    show spaceInitialize (Words.add 64 startAddress (spaceSize heapSize)) _ _ = _
    rw [hadd]
    exact hzones _ (by omega) (by simp [spaceStart])

/-- A zone ends at an address of 64 bits. -/
theorem zoneEnd_lt (h : NoWrap heapSize startAddress) {tag : Nat} (htag : tag < 2) (zone : Zone) :
    zoneEnd heapSize startAddress tag zone < 2 ^ 64 := by
  have hend := h.mapping
  have hle := le_spaceSize heapSize
  have hmul : tag * spaceSize heapSize ≤ 1 * spaceSize heapSize :=
    Nat.mul_le_mul_right _ (by omega)
  cases zone <;> simp only [zoneEnd, zoneStart, spaceStart, LIVE_INFO_SIZE] <;> omega

/-! ## The worst case -/

/-- What a zone was given for every page of the heap. -/
def Zone.perPage : Zone → Nat
  | .liveInfo => LIVE_INFO_SIZE
  | .bitmap => 3 * (REGION_BITMAP_SIZE + ALLOC_UTIL_PAGE_SIZE / 64)

/-- A zone has room for the records of all pages. -/
theorem perPage_le (heapSize startAddress tag : Nat) (zone : Zone) :
    zoneStart heapSize startAddress tag zone + zone.perPage * pages heapSize ≤
      zoneEnd heapSize startAddress tag zone := by
  have hle := le_spaceSize heapSize
  cases zone <;>
    simp only [zoneEnd, zoneStart, Zone.perPage, LIVE_INFO_SIZE, REGION_BITMAP_SIZE,
      ALLOC_UTIL_PAGE_SIZE] <;> omega

/-- The bitmap of a region: its header, and 64 bytes for a page. -/
theorem regionBitmapSize_eq {k : Nat} (h : 4096 * k < 2 ^ 64 - 4095) :
    regionBitmapSize (4096 * k) = 48 + 64 * k := by
  have hwords : 4096 * k / (RegionBitmap.MARKED_BYTES_PER_BIT * RegionBitmap.BITS_PER_WORD) =
      8 * k := by
    simp only [RegionBitmap.MARKED_BYTES_PER_BIT, RegionBitmap.BITS_PER_WORD]
    omega
  rw [regionBitmapSize, hwords, Words.mul_eq (by omega), Words.add_eq (by omega)]
  omega

/-- A region's share of a zone is paid for by its pages. -/
theorem share_mul_recordSize_le {regionSize : Nat} (hpos : 0 < regionSize)
    (hpages : ALLOC_UTIL_PAGE_SIZE ∣ regionSize) (hlt : regionSize < 2 ^ 64 - 4095)
    (zone : Zone) :
    zone.share * zone.recordSize regionSize ≤
      zone.perPage * (regionSize / ALLOC_UTIL_PAGE_SIZE) := by
  obtain ⟨k, rfl⟩ := hpages
  simp only [ALLOC_UTIL_PAGE_SIZE] at hpos hlt ⊢
  rw [Nat.mul_div_cancel_left k (by decide)]
  cases zone with
  | liveInfo =>
    simp only [Zone.share, Zone.recordSize, Zone.perPage, LIVE_INFO_SIZE]
    omega
  | bitmap =>
    simp only [Zone.share, Zone.recordSize, Zone.perPage, REGION_BITMAP_SIZE,
      ALLOC_UTIL_PAGE_SIZE, regionBitmapSize_eq hlt]
    omega

section Fair

variable {ρ : Type} [DecidableEq ρ] {regionSize : ρ → Nat} {zone : Zone} {regions : List ρ}

/-- The pages of the regions are among those of the heap. -/
theorem Fair.sum_pages_le (h : Fair heapSize regionSize zone regions) :
    ∑ r ∈ regions.toFinset, regionSize r / ALLOC_UTIL_PAGE_SIZE ≤ pages heapSize := by
  have hmul : (∑ r ∈ regions.toFinset, regionSize r / ALLOC_UTIL_PAGE_SIZE) *
      ALLOC_UTIL_PAGE_SIZE = ∑ r ∈ regions.toFinset, regionSize r := by
    rw [Finset.sum_mul]
    refine Finset.sum_congr rfl fun r hr => ?_
    exact Nat.div_mul_cancel (h.sizes r (List.mem_toFinset.mp hr)).2
  have hfits := h.fits
  rw [← hmul] at hfits
  simp only [pages, ALLOC_UTIL_PAGE_SIZE] at hfits ⊢
  omega

/-- **The worst case.**  Fair records fit what the zone was given.  No region asks for more than its
    share of records, and its share is at most what the zone was given for the pages of the region.
    -/
theorem Fair.sum_le (hheap : heapSize + (ALLOC_UTIL_PAGE_SIZE - 1) < 2 ^ 64)
    (h : Fair heapSize regionSize zone regions) :
    (regions.map fun r => zone.recordSize (regionSize r)).sum ≤ zone.perPage * pages heapSize :=
  calc (regions.map fun r => zone.recordSize (regionSize r)).sum
      = ∑ r ∈ regions.toFinset, regions.count r • zone.recordSize (regionSize r) :=
        Finset.sum_list_map_count _ _
    _ ≤ ∑ r ∈ regions.toFinset, zone.perPage * (regionSize r / ALLOC_UTIL_PAGE_SIZE) := by
        refine Finset.sum_le_sum fun r hr => ?_
        obtain ⟨hpos, hpages⟩ := h.sizes r (List.mem_toFinset.mp hr)
        have hle : regionSize r ≤ heapSize :=
          (Finset.single_le_sum (f := regionSize) (fun _ _ => Nat.zero_le _) hr).trans h.fits
        have hlt : regionSize r < 2 ^ 64 - 4095 := by
          simp only [ALLOC_UTIL_PAGE_SIZE] at hheap
          omega
        exact (Nat.mul_le_mul_right _ (h.share r)).trans
          (share_mul_recordSize_le hpos hpages hlt zone)
    _ = zone.perPage * ∑ r ∈ regions.toFinset, regionSize r / ALLOC_UTIL_PAGE_SIZE :=
        (Finset.mul_sum _ _ _).symm
    _ ≤ zone.perPage * pages heapSize := Nat.mul_le_mul_left _ h.sum_pages_le

end Fair

/-! ## The invariant -/

/-- The tag a thread works with. -/
def Pc.tag {ρ : Type} : Pc ρ → Nat
  | .idle => 0
  | .allocate tag _ _ => tag
  | .reset tag _ => tag

/-- A zone with its records: the records fill it from its start to its position. -/
structure Filled {ρ : Type} [DecidableEq ρ] (heapSize : Nat) (regionSize : ρ → Nat) (start : Nat)
    (zone : Zone) (value : ForwardDataZone) (records : List (Record ρ)) : Prop where
  first : value.zoneStartAddress = start
  stacked : Stacked Record.address Record.size start value.zonePosition records
  size : ∀ r ∈ records, r.size = zone.recordSize (regionSize r.region)
  fair : Fair heapSize regionSize zone (records.map Record.region)

section Machine

variable {τ ρ : Type} [DecidableEq τ] [DecidableEq ρ] {regionSize : ρ → Nat}

/-- The spaces are where they were laid out, and each zone is filled, up to its position, with the
    records it handed out. -/
structure Inv (heapSize startAddress : Nat) (regionSize : ρ → Nat) (s : State τ ρ) : Prop where
  tag : s.manager.currentTagID < 2
  pc : ∀ t, (s.pc t).tag < 2
  space : ∀ tag < 2, (s.manager.liveInfoData tag).startAddress =
      spaceStart heapSize startAddress tag ∧
    (s.manager.liveInfoData tag).size = spaceSize heapSize
  filled : ∀ tag < 2, ∀ zone, Filled heapSize regionSize
    (zoneStart heapSize startAddress tag zone) zone
    ((s.manager.liveInfoData tag).allocZone zone) (s.records tag zone)

/-- A zone that served no region has handed out nothing. -/
theorem Fair.nil (heapSize : Nat) (regionSize : ρ → Nat) (zone : Zone) :
    Fair heapSize regionSize zone [] where
  share := fun r => Nat.zero_le _
  sizes := fun r hr => absurd hr List.not_mem_nil
  fits := Nat.zero_le _

/-- The position of a filled zone is inside the zone. -/
theorem Filled.position_le (hheap : heapSize + (ALLOC_UTIL_PAGE_SIZE - 1) < 2 ^ 64) {tag : Nat}
    {zone : Zone} {value : ForwardDataZone} {records : List (Record ρ)}
    (h : Filled heapSize regionSize (zoneStart heapSize startAddress tag zone) zone value records) :
    value.zonePosition ≤ zoneEnd heapSize startAddress tag zone := by
  have hsizes : records.map Record.size =
      (records.map Record.region).map fun r => zone.recordSize (regionSize r) := by
    rw [List.map_map]
    exact List.map_congr_left h.size
  have hsum := h.fair.sum_le hheap
  rw [h.stacked.position_eq, hsizes]
  exact (Nat.add_le_add_left hsum _).trans (perPage_le heapSize startAddress tag zone)

/-! ## One atomic operation -/

section Update

variable {s : State τ ρ} {tag : Nat} {zone : Zone} {position : Nat} {records : List (Record ρ)}

omit [DecidableEq τ] in
/-- A zone's position is stored together with its records. -/
theorem Inv.store (h : Inv heapSize startAddress regionSize s) (htag : tag < 2)
    (hfilled : Filled heapSize regionSize (zoneStart heapSize startAddress tag zone) zone
      { (s.manager.liveInfoData tag).allocZone zone with zonePosition := position } records) :
    let manager := s.manager.setSpace tag ((s.manager.liveInfoData tag).store zone position)
    Inv heapSize startAddress regionSize ({ s with manager }.setRecords tag zone records) where
  tag := h.tag
  pc := h.pc
  space := fun tag' htag' => by
    show (Function.update s.manager.liveInfoData tag _ tag').startAddress = _ ∧
      (Function.update s.manager.liveInfoData tag _ tag').size = _
    by_cases heq : tag' = tag
    · subst heq
      rw [Function.update_self]
      exact h.space tag' htag'
    · rw [Function.update_of_ne heq]
      exact h.space tag' htag'
  filled := fun tag' htag' zone' => by
    show Filled heapSize regionSize _ zone'
      ((Function.update s.manager.liveInfoData tag _ tag').allocZone zone')
      (Function.update s.records tag _ tag' zone')
    by_cases heq : tag' = tag
    · subst heq
      rw [Function.update_self, Function.update_self]
      show Filled heapSize regionSize _ zone'
        (Function.update (s.manager.liveInfoData tag').allocZone zone _ zone') _
      by_cases hzone : zone' = zone
      · subst hzone
        rw [Function.update_self, Function.update_self]
        exact hfilled
      · rw [Function.update_of_ne hzone, Function.update_of_ne hzone]
        exact h.filled tag' htag' zone'
    · rw [Function.update_of_ne heq, Function.update_of_ne heq]
      exact h.filled tag' htag' zone'

/-- A step of a thread alone keeps what the zones hold. -/
theorem Inv.goto (h : Inv heapSize startAddress regionSize s) {t : τ} {pc : Pc ρ}
    (hpc : pc.tag < 2) : Inv heapSize startAddress regionSize (s.goto t pc) where
  tag := h.tag
  space := h.space
  filled := h.filled
  pc := fun u => by
    show (Function.update s.pc t pc u).tag < 2
    by_cases hu : u = t
    · rw [hu, Function.update_self]
      exact hpc
    · rw [Function.update_of_ne hu]
      exact h.pc u

end Update

/-- The other one of the two tags is a tag. -/
theorem previous_lt {tag : Nat} (h : tag < 2) : tag ^^^ 1 < 2 := by
  match tag with
  | 0 => decide
  | 1 => decide

/-- **One action.**  A lawful action does not fail, and keeps the invariant.  An allocation is the
    only action that moves a bump pointer up, and a reset takes away all records of its zone. -/
theorem Inv.step (hwrap : NoWrap heapSize startAddress) {s : State τ ρ}
    (h : Inv heapSize startAddress regionSize s) {a : Action τ ρ}
    (hlaw : a.Lawful heapSize regionSize s) :
    ∃ s', exec regionSize s a = .ok s' ∧ Inv heapSize startAddress regionSize s' := by
  cases a with
  | setTagID id => exact ⟨_, rfl, { h with tag := hlaw }⟩
  | allocate t zone region =>
    simp only [exec]
    cases hpc : s.pc t with
    | idle => exact ⟨_, rfl, h.goto h.tag⟩
    | allocate _ _ _ => exact ⟨_, rfl, h⟩
    | reset _ _ => exact ⟨_, rfl, h⟩
  | clearPrevious t =>
    simp only [exec]
    cases hpc : s.pc t with
    | idle => exact ⟨_, rfl, h.goto (previous_lt h.tag)⟩
    | allocate _ _ _ => exact ⟨_, rfl, h⟩
    | reset _ _ => exact ⟨_, rfl, h⟩
  | atomic t =>
    simp only [exec]
    cases hpc : s.pc t with
    | idle => exact ⟨_, rfl, h⟩
    | allocate tag zone region =>
      have htag : tag < 2 := by
        have := h.pc t
        rw [hpc] at this
        exact this
      have hzone := h.filled tag htag zone
      -- the zone with the new record, its position not yet reduced to 64 bits
      have hnew : Filled heapSize regionSize (zoneStart heapSize startAddress tag zone) zone
          ⟨((s.manager.liveInfoData tag).allocZone zone).zoneStartAddress,
            ((s.manager.liveInfoData tag).allocZone zone).zonePosition +
              zone.recordSize (regionSize region)⟩
          (⟨region, ((s.manager.liveInfoData tag).allocZone zone).zonePosition,
            zone.recordSize (regionSize region)⟩ :: s.records tag zone) :=
        { first := hzone.first
          stacked := hzone.stacked.push (a := ⟨region,
            ((s.manager.liveInfoData tag).allocZone zone).zonePosition,
            zone.recordSize (regionSize region)⟩) rfl
          size := fun r hr => by
            rcases List.mem_cons.mp hr with rfl | hr
            · rfl
            · exact hzone.size r hr
          fair := hlaw tag zone region hpc }
      have hadd := Words.add_eq (lt_of_le_of_lt (hnew.position_le hwrap.heap)
        (zoneEnd_lt hwrap htag zone))
      simp only [spaceAllocate, if_pos htag, hadd]
      exact ⟨_, rfl, (h.store htag hnew).goto Nat.two_pos⟩
    | reset tag zone =>
      have htag : tag < 2 := by
        have := h.pc t
        rw [hpc] at this
        exact this
      have hzone := h.filled tag htag zone
      simp only [resetZone, if_pos htag]
      refine ⟨_, rfl, (h.store htag ?_).goto ?_⟩
      · exact
          { first := hzone.first
            stacked := hzone.first
            size := fun r hr => absurd hr List.not_mem_nil
            fair := Fair.nil heapSize regionSize zone }
      · cases zone with
        | liveInfo => exact htag
        | bitmap => exact Nat.two_pos

omit [DecidableEq τ] in
/-- After the initialization no zone has handed out anything. -/
theorem inv_init (hwrap : NoWrap heapSize startAddress) (regionSize : ρ → Nat) :
    Inv heapSize startAddress regionSize (⟨initializeForCapacity heapSize startAddress,
      fun _ => .idle, fun _ _ => []⟩ : State τ ρ) where
  tag := Nat.two_pos
  pc := fun _ => Nat.two_pos
  space := fun tag htag => by
    rw [hwrap.liveInfoData_eq htag]
    exact ⟨rfl, rfl⟩
  filled := fun tag htag zone => by
    rw [hwrap.liveInfoData_eq htag]
    exact ⟨rfl, rfl, fun r hr => absurd hr List.not_mem_nil, Fair.nil heapSize regionSize zone⟩

/-! ## Every run -/

/-- The invariant holds in every run of the two spaces. -/
theorem machine_invariant (heapSize : Nat) (regionSize : ρ → Nat) :
    (machine heapSize regionSize τ).Invariant fun s =>
      ∃ startAddress, NoWrap heapSize startAddress ∧
        Inv heapSize startAddress regionSize s where
  init := by
    rintro s ⟨startAddress, hwrap, rfl⟩
    exact ⟨startAddress, hwrap, inv_init hwrap regionSize⟩
  step := by
    rintro s a s' ⟨startAddress, hwrap, hinv⟩ ⟨hlaw, hexec⟩
    obtain ⟨s'', hs'', hinv''⟩ := hinv.step hwrap hlaw
    rw [hs''] at hexec
    obtain rfl := Except.ok.inj hexec
    exact ⟨startAddress, hwrap, hinv''⟩

end Machine

/-- The addresses of a zone, from the fields of its space. -/
def ForwardDataSpace.zoneRange (space : ForwardDataSpace) : Zone → Set Nat
  | .liveInfo => Set.Ico (space.allocZone .liveInfo).zoneStartAddress
      (space.allocZone .bitmap).zoneStartAddress
  | .bitmap => Set.Ico (space.allocZone .bitmap).zoneStartAddress
      (space.startAddress + space.size)

/-- What the zones owe: in each of the two spaces, the records handed out since the last reset. -/
structure Safe {τ ρ : Type} (regionSize : ρ → Nat) (s : State τ ρ) : Prop where
  /-- No two zones overlap. -/
  zones : ∀ tag < 2, ∀ tag' < 2, ∀ zone zone', (tag, zone) ≠ (tag', zone') →
    Disjoint ((s.manager.liveInfoData tag).zoneRange zone)
      ((s.manager.liveInfoData tag').zoneRange zone')
  /-- No two records overlap. -/
  disjoint : ∀ tag < 2, ∀ zone, (s.records tag zone).Pairwise fun a b =>
    Disjoint (extent Record.address Record.size a) (extent Record.address Record.size b)
  /-- Every record is inside the zone. -/
  inside : ∀ tag < 2, ∀ zone, ∀ r ∈ s.records tag zone,
    extent Record.address Record.size r ⊆ (s.manager.liveInfoData tag).zoneRange zone
  /-- Every record has the size the region needs: that of a `LiveInfo`, or of a bitmap's header and
      words. -/
  size : ∀ tag < 2, ∀ r, (r ∈ s.records tag .liveInfo → r.size = LIVE_INFO_SIZE) ∧
    (r ∈ s.records tag .bitmap →
      r.size = REGION_BITMAP_SIZE + 8 * (RegionBitmap.construct (regionSize r.region)).wordCnt)

section Machine

variable {τ ρ : Type} [DecidableEq τ] [DecidableEq ρ] {regionSize : ρ → Nat}

/-- The zones of the layout do not overlap. -/
theorem zones_disjoint (heapSize startAddress : Nat) {tag tag' : Nat} (htag : tag < 2)
    (htag' : tag' < 2) {zone zone' : Zone} (hne : (tag, zone) ≠ (tag', zone')) :
    Disjoint (Set.Ico (zoneStart heapSize startAddress tag zone)
        (zoneEnd heapSize startAddress tag zone))
      (Set.Ico (zoneStart heapSize startAddress tag' zone')
        (zoneEnd heapSize startAddress tag' zone')) := by
  have hle := le_spaceSize heapSize
  rw [Set.Ico_disjoint_Ico]
  match tag, tag' with
  | 0, 0 | 1, 1 | 0, 1 | 1, 0 =>
    cases zone <;> cases zone' <;>
      simp only [zoneStart, zoneEnd, spaceStart, LIVE_INFO_SIZE] at * <;>
      first | omega | exact absurd rfl hne

omit [DecidableEq τ] in
/-- The range of a zone is the one it was laid out with. -/
theorem Inv.zoneRange_eq {s : State τ ρ} (h : Inv heapSize startAddress regionSize s) {tag : Nat}
    (htag : tag < 2) (zone : Zone) : (s.manager.liveInfoData tag).zoneRange zone =
      Set.Ico (zoneStart heapSize startAddress tag zone)
        (zoneEnd heapSize startAddress tag zone) := by
  have hlive := (h.filled tag htag .liveInfo).first
  have hbitmap := (h.filled tag htag .bitmap).first
  obtain ⟨hstart, hsize⟩ := h.space tag htag
  cases zone with
  | liveInfo =>
    rw [ForwardDataSpace.zoneRange, hlive, hbitmap]
    rfl
  | bitmap =>
    rw [ForwardDataSpace.zoneRange, hbitmap, hstart, hsize]
    rfl

/-- **The forward data never overlaps or overflows**, whatever the order of the threads' atomic
    operations.  A record is the stretch between two values of the bump pointer, so that the records
    of a zone are apart; that they fit is arithmetic: all regions together ask for no more than the
    zones were given for the pages of the heap. -/
theorem reachable_fits (heapSize : Nat) (regionSize : ρ → Nat) {s : State τ ρ}
    (h : (machine heapSize regionSize τ).Reachable s) : Safe regionSize s := by
  obtain ⟨startAddress, hwrap, hinv⟩ := (machine_invariant heapSize regionSize).reachable h
  refine ⟨fun tag htag tag' htag' zone zone' hne => ?_,
    fun tag htag zone => (hinv.filled tag htag zone).stacked.disjoint,
    fun tag htag zone r hr => ?_, fun tag htag r => ⟨fun hr => ?_, fun hr => ?_⟩⟩
  · rw [hinv.zoneRange_eq htag, hinv.zoneRange_eq htag']
    exact zones_disjoint heapSize startAddress htag htag' hne
  · have hzone := hinv.filled tag htag zone
    rw [hinv.zoneRange_eq htag]
    exact (hzone.stacked.subset hr).trans
      (Set.Ico_subset_Ico_right (hzone.position_le hwrap.heap))
  · exact (hinv.filled tag htag .liveInfo).size r hr
  · have hzone := hinv.filled tag htag .bitmap
    have hmem := List.mem_map_of_mem (f := Record.region) hr
    obtain ⟨-, k, hk⟩ := hzone.fair.sizes _ hmem
    have hfits := (Finset.single_le_sum (f := regionSize) (fun _ _ => Nat.zero_le _)
      (List.mem_toFinset.mpr hmem)).trans hzone.fair.fits
    have hheap := hwrap.heap
    simp only [ALLOC_UTIL_PAGE_SIZE] at hk hheap
    rw [hzone.size r hr, Zone.recordSize, hk, regionBitmapSize_eq (by omega)]
    simp only [RegionBitmap.construct, RegionBitmap.MARKED_BYTES_PER_BIT,
      RegionBitmap.BITS_PER_WORD, REGION_BITMAP_SIZE]
    omega

end Machine

/-- Two threads that take a bitmap each for the only region of a heap of one page; the one that
    started first comes second at the `fetch_add`. -/
theorem reachable_fits_bitmaps : ∃ s : State Bool Unit,
    (machine 4096 (fun _ : Unit => 4096) Bool).Reachable s ∧ Safe (fun _ : Unit => 4096) s ∧
    s.records 0 .bitmap = [⟨(), 65680, 112⟩, ⟨(), 65568, 112⟩] := by
  have step : ∀ {s s' : State Bool Unit} (a : Action Bool Unit),
      (machine 4096 (fun _ : Unit => 4096) Bool).Reachable s →
      a.Lawful 4096 (fun _ => 4096) s → exec (fun _ => 4096) s a = .ok s' →
      (machine 4096 (fun _ : Unit => 4096) Bool).Reachable s' :=
    fun a h hlaw hexec => h.step (e := a) ⟨hlaw, hexec⟩
  have fair : ∀ regions : List Unit, regions.length ≤ 3 →
      Fair 4096 (fun _ => 4096) .bitmap regions := fun regions hlen =>
    { share := fun r => List.count_le_length.trans hlen
      sizes := fun r hr => ⟨by decide, by decide⟩
      fits := by
        rw [Finset.sum_const, smul_eq_mul]
        have := Finset.card_le_univ regions.toFinset
        rw [Fintype.card_unit] at this
        omega }
  have h₀ : (machine 4096 (fun _ : Unit => 4096) Bool).Reachable
      (⟨initializeForCapacity 4096 65536, fun _ => .idle, fun _ _ => []⟩ : State Bool Unit) :=
    .init ⟨65536, ⟨by decide, by decide, by decide⟩, rfl⟩
  have h₁ := step (.allocate true .bitmap ()) h₀ trivial rfl
  have h₂ := step (.allocate false .bitmap ()) h₁ trivial rfl
  have h₃ := step (.atomic false) h₂ (by
    rintro tag zone region h
    obtain ⟨rfl, rfl, rfl⟩ := Pc.allocate.inj h
    exact fair _ (by decide)) rfl
  have h₄ := step (.atomic true) h₃ (by
    rintro tag zone region h
    obtain ⟨rfl, rfl, rfl⟩ := Pc.allocate.inj h
    exact fair _ (by decide)) rfl
  exact ⟨_, h₄, reachable_fits 4096 _ h₄, rfl⟩

end ForwardData

end CangjieRuntime.Gc
