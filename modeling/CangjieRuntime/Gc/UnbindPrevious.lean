/-
  Unbinding and releasing the previous cycle's live info
  (`rt.gc.forwarddata/ForwardDataManager.cj`, `CheckAndClearLiveInfo` of
  `rt.heap.allocator/RegionInfo.cj`).

  A region points to a `LiveInfo` of one of the two spaces, and a `LiveInfo` points back to its
  region.  Before the space of the previous cycle is released, a walk over its `LiveInfo`s follows
  the pointers back and clears those that still point at the record.  The walk visits records, not
  regions: that no region is left with a pointer into the released space holds because every region
  that has one is what its record points back to (`Bound`).  The embedding:

    * the two spaces are 64-bit words by address, of which the walk reads the first one of every
      record; the release makes the words of a space 0, as `madvise` and `memset` both do;
    * the walk has fuel, and its address is a wrapping 64-bit word.
-/
import CangjieRuntime.Gc.ForwardDataZones
import CangjieRuntime.Heap.RegionFields

set_option linter.unusedVariables false

namespace CangjieRuntime.Heap.RegionInfo

abbrev GARBAGE_REGION : Nat := 14

/-- `CheckAndClearLiveInfo` on a region's record. -/
def checkAndClearLiveInfo (m : UnitMetadata) (liveInfo : Nat) : UnitMetadata :=
  if getRegionType m.regionStateBitField = GARBAGE_REGION then m
  else if m.liveInfo = liveInfo then { m with liveInfo := 0, liveByteCount := 0 }
  else m

end CangjieRuntime.Heap.RegionInfo

namespace CangjieRuntime.Gc

open CangjieRuntime.Heap CangjieRuntime.Heap.RegionInfo Runs Bump

namespace ForwardData

/-! ## The two functions -/

/-- The manager, the words of its spaces, and the records of the regions, all by address. -/
structure LiveInfoState where
  manager : ForwardDataManager
  memory : Nat → Nat
  regions : UnitTable

/-- What the two functions can end in. -/
inductive UnbindFault
  | abort
  | outOfFuel
  | space (fault : Fault)
  deriving DecidableEq, Repr

/-- `bindedRegion`, the first word of a `LiveInfo`. -/
def bindedRegion (memory : Nat → Nat) (liveInfo : Nat) : Nat := memory liveInfo

/-- The loop of `ForwardDataUnbindPrevious`. -/
def unbindLoop (memory : Nat → Nat) (position : Nat) :
    Nat → Nat → UnitTable → Except UnbindFault UnitTable
  | 0, _, _ => .error .outOfFuel
  | fuel + 1, current, regions =>
    if current < position then
      let region := bindedRegion memory current
      if region = 0 then .error .abort
      else
        let record := checkAndClearLiveInfo (regions region) current
        unbindLoop memory position fuel (Words.add 64 current LIVE_INFO_SIZE)
          (Function.update regions region record)
    else .ok regions

/-- `ForwardDataUnbindPrevious`. -/
def forwardDataUnbindPrevious (fuel : Nat) (s : LiveInfoState) :
    Except UnbindFault LiveInfoState :=
  let previous := getPreviousTagID s.manager
  if previous < 2 then do
    let zone := (s.manager.liveInfoData previous).allocZone .liveInfo
    let regions ← unbindLoop s.memory zone.zonePosition fuel zone.zoneStartAddress s.regions
    .ok { s with regions := regions }
  else .error (.space .spaceOutOfBounds)

/-- `ForwardDataSpaceReset`. -/
def forwardDataSpaceReset (m : ForwardDataManager) (tag : Nat) :
    Except Fault ForwardDataManager := do
  let m ← resetZone m tag .liveInfo
  resetZone m tag .bitmap

/-- The memory with `size` bytes from `start` on made 0. -/
def zeroed (memory : Nat → Nat) (start size : Nat) : Nat → Nat :=
  fun address => if start ≤ address ∧ address < start + size then 0 else memory address

/-- `ForwardDataSpaceRelease`. -/
def forwardDataSpaceRelease (s : LiveInfoState) (tag : Nat) :
    Except UnbindFault LiveInfoState := do
  let space := s.manager.liveInfoData tag
  let manager ← (forwardDataSpaceReset s.manager tag).mapError .space
  .ok { s with manager := manager, memory := zeroed s.memory space.startAddress space.size }

/-- `ForwardDataClearPrevious`. -/
def forwardDataClearPrevious (s : LiveInfoState) : Except UnbindFault LiveInfoState :=
  forwardDataSpaceRelease s (getPreviousTagID s.manager)

/-- The end of a cycle: the regions are unbound, then the space is released. -/
def unbindAndClearPrevious (fuel : Nat) (s : LiveInfoState) :
    Except UnbindFault LiveInfoState := do
  let s ← forwardDataUnbindPrevious fuel s
  forwardDataClearPrevious s

/-! ## Before and after -/

/-- The addresses of a space. -/
def ForwardDataSpace.range (space : ForwardDataSpace) : Set Nat :=
  Set.Ico space.startAddress (space.startAddress + space.size)

/-- The layout of a manager's two spaces: they are apart, and the `LiveInfo`s of each fill the space
    from its zone's start to the position. -/
structure Spaces (m : ForwardDataManager) : Prop where
  tag : m.currentTagID < 2
  disjoint : Disjoint (m.liveInfoData 0).range (m.liveInfoData 1).range
  first : ∀ tag < 2, (m.liveInfoData tag).startAddress ≤
    ((m.liveInfoData tag).allocZone .liveInfo).zoneStartAddress
  filled : ∀ tag < 2, ∃ n, ((m.liveInfoData tag).allocZone .liveInfo).zonePosition =
    ((m.liveInfoData tag).allocZone .liveInfo).zoneStartAddress + LIVE_INFO_SIZE * n
  inside : ∀ tag < 2, ((m.liveInfoData tag).allocZone .liveInfo).zonePosition ≤
    (m.liveInfoData tag).startAddress + (m.liveInfoData tag).size
  word : ∀ tag < 2, (m.liveInfoData tag).startAddress + (m.liveInfoData tag).size < 2 ^ 64

/-- A `LiveInfo` that a space handed out.  It is whole records behind the start of the zone, and
    below the bump pointer. -/
def LiveInfoAt (m : ForwardDataManager) (tag liveInfo : Nat) : Prop :=
  ∃ i, liveInfo = ((m.liveInfoData tag).allocZone .liveInfo).zoneStartAddress +
      LIVE_INFO_SIZE * i ∧
    liveInfo < ((m.liveInfoData tag).allocZone .liveInfo).zonePosition

/-- The pointers of a state: every `LiveInfo` of the previous space has a region, and a region of
    `heads` has no `LiveInfo`, its own one of the previous space, or one of the current space. -/
structure Bound (s : LiveInfoState) (heads : Set Nat) : Prop where
  binded : ∀ liveInfo, LiveInfoAt s.manager (getPreviousTagID s.manager) liveInfo →
    bindedRegion s.memory liveInfo ≠ 0
  liveInfo : ∀ r ∈ heads, (s.regions r).liveInfo = 0 ∨
    (LiveInfoAt s.manager (getPreviousTagID s.manager) (s.regions r).liveInfo ∧
      bindedRegion s.memory (s.regions r).liveInfo = r) ∨
    LiveInfoAt s.manager s.manager.currentTagID (s.regions r).liveInfo

/-- The record at `r` is not of a garbage region, and has its own `LiveInfo` of the previous
    space. -/
def Stale (s : LiveInfoState) (r : Nat) : Prop :=
  getRegionType (s.regions r).regionStateBitField ≠ GARBAGE_REGION ∧
    LiveInfoAt s.manager (getPreviousTagID s.manager) (s.regions r).liveInfo ∧
    bindedRegion s.memory (s.regions r).liveInfo = r

/-- What the end of a cycle changes, and what it does not. -/
structure Unbound (s s' : LiveInfoState) (heads : Set Nat) : Prop where
  /-- No region but a garbage one points into the released space. -/
  released : ∀ r ∈ heads, getRegionType (s'.regions r).regionStateBitField ≠ GARBAGE_REGION →
    (s'.regions r).liveInfo = 0 ∨
      (s'.regions r).liveInfo ∉ (s.manager.liveInfoData (getPreviousTagID s.manager)).range
  /-- The stale records lose their `LiveInfo` and their byte count, and nothing else. -/
  cleared : ∀ r, Stale s r →
    s'.regions r = { s.regions r with liveInfo := 0, liveByteCount := 0 }
  /-- No other record changes. -/
  kept : ∀ r, ¬ Stale s r → s'.regions r = s.regions r
  /-- The current space is as it was, its zones and its contents. -/
  current : s'.manager.currentTagID = s.manager.currentTagID ∧
    s'.manager.liveInfoData s.manager.currentTagID = s.manager.liveInfoData s.manager.currentTagID
  contents : ∀ address ∈ (s.manager.liveInfoData s.manager.currentTagID).range,
    s'.memory address = s.memory address
  /-- Both zones of the previous space are at their start. -/
  reset : ∀ zone,
    (s'.manager.liveInfoData (getPreviousTagID s.manager)).allocZone zone =
      ⟨((s.manager.liveInfoData (getPreviousTagID s.manager)).allocZone zone).zoneStartAddress,
        ((s.manager.liveInfoData (getPreviousTagID s.manager)).allocZone zone).zoneStartAddress⟩

/-! ## The walk -/

section Walk

variable {memory : Nat → Nat} {start n k : Nat} {regions : UnitTable} {r : Nat}

/-- The record at `r` is what the walk clears from its `k`-th `LiveInfo` on. -/
def StaleFrom (memory : Nat → Nat) (start n k : Nat) (regions : UnitTable) (r : Nat) : Prop :=
  getRegionType (regions r).regionStateBitField ≠ GARBAGE_REGION ∧
    ∃ i, k ≤ i ∧ i < n ∧ (regions r).liveInfo = start + LIVE_INFO_SIZE * i ∧
      bindedRegion memory (start + LIVE_INFO_SIZE * i) = r

/-- The records after the `k`-th `LiveInfo` was visited. -/
def visit (memory : Nat → Nat) (liveInfo : Nat) (regions : UnitTable) : UnitTable :=
  Function.update regions (bindedRegion memory liveInfo)
    (checkAndClearLiveInfo (regions (bindedRegion memory liveInfo)) liveInfo)

/-- A visit clears a record that the `LiveInfo` is bound to and that still points at it. -/
theorem visit_cleared {liveInfo : Nat} (hbinded : bindedRegion memory liveInfo = r)
    (htype : getRegionType (regions r).regionStateBitField ≠ GARBAGE_REGION)
    (hpoints : (regions r).liveInfo = liveInfo) :
    visit memory liveInfo regions r = { regions r with liveInfo := 0, liveByteCount := 0 } := by
  rw [visit, hbinded, Function.update_self, checkAndClearLiveInfo, if_neg htype, if_pos hpoints]

/-- It changes no other record. -/
theorem visit_kept {liveInfo : Nat} (h : ¬ (bindedRegion memory liveInfo = r ∧
    getRegionType (regions r).regionStateBitField ≠ GARBAGE_REGION ∧
    (regions r).liveInfo = liveInfo)) : visit memory liveInfo regions r = regions r := by
  by_cases hbinded : bindedRegion memory liveInfo = r
  · rw [visit, hbinded, Function.update_self, checkAndClearLiveInfo]
    by_cases htype : getRegionType (regions r).regionStateBitField = GARBAGE_REGION
    · rw [if_pos htype]
    · rw [if_neg htype, if_neg fun hpoints => h ⟨hbinded, htype, hpoints⟩]
  · rw [visit, Function.update_of_ne (Ne.symm hbinded)]

/-- **One visit.**  What the walk clears from the `k`-th `LiveInfo` on is what this visit clears and
    what it clears from the next one on. -/
theorem staleFrom_iff (hk : k < n) :
    StaleFrom memory start n k regions r ↔
      (bindedRegion memory (start + LIVE_INFO_SIZE * k) = r ∧
        getRegionType (regions r).regionStateBitField ≠ GARBAGE_REGION ∧
        (regions r).liveInfo = start + LIVE_INFO_SIZE * k) ∨
      StaleFrom memory start n (k + 1) regions r := by
  constructor
  · rintro ⟨htype, i, hki, hin, hpoints, hbinded⟩
    rcases Nat.eq_or_lt_of_le hki with rfl | hlt
    · exact Or.inl ⟨hbinded, htype, hpoints⟩
    · exact Or.inr ⟨htype, i, hlt, hin, hpoints, hbinded⟩
  · rintro (⟨hbinded, htype, hpoints⟩ | ⟨htype, i, hki, hin, hpoints, hbinded⟩)
    · exact ⟨htype, k, Nat.le_refl k, hk, hpoints, hbinded⟩
    · exact ⟨htype, i, by omega, hin, hpoints, hbinded⟩

/-- **The walk.**  From the `k`-th `LiveInfo` on it clears the records that are stale from there on,
    and only these. -/
theorem unbindLoop_spec (hword : start + LIVE_INFO_SIZE * n < 2 ^ 64)
    (hbinded : ∀ i < n, bindedRegion memory (start + LIVE_INFO_SIZE * i) ≠ 0) :
    ∀ fuel k regions, k ≤ n → n - k < fuel → ∃ regions',
      unbindLoop memory (start + LIVE_INFO_SIZE * n) fuel (start + LIVE_INFO_SIZE * k) regions =
        .ok regions' ∧
      (∀ r, StaleFrom memory start n k regions r →
        regions' r = { regions r with liveInfo := 0, liveByteCount := 0 }) ∧
      ∀ r, ¬ StaleFrom memory start n k regions r → regions' r = regions r := by
  simp only [LIVE_INFO_SIZE] at hword
  intro fuel
  induction fuel with
  | zero =>
    intro k regions hk hfuel
    exact absurd hfuel (Nat.not_lt_zero _)
  | succ fuel ih =>
    intro k regions hk hfuel
    -- the walk is over, or visits the next record
    rcases Nat.eq_or_lt_of_le hk with rfl | hlt
    · -- the walk is at the position
      refine ⟨regions, ?_, ?_, fun r _ => rfl⟩
      · rw [unbindLoop, if_neg (Nat.lt_irrefl _)]
      · rintro r ⟨-, i, hki, hin, -⟩
        exact absurd (Nat.lt_of_le_of_lt hki hin) (Nat.lt_irrefl _)
    · have hnext : Words.add 64 (start + LIVE_INFO_SIZE * k) LIVE_INFO_SIZE =
          start + LIVE_INFO_SIZE * (k + 1) := by
        simp only [LIVE_INFO_SIZE]
        rw [Words.add_eq (by omega)]
        omega
      obtain ⟨regions', hres, hcleared, hkept⟩ :=
        ih (k + 1) (visit memory (start + LIVE_INFO_SIZE * k) regions) hlt (by omega)
      refine ⟨regions', ?_, ?_, ?_⟩
      · rw [unbindLoop, if_pos (by simp only [LIVE_INFO_SIZE]; omega)]
        simp only [if_neg (hbinded k hlt), hnext]
        exact hres
      · intro r hstale
        rcases (staleFrom_iff hlt).mp hstale with ⟨hb, htype, hpoints⟩ | hlater
        · -- cleared now; a null pointer is none of the later records
          have hnow := visit_cleared hb htype hpoints
          rw [hkept r, hnow]
          rintro ⟨-, i, hki, -, hzero, -⟩
          rw [hnow] at hzero
          have : 0 = start + LIVE_INFO_SIZE * i := hzero
          simp only [LIVE_INFO_SIZE] at this
          omega
        · have hnow : visit memory (start + LIVE_INFO_SIZE * k) regions r = regions r := by
            refine visit_kept ?_
            rintro ⟨-, -, hpoints⟩
            obtain ⟨-, i, hki, -, hpoints', -⟩ := hlater
            simp only [LIVE_INFO_SIZE] at hpoints hpoints'
            omega
          rw [hcleared r, hnow]
          rwa [StaleFrom, hnow]
      · intro r hstale
        rw [staleFrom_iff hlt, not_or] at hstale
        have hnow := visit_kept hstale.1
        rw [hkept r, hnow]
        rw [StaleFrom, hnow]
        exact hstale.2

end Walk

/-! ## The two functions -/

theorem previous_ne {tag : Nat} (h : tag < 2) : tag ^^^ 1 ≠ tag := by
  rcases Nat.lt_succ_iff_lt_or_eq.mp h with hzero | rfl
  · obtain rfl := Nat.lt_one_iff.mp hzero
    decide
  · decide

section Update

variable (m : ForwardDataManager) (space : ForwardDataSpace) {tag tag' : Nat} {zone zone' : Zone}

@[simp] theorem setSpace_self : (m.setSpace tag space).liveInfoData tag = space :=
  Function.update_self _ _ _

theorem setSpace_of_ne (h : tag' ≠ tag) :
    (m.setSpace tag space).liveInfoData tag' = m.liveInfoData tag' := Function.update_of_ne h _ _

@[simp] theorem store_self (position : Nat) : (space.store zone position).allocZone zone =
    { space.allocZone zone with zonePosition := position } := Function.update_self _ _ _

theorem store_of_ne (position : Nat) (h : zone' ≠ zone) :
    (space.store zone position).allocZone zone' = space.allocZone zone' :=
  Function.update_of_ne h _ _

end Update

/-- The reset of a zone. -/
theorem resetZone_spec (m : ForwardDataManager) {tag : Nat} (htag : tag < 2) (zone : Zone) :
    ∃ m', resetZone m tag zone = .ok m' ∧ m'.currentTagID = m.currentTagID ∧
      (∀ tag', tag' ≠ tag → m'.liveInfoData tag' = m.liveInfoData tag') ∧
      (∀ zone', zone' ≠ zone →
        (m'.liveInfoData tag).allocZone zone' = (m.liveInfoData tag).allocZone zone') ∧
      (m'.liveInfoData tag).allocZone zone =
        ⟨((m.liveInfoData tag).allocZone zone).zoneStartAddress,
          ((m.liveInfoData tag).allocZone zone).zoneStartAddress⟩ := by
  have hres : resetZone m tag zone = .ok (m.setSpace tag ((m.liveInfoData tag).store zone
      ((m.liveInfoData tag).allocZone zone).zoneStartAddress)) := by
    rw [resetZone, if_pos htag]
  refine ⟨_, hres, rfl, ?_, ?_, ?_⟩
  · intro tag' hne
    exact setSpace_of_ne m _ hne
  · intro zone' hne
    rw [setSpace_self, store_of_ne _ _ hne]
  · rw [setSpace_self, store_self]

/-- The reset of a space. -/
theorem forwardDataSpaceReset_spec (m : ForwardDataManager) {tag : Nat} (htag : tag < 2) :
    ∃ m', forwardDataSpaceReset m tag = .ok m' ∧ m'.currentTagID = m.currentTagID ∧
      (∀ tag', tag' ≠ tag → m'.liveInfoData tag' = m.liveInfoData tag') ∧
      ∀ zone, (m'.liveInfoData tag).allocZone zone =
        ⟨((m.liveInfoData tag).allocZone zone).zoneStartAddress,
          ((m.liveInfoData tag).allocZone zone).zoneStartAddress⟩ := by
  obtain ⟨m₁, hres₁, htag₁, hother₁, hzones₁, hzone₁⟩ := resetZone_spec m htag .liveInfo
  obtain ⟨m₂, hres₂, htag₂, hother₂, hzones₂, hzone₂⟩ := resetZone_spec m₁ htag .bitmap
  refine ⟨m₂, ?_, htag₂.trans htag₁, ?_, ?_⟩
  · rw [forwardDataSpaceReset, hres₁]
    exact hres₂
  · intro tag' hne
    rw [hother₂ tag' hne, hother₁ tag' hne]
  · intro zone
    cases zone with
    | liveInfo => rw [hzones₂ .liveInfo nofun, hzone₁]
    | bitmap => rw [hzone₂, hzones₁ .bitmap nofun]

section Functions

variable {s : LiveInfoState} {heads : Set Nat}

theorem Spaces.previous_lt (h : Spaces s.manager) : getPreviousTagID s.manager < 2 :=
  ForwardData.previous_lt h.tag

/-- The released space is apart from the current one. -/
theorem Spaces.previous_disjoint (h : Spaces s.manager) :
    Disjoint (s.manager.liveInfoData s.manager.currentTagID).range
      (s.manager.liveInfoData (getPreviousTagID s.manager)).range := by
  have hdisjoint := h.disjoint
  rw [getPreviousTagID]
  rcases Nat.lt_succ_iff_lt_or_eq.mp h.tag with hzero | hone
  · rw [Nat.lt_one_iff.mp hzero]
    exact hdisjoint
  · rw [hone]
    exact hdisjoint.symm

/-- A `LiveInfo` lies in its space. -/
theorem Spaces.mem_range (h : Spaces s.manager) {tag liveInfo : Nat} (htag : tag < 2)
    (hat : LiveInfoAt s.manager tag liveInfo) : liveInfo ∈ (s.manager.liveInfoData tag).range := by
  obtain ⟨i, hi, hlt⟩ := hat
  have hfirst := h.first tag htag
  have hinside := h.inside tag htag
  exact Set.mem_Ico.mpr ⟨by omega, by omega⟩

/-- The unbinding: the stale records lose their `LiveInfo`. -/
theorem forwardDataUnbindPrevious_spec (hspaces : Spaces s.manager) (hbound : Bound s heads)
    {fuel : Nat} (hfuel : 2 ^ 64 ≤ fuel) : ∃ regions,
      forwardDataUnbindPrevious fuel s = .ok { s with regions := regions } ∧
      (∀ r, Stale s r → regions r = { s.regions r with liveInfo := 0, liveByteCount := 0 }) ∧
      ∀ r, ¬ Stale s r → regions r = s.regions r := by
  have hprevious := hspaces.previous_lt
  obtain ⟨n, hn⟩ := hspaces.filled _ hprevious
  have hinside := hspaces.inside _ hprevious
  have hword := hspaces.word _ hprevious
  generalize hstart : ((s.manager.liveInfoData (getPreviousTagID s.manager)).allocZone
    .liveInfo).zoneStartAddress = start at hn
  -- the addresses of the walk are those of the records
  have hat : ∀ i, i < n → LiveInfoAt s.manager (getPreviousTagID s.manager)
      (start + LIVE_INFO_SIZE * i) := by
    intro i hi
    refine ⟨i, by rw [hstart], ?_⟩
    rw [hn]
    simp only [LIVE_INFO_SIZE]
    omega
  have hstale : ∀ r, Stale s r ↔ StaleFrom s.memory start n 0 s.regions r := by
    intro r
    constructor
    · rintro ⟨htype, ⟨i, hi, hlt⟩, hbinded⟩
      rw [hstart] at hi
      rw [hn, hi] at hlt
      rw [hi] at hbinded
      refine ⟨htype, i, Nat.zero_le i, ?_, hi, hbinded⟩
      simp only [LIVE_INFO_SIZE] at hlt
      omega
    · rintro ⟨htype, i, -, hi, hpoints, hbinded⟩
      refine ⟨htype, ?_, ?_⟩
      · rw [hpoints]
        exact hat i hi
      · rw [hpoints]
        exact hbinded
  have hbinded : ∀ i < n, bindedRegion s.memory (start + LIVE_INFO_SIZE * i) ≠ 0 :=
    fun i hi => hbound.binded _ (hat i hi)
  have hrounds : n - 0 < fuel := by
    simp only [LIVE_INFO_SIZE] at hn
    omega
  obtain ⟨regions, hres, hcleared, hkept⟩ :=
    unbindLoop_spec (by omega) hbinded fuel 0 s.regions (Nat.zero_le n) hrounds
  refine ⟨regions, ?_, fun r hr => hcleared r ((hstale r).mp hr),
    fun r hr => hkept r fun h => hr ((hstale r).mpr h)⟩
  rw [Nat.mul_zero, Nat.add_zero] at hres
  simp only [forwardDataUnbindPrevious, if_pos hprevious, hstart, hn, hres, bind, Except.bind]

/-- **The end of a cycle.**  Neither function aborts, no region keeps a pointer into the released
    space, and nothing else changes: the records bound to the current space keep their `LiveInfo`
    and their byte counts, and only then the zones of the previous space start anew. -/
theorem unbindAndClearPrevious_spec (hspaces : Spaces s.manager) (hbound : Bound s heads)
    {fuel : Nat} (hfuel : 2 ^ 64 ≤ fuel) :
    ∃ s', unbindAndClearPrevious fuel s = .ok s' ∧ Unbound s s' heads := by
  have hprevious := hspaces.previous_lt
  have hne : s.manager.currentTagID ≠ getPreviousTagID s.manager :=
    Ne.symm (previous_ne hspaces.tag)
  have hapart := Set.disjoint_left.mp hspaces.previous_disjoint
  obtain ⟨regions, hunbind, hcleared, hkept⟩ :=
    forwardDataUnbindPrevious_spec hspaces hbound hfuel
  obtain ⟨manager, hreset, htag, hother, hzones⟩ := forwardDataSpaceReset_spec s.manager hprevious
  let space := s.manager.liveInfoData (getPreviousTagID s.manager)
  refine ⟨⟨manager, zeroed s.memory space.startAddress space.size, regions⟩, ?_, ?_⟩
  · rw [unbindAndClearPrevious, hunbind]
    show forwardDataSpaceRelease { s with regions := regions } (getPreviousTagID s.manager) = _
    rw [forwardDataSpaceRelease, hreset]
    rfl
  · refine
      { released := fun r hr htype => ?_
        cleared := hcleared
        kept := hkept
        current := ⟨htag, hother _ hne⟩
        contents := fun address haddress => ?_
        reset := hzones }
    · -- a region that is not stale points nowhere, or into the current space
      by_cases hstale : Stale s r
      · left
        exact congrArg UnitMetadata.liveInfo (hcleared r hstale)
      · have hsame : regions r = s.regions r := hkept r hstale
        have htype' : getRegionType (s.regions r).regionStateBitField ≠ GARBAGE_REGION := by
          rw [← hsame]
          exact htype
        show (regions r).liveInfo = 0 ∨ (regions r).liveInfo ∉ _
        rw [hsame]
        rcases hbound.liveInfo r hr with hnull | ⟨hat, hbinded⟩ | hat
        · exact Or.inl hnull
        · exact absurd ⟨htype', hat, hbinded⟩ hstale
        · exact Or.inr (hapart (hspaces.mem_range hspaces.tag hat))
    · -- only the released space is zeroed
      have hout := hapart haddress
      rw [ForwardDataSpace.range, Set.mem_Ico] at hout
      exact if_neg hout

end Functions

/-- The end of a cycle: the current space has one `LiveInfo`, the previous one two, of which the
    second belongs to a garbage region. -/
def cycleEnd : LiveInfoState where
  manager :=
    { liveInfoData := fun
        | 0 => ⟨fun
            | .liveInfo => ⟨65536, 65568⟩
            | .bitmap => ⟨65600, 65600⟩, 65536, 8192⟩
        | _ => ⟨fun
            | .liveInfo => ⟨73728, 73792⟩
            | .bitmap => ⟨73792, 74016⟩, 73728, 8192⟩
      regionUnitCount := 2
      forwardDataStart := 65536
      forwardDataSize := 16384
      currentTagID := 0 }
  memory := fun
    | 65536 => 3000
    | 73728 => 1000
    | 73760 => 2000
    | _ => 0
  regions := fun
    | 1000 => ⟨0, 0, 0, 0, 5, 0, 73728, 1, 1⟩
    | 2000 => ⟨0, 0, 0, 0, 7, 0, 73760, 1, GARBAGE_REGION⟩
    | 3000 => ⟨0, 0, 0, 0, 9, 0, 65536, 1, 1⟩
    | _ => ⟨0, 0, 0, 0, 0, 0, 0, 0, 0⟩

/-- The region of the first `LiveInfo` is unbound, the garbage region and the one of the current
    space are left alone. -/
theorem unbindAndClearPrevious_spec_cycleEnd : ∃ s',
    unbindAndClearPrevious (2 ^ 64) cycleEnd = .ok s' ∧
      Unbound cycleEnd s' {1000, 2000, 3000} := by
  have tags : ∀ {P : Nat → Prop}, P 0 → P 1 → ∀ tag < 2, P tag := by
    intro P h₀ h₁ tag htag
    rcases Nat.lt_succ_iff_lt_or_eq.mp htag with hzero | rfl
    · rw [Nat.lt_one_iff.mp hzero]
      exact h₀
    · exact h₁
  have hspaces : Spaces cycleEnd.manager :=
    { tag := by decide
      disjoint := Set.Ico_disjoint_Ico.mpr (by decide)
      first := tags (by decide) (by decide)
      filled := tags ⟨1, by decide⟩ ⟨2, by decide⟩
      inside := tags (by decide) (by decide)
      word := tags (by decide) (by decide) }
  refine unbindAndClearPrevious_spec hspaces ⟨?_, ?_⟩ (Nat.le_refl _)
  · rintro liveInfo ⟨i, rfl, hlt⟩
    have hi : 73728 + 32 * i < 73792 := hlt
    have hcases : i = 0 ∨ i = 1 := by omega
    rcases hcases with rfl | rfl
    · decide
    · decide
  · rintro r (rfl | rfl | rfl)
    · exact Or.inr (Or.inl ⟨⟨0, by decide, by decide⟩, by decide⟩)
    · exact Or.inr (Or.inl ⟨⟨1, by decide, by decide⟩, by decide⟩)
    · exact Or.inr (Or.inr ⟨0, by decide, by decide⟩)

/-! ## The spaces of a run -/

section Reachable

variable {τ ρ : Type} [DecidableEq τ] [DecidableEq ρ]

/-- Every manager that the threads' allocations and resets lead to has this layout. -/
theorem reachable_spaces (heapSize : Nat) (regionSize : ρ → Nat) {s : State τ ρ}
    (h : (machine heapSize regionSize τ).Reachable s) : Spaces s.manager := by
  obtain ⟨startAddress, hwrap, hinv⟩ := (machine_invariant heapSize regionSize).reachable h
  have hmapping := hwrap.mapping
  have hmul : ∀ tag < 2, tag * spaceSize heapSize ≤ spaceSize heapSize := by
    intro tag htag
    have := Nat.mul_le_mul_right (spaceSize heapSize) (Nat.le_of_lt_succ htag)
    omega
  refine
    { tag := hinv.tag
      disjoint := ?_
      first := fun tag htag => ?_
      filled := fun tag htag => ?_
      inside := fun tag htag => ?_
      word := fun tag htag => ?_ }
  · rw [ForwardDataSpace.range, ForwardDataSpace.range, (hinv.space 0 (by decide)).1,
      (hinv.space 0 (by decide)).2, (hinv.space 1 (by decide)).1, (hinv.space 1 (by decide)).2,
      Set.Ico_disjoint_Ico]
    simp only [spaceStart]
    omega
  · rw [(hinv.space tag htag).1, (hinv.filled tag htag .liveInfo).first]
    exact Nat.le_refl _
  · have hzone := hinv.filled tag htag .liveInfo
    have hsizes : (s.records tag .liveInfo).map Record.size =
        List.replicate (s.records tag .liveInfo).length LIVE_INFO_SIZE :=
      List.eq_replicate_iff.mpr ⟨List.length_map _, fun size hsize => by
        obtain ⟨r, hr, rfl⟩ := List.mem_map.mp hsize
        exact hzone.size r hr⟩
    refine ⟨(s.records tag .liveInfo).length, ?_⟩
    rw [hzone.first, hzone.stacked.position_eq, hsizes, List.sum_replicate, smul_eq_mul,
      Nat.mul_comm]
  · have hle := (hinv.filled tag htag .liveInfo).position_le hwrap.heap
    have hpages := le_spaceSize heapSize
    rw [(hinv.space tag htag).1, (hinv.space tag htag).2]
    simp only [zoneEnd, zoneStart, LIVE_INFO_SIZE] at hle
    omega
  · rw [(hinv.space tag htag).1, (hinv.space tag htag).2, spaceStart]
    have := hmul tag htag
    omega

end Reachable

end ForwardData

end CangjieRuntime.Gc
