/-
  The forward-data manager (`rt.gc.forwarddata/ForwardDataManager.cj`): memory for the `LiveInfo`
  records and the bitmaps of the regions, in two spaces that take turns.

  A space has two zones, and a zone is a start and a position that `fetch_add` moves; nothing checks
  that the position stays inside.  The embedding:

    * addresses and sizes are 64-bit words with wrapping arithmetic; the mapping's address is a
      parameter of the initialisation;
    * only the bookkeeping of the memory is modelled, not what is written to the records, nor the
      `madvise` that zeroes a space before its positions are reset;
    * one action of the machine is one atomic operation of one thread: the read of the tag an
      operation starts with, a `fetch_add`, or the reset of one zone.  The state remembers which
      records a zone handed out since its last reset, and for which region.
-/
import CangjieRuntime.Lib.Runs
import CangjieRuntime.Lib.Bump
import CangjieRuntime.Gc.RegionBitmap
import Mathlib

set_option linter.unusedVariables false

namespace CangjieRuntime.Gc

open Runs

namespace ForwardData

abbrev ALLOC_UTIL_PAGE_SIZE : Nat := 4096

/-- `sizeOf<LiveInfo>()`: four pointers. -/
abbrev LIVE_INFO_SIZE : Nat := 32

/-- `sizeOf<RegionBitmap>()`: sixteen part counts, the live bytes and the word count. -/
abbrev REGION_BITMAP_SIZE : Nat := 48

/-- The zones of a space: `LIVE_INFO_ZONE`, `BIT_MAP_ZONE`. -/
inductive Zone
  | liveInfo
  | bitmap
  deriving DecidableEq, Repr

/-- A zone: where it starts and how far it has been handed out. -/
structure ForwardDataZone where
  zoneStartAddress : Nat
  zonePosition : Nat
  deriving DecidableEq, Repr

/-- A space with its two zones, of live infos and of bitmaps. -/
structure ForwardDataSpace where
  allocZone : Zone → ForwardDataZone
  startAddress : Nat
  size : Nat

/-- `ForwardDataManager`; of `liveInfoData` only the spaces 0 and 1 are there. -/
structure ForwardDataManager where
  liveInfoData : Nat → ForwardDataSpace
  regionUnitCount : Nat
  forwardDataStart : Nat
  forwardDataSize : Nat
  currentTagID : Nat

/-- What an access can end in. -/
inductive Fault
  | spaceOutOfBounds
  deriving DecidableEq, Repr

/-! ## Initialisation -/

/-- `AllocUtilRndDown`: to a multiple of `n`, a power of two. -/
def allocUtilRndDown (x n : Nat) : Nat := x &&& Words.sub 64 0 n

/-- `AllocUtilRndUp`: up to a multiple of `n`. -/
def allocUtilRndUp (x n : Nat) : Nat := allocUtilRndDown (Words.sub 64 (Words.add 64 x n) 1) n

/-- `RegionBitmapSize`: the head of a bitmap, and a word for each 512 bytes. -/
def regionBitmapSize (regionSize : Nat) : Nat :=
  Words.add 64 48 (Words.mul 64
    (regionSize / (RegionBitmap.MARKED_BYTES_PER_BIT * RegionBitmap.BITS_PER_WORD)) 8)

/-- `ForwardDataSpaceInitialize`: the zone of live infos, and behind it that of bitmaps. -/
def spaceInitialize (start size unitCount : Nat) : ForwardDataSpace :=
  let cursor := Words.add 64 start (Words.mul 64 unitCount LIVE_INFO_SIZE)
  { allocZone := fun
      | .liveInfo => ⟨start, start⟩
      | .bitmap => ⟨cursor, cursor⟩
    startAddress := start
    size := size }

/-- `ForwardDataGetLiveInfoDataSize`: the unit count it stores, and the size. -/
def getLiveInfoDataSize (heapSize : Nat) : Nat × Nat :=
  let rounded := allocUtilRndUp heapSize ALLOC_UTIL_PAGE_SIZE
  let unitCount := rounded / ALLOC_UTIL_PAGE_SIZE
  let oneUnit := Words.add 64 LIVE_INFO_SIZE
    (Words.mul 64 (Words.add 64 REGION_BITMAP_SIZE (ALLOC_UTIL_PAGE_SIZE / 64)) 3)
  (unitCount, Words.mul 64 unitCount oneUnit)

/-- `ForwardDataInitializeForCapacity`, with the mapping at `startAddress`. -/
def initializeForCapacity (maxHeapBytes startAddress : Nat) : ForwardDataManager :=
  let (unitCount, dataSize) := getLiveInfoDataSize maxHeapBytes
  let liveInfoSize := allocUtilRndUp dataSize ALLOC_UTIL_PAGE_SIZE
  { liveInfoData := fun
      | 0 => spaceInitialize startAddress liveInfoSize unitCount
      | _ => spaceInitialize (Words.add 64 startAddress liveInfoSize) liveInfoSize unitCount
    regionUnitCount := unitCount
    forwardDataStart := startAddress
    forwardDataSize := Words.mul 64 liveInfoSize 2
    currentTagID := 0 }

/-! ## Allocating and clearing -/

/-- `ForwardDataGetPreviousTagID`: the other one of the two spaces. -/
def getPreviousTagID (m : ForwardDataManager) : Nat := m.currentTagID ^^^ 1

/-- Store a zone's position. -/
def ForwardDataSpace.store (space : ForwardDataSpace) (zone : Zone) (position : Nat) :
    ForwardDataSpace :=
  let value := { space.allocZone zone with zonePosition := position }
  { space with allocZone := Function.update space.allocZone zone value }

/-- A store of the space of a tag. -/
def ForwardDataManager.setSpace (m : ForwardDataManager) (tag : Nat) (space : ForwardDataSpace) :
    ForwardDataManager :=
  { m with liveInfoData := Function.update m.liveInfoData tag space }

/-- `ForwardDataSpaceAllocate`: the address, from a `fetch_add` on the zone's position. -/
def spaceAllocate (m : ForwardDataManager) (tag : Nat) (zone : Zone) (size : Nat) :
    Except Fault (Nat × ForwardDataManager) :=
  if tag < 2 then
    let space := m.liveInfoData tag
    let position := (space.allocZone zone).zonePosition
    .ok (position, m.setSpace tag (space.store zone (Words.add 64 position size)))
  else .error .spaceOutOfBounds

/-- The loop body of `ForwardDataSpaceReset`: a zone's position goes back to its start. -/
def resetZone (m : ForwardDataManager) (tag : Nat) (zone : Zone) :
    Except Fault ForwardDataManager :=
  if tag < 2 then
    let space := m.liveInfoData tag
    .ok (m.setSpace tag (space.store zone (space.allocZone zone).zoneStartAddress))
  else .error .spaceOutOfBounds

/-! ## The machine -/

/-- The size of a zone's record for a region. -/
def Zone.recordSize (regionSize : Nat) : Zone → Nat
  | .liveInfo => LIVE_INFO_SIZE
  | .bitmap => regionBitmapSize regionSize

/-- A record that was handed out. -/
structure Record (ρ : Type) where
  region : ρ
  address : Nat
  size : Nat
  deriving DecidableEq, Repr

/-- The atomic operation a thread does next.  The tag is loaded in the step before, and in between
    any thread may run. -/
inductive Pc (ρ : Type)
  | idle
  /-- `AllocateLiveInfo` or `AllocateRegionBitmap`, at the `fetch_add`. -/
  | allocate (tag : Nat) (zone : Zone) (region : ρ)
  /-- `ForwardDataSpaceReset`, at a zone. -/
  | reset (tag : Nat) (zone : Zone)
  deriving DecidableEq, Repr

/-- The manager, where each thread is, and the records that the zones have handed out. -/
structure State (τ ρ : Type) where
  manager : ForwardDataManager
  pc : τ → Pc ρ
  records : Nat → Zone → List (Record ρ)

/-- What the threads do with the forward data: the collector sets the tag and clears the previous
    space, and any thread allocates records in the current one. -/
inductive Action (τ ρ : Type)
  | setTagID (id : Nat)
  | allocate (t : τ) (zone : Zone) (region : ρ)
  | clearPrevious (t : τ)
  /-- Do the next atomic operation. -/
  | atomic (t : τ)
  deriving DecidableEq, Repr

section Exec

variable {τ ρ : Type} [DecidableEq τ]

/-- A thread goes on to its next operation. -/
def State.goto (s : State τ ρ) (t : τ) (pc : Pc ρ) : State τ ρ :=
  { s with pc := Function.update s.pc t pc }

/-- The records of a zone after an allocation or a clear. -/
def State.setRecords (s : State τ ρ) (tag : Nat) (zone : Zone) (records : List (Record ρ)) :
    State τ ρ :=
  let ofSpace := Function.update (s.records tag) zone records
  { s with records := Function.update s.records tag ofSpace }

/-- One action; the start of an operation by a thread that is in one changes nothing. -/
def exec (regionSize : ρ → Nat) (s : State τ ρ) : Action τ ρ → Except Fault (State τ ρ)
  | .setTagID id => .ok { s with manager := { s.manager with currentTagID := id } }
  | .allocate t zone region =>
    match s.pc t with
    | .idle => .ok (s.goto t (.allocate s.manager.currentTagID zone region))
    | _ => .ok s
  | .clearPrevious t =>
    match s.pc t with
    | .idle => .ok (s.goto t (.reset (getPreviousTagID s.manager) .liveInfo))
    | _ => .ok s
  | .atomic t =>
    match s.pc t with
    | .idle => .ok s
    | .allocate tag zone region => do
      let size := zone.recordSize (regionSize region)
      let (address, manager) ← spaceAllocate s.manager tag zone size
      .ok (({ s with manager }.setRecords tag zone
        (⟨region, address, size⟩ :: s.records tag zone)).goto t .idle)
    | .reset tag zone => do
      let manager ← resetZone s.manager tag zone
      .ok (({ s with manager }.setRecords tag zone []).goto t
        (match zone with
        | .liveInfo => .reset tag .bitmap
        | .bitmap => .idle))

end Exec

/-- How many records of a zone a region gets between two resets. -/
def Zone.share : Zone → Nat
  | .liveInfo => 1
  | .bitmap => 3

section Machine

variable {τ ρ : Type} [DecidableEq τ] [DecidableEq ρ] (heapSize : Nat) (regionSize : ρ → Nat)

/-- The regions of a zone's records got their share at most; their sizes are positive multiples of
    a page, and together they fit the heap. -/
structure Fair (zone : Zone) (regions : List ρ) : Prop where
  share : ∀ r, regions.count r ≤ zone.share
  sizes : ∀ r ∈ regions, 0 < regionSize r ∧ ALLOC_UTIL_PAGE_SIZE ∣ regionSize r
  fits : ∑ r ∈ regions.toFinset, regionSize r ≤ heapSize

/-- The tags are 0 and 1, and every `fetch_add` leaves the zone's records fair. -/
def Action.Lawful (s : State τ ρ) : Action τ ρ → Prop
  | .setTagID id => id < 2
  | .atomic t => ∀ tag zone region, s.pc t = .allocate tag zone region →
    Fair heapSize regionSize zone (region :: (s.records tag zone).map Record.region)
  | _ => True

/-- The pages of the heap. -/
def pages (heapSize : Nat) : Nat :=
  (heapSize + (ALLOC_UTIL_PAGE_SIZE - 1)) / ALLOC_UTIL_PAGE_SIZE

/-- The size of a space: 32 + 3 * (48 + 64) bytes for a page of the heap, in whole pages. -/
def spaceSize (heapSize : Nat) : Nat :=
  (pages heapSize * 368 + (ALLOC_UTIL_PAGE_SIZE - 1)) / ALLOC_UTIL_PAGE_SIZE * ALLOC_UTIL_PAGE_SIZE

/-- The sizes do not wrap, nor does the mapping. -/
structure NoWrap (startAddress : Nat) : Prop where
  heap : heapSize + (ALLOC_UTIL_PAGE_SIZE - 1) < 2 ^ 64
  data : pages heapSize * 368 + (ALLOC_UTIL_PAGE_SIZE - 1) < 2 ^ 64
  mapping : startAddress + 2 * spaceSize heapSize < 2 ^ 64

/-- The manager after its initialisation and its threads, every order of their atomic
    operations. -/
def machine (τ : Type) [DecidableEq τ] : System (State τ ρ) (Action τ ρ) where
  init s := ∃ startAddress, NoWrap heapSize startAddress ∧
    s = ⟨initializeForCapacity heapSize startAddress, fun _ => .idle, fun _ _ => []⟩
  step s a s' := a.Lawful heapSize regionSize s ∧ exec regionSize s a = .ok s'

end Machine

end ForwardData

end CangjieRuntime.Gc
