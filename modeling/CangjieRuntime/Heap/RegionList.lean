/-
  The region lists (`rt.heap.allocator/RegionList.cj`): intrusive doubly linked lists of regions.

  The links are fields of the regions, and a list keeps its head, its tail and two counts.  The
  embedding:

    * a region is the index of its first unit, a pointer to one an `Option`, and a link the 32-bit
      word that holds the index, or `INVALID_IDX` for null;
    * a list operation gets the list and the table of all regions, and returns both;
    * `RtFatal`, a write through a null pointer and a traversal that does not end are the `Fault`s;
    * the asserts of debug builds and the log are left out, and each operation is atomic, as it
      holds the mutex of its list throughout; `MergeRegionList` holds first the one, then the other,
      and has the regions in a list of its own in between.

  The traversal of `SetElementType` takes fuel; its caller hands it the list's region count.
-/
import CangjieRuntime.Lib.Runs
import CangjieRuntime.Lib.Linked
import CangjieRuntime.Heap.CartesianTree

set_option linter.unusedVariables false

namespace CangjieRuntime.Heap

open Runs

/-- `RegionType`; four bits of the region hold it. -/
inductive RegionType
  | FREE_REGION
  | THREAD_LOCAL_REGION
  | RECENT_FULL_REGION
  | FROM_REGION
  | LONE_FROM_REGION
  | UNMOVABLE_FROM_REGION
  | TO_REGION
  | FULL_PINNED_REGION
  | RECENT_PINNED_REGION
  | RAW_POINTER_PINNED_REGION
  | TL_RAW_POINTER_REGION
  | TL_LARGE_RAW_POINTER_REGION
  | LARGE_REGION
  | RECENT_LARGE_REGION
  | GARBAGE_REGION
  deriving DecidableEq, Repr

/-- The part of a region's metadata that the lists use. -/
structure ListedRegion where
  nextRegionIdx : Nat
  prevRegionIdx : Nat
  regionType : RegionType
  unitCount : Nat
  deriving DecidableEq, Repr

/-- `RegionList`, without its mutex and its name. -/
structure RegionList where
  regionCount : Nat
  unitCount : Nat
  listHead : Option Nat
  listTail : Option Nat
  deriving DecidableEq, Repr

/-- All regions, by the index of their first unit. -/
abbrev Regions := Nat → ListedRegion

namespace RegionList

abbrev INVALID_IDX : Nat := 4294967295
abbrev UINT_NATIVE_MAX : Nat := 2 ^ 64 - 1

/-! ## Links -/

/-- The word a pointer is stored as. -/
def encode : Option Nat → Nat
  | none => INVALID_IDX
  | some idx => idx % 2 ^ 32

/-- The pointer a word stands for. -/
def decode (idx : Nat) : Option Nat := if idx = INVALID_IDX then none else some idx

/-- `GetNextRegion`: the index of no region stands for none. -/
def getNextRegion (regions : Regions) (region : Nat) : Option Nat :=
  decode (regions region).nextRegionIdx

/-- `GetPrevRegion`: the same for the other link. -/
def getPrevRegion (regions : Regions) (region : Nat) : Option Nat :=
  decode (regions region).prevRegionIdx

/-- `SetNextRegion` of a region that may be null, where the write faults. -/
def setNextRegion (regions : Regions) (region next : Option Nat) : Except Fault Regions :=
  match region with
  | none => .error .nullDeref
  | some r =>
    let value := { regions r with nextRegionIdx := encode next }
    .ok (Function.update regions r value)

/-- `SetPrevRegion`: the same for the other link. -/
def setPrevRegion (regions : Regions) (region prev : Option Nat) : Except Fault Regions :=
  match region with
  | none => .error .nullDeref
  | some r =>
    let value := { regions r with prevRegionIdx := encode prev }
    .ok (Function.update regions r value)

/-- `SetRegionType`: the type tells which list a region is in. -/
def setRegionType (regions : Regions) (region : Nat) (regionType : RegionType) : Regions :=
  let value := { regions region with regionType := regionType }
  Function.update regions region value

/-! ## Counts -/

/-- `Construct`: no regions. -/
def empty : RegionList := ⟨0, 0, none, none⟩

/-- `IncCounts`: fatal where a count would overflow. -/
def incCounts (list : RegionList) (nRegion nUnit : Nat) : Except Fault RegionList :=
  if UINT_NATIVE_MAX - list.regionCount < nRegion ∨ UINT_NATIVE_MAX - list.unitCount < nUnit then
    .error .fatal
  else
    .ok { list with
      regionCount := Words.add 64 list.regionCount nRegion
      unitCount := Words.add 64 list.unitCount nUnit }

/-- `DecCounts`: fatal where a count would underflow. -/
def decCounts (list : RegionList) (nRegion nUnit : Nat) : Except Fault RegionList :=
  if nRegion ≤ list.regionCount ∧ nUnit ≤ list.unitCount then
    .ok { list with
      regionCount := Words.sub 64 list.regionCount nRegion
      unitCount := Words.sub 64 list.unitCount nUnit }
  else .error .fatal

/-- `ClearList`: the list is empty, and the regions keep their links. -/
def clearList (list : RegionList) : RegionList :=
  { list with listHead := none, listTail := none, regionCount := 0, unitCount := 0 }

/-! ## Operations -/

/-- `PrependRegionLocked`: the region becomes the head, with its new type and the counts. -/
def prependRegionLocked (list : RegionList) (regions : Regions) (region : Nat)
    (regionType : RegionType) : Except Fault (RegionList × Regions) := do
  let regions := setRegionType regions region regionType
  let regions ← setPrevRegion regions (some region) none
  let list ← list.incCounts 1 (regions region).unitCount
  let head := list.listHead
  let regions ← setNextRegion regions (some region) head
  match head with
  | none => .ok ({ list with listTail := some region, listHead := some region }, regions)
  | some _ =>
    let regions ← setPrevRegion regions head (some region)
    .ok ({ list with listHead := some region }, regions)

/-- `PrependRegion` under the lock of the list; null is ignored. -/
def prependRegion (list : RegionList) (regions : Regions) (region : Option Nat)
    (regionType : RegionType) : Except Fault (RegionList × Regions) :=
  match region with
  | none => .ok (list, regions)
  | some region => list.prependRegionLocked regions region regionType

/-- `DeleteRegionLocked`: the region is unlinked, and its neighbours are linked to each other. -/
def deleteRegionLocked (list : RegionList) (regions : Regions) (del : Nat) :
    Except Fault (RegionList × Regions) := do
  let prev := getPrevRegion regions del
  let next := getNextRegion regions del
  let regions ← setNextRegion regions (some del) none
  let regions ← setPrevRegion regions (some del) none
  let list ← list.decCounts 1 (regions del).unitCount
  if list.listHead = some del then
    let list := { list with listHead := next }
    if next = none then .ok ({ list with listTail := none }, regions)
    else deleteTail list regions del prev next
  else
    let regions ← setNextRegion regions prev next
    deleteTail list regions del prev next
where
  /-- The second half: `del` as the tail, or the link back to its predecessor. -/
  deleteTail (list : RegionList) (regions : Regions) (del : Nat) (prev next : Option Nat) :
      Except Fault (RegionList × Regions) :=
    if list.listTail = some del then
      let list := { list with listTail := prev }
      if prev = none then .ok ({ list with listHead := none }, regions) else .ok (list, regions)
    else do
      let regions ← setPrevRegion regions next prev
      .ok (list, regions)

/-- `DeleteRegion` under the lock of the list; null is ignored. -/
def deleteRegion (list : RegionList) (regions : Regions) (del : Option Nat) :
    Except Fault (RegionList × Regions) :=
  match del with
  | none => .ok (list, regions)
  | some del => list.deleteRegionLocked regions del

/-- `TryDeleteRegion`: a region is deleted only while it has the old type, and gets the new one. -/
def tryDeleteRegion (list : RegionList) (regions : Regions) (del : Option Nat)
    (oldType newType : RegionType) : Except Fault (RegionList × Regions × Bool) :=
  match del with
  | none => .ok (list, regions, false)
  | some del =>
    if oldType = newType then .error .fatal
    else if (regions del).regionType = oldType then do
      let (list, regions) ← list.deleteRegionLocked regions del
      .ok (list, setRegionType regions del newType, true)
    else .ok (list, regions, false)

/-- `TakeHeadRegion`, with a new type for the region or without. -/
def takeHeadRegion (list : RegionList) (regions : Regions) (newType : Option RegionType) :
    Except Fault (RegionList × Regions × Option Nat) :=
  match list.listHead with
  | none => .ok (list, regions, none)
  | some head => do
    let (list, regions) ← list.deleteRegionLocked regions head
    match newType with
    | none => .ok (list, regions, some head)
    | some newType => .ok (list, setRegionType regions head newType, some head)

/-- The loop of `SetElementType`. -/
def setElementType (regionType : RegionType) : Nat → Option Nat → Regions → Except Fault Regions
  | _, none, regions => .ok regions
  | 0, some _, _ => .error .outOfFuel
  | fuel + 1, some node, regions =>
    let regions := setRegionType regions node regionType
    setElementType regionType fuel (getNextRegion regions node) regions

/-- `MoveTo`: the source, cleared, and the target (`AssignWith`). -/
def moveTo (list targetList : RegionList) : RegionList × RegionList :=
  let targetList := { targetList with
    listHead := list.listHead
    listTail := list.listTail
    regionCount := list.regionCount
    unitCount := list.unitCount }
  (list.clearList, targetList)

/-- `MergeRegionList`: the target, the source and the regions. -/
def mergeRegionList (list srcList : RegionList) (regions : Regions) (regionType : RegionType) :
    Except Fault (RegionList × RegionList × Regions) :=
  let (srcList, cache) := srcList.moveTo empty
  match cache.listHead with
  | none => .ok (list, srcList, regions)
  | some head => do
    let tail := cache.listTail
    let regions ← setElementType regionType cache.regionCount cache.listHead regions
    let list ← list.incCounts cache.regionCount cache.unitCount
    match list.listHead with
    | none => .ok ({ list with listHead := some head, listTail := tail }, srcList, regions)
    | some currentHead =>
      let regions ← setNextRegion regions tail (some currentHead)
      let regions ← setPrevRegion regions (some currentHead) tail
      .ok ({ list with listHead := some head }, srcList, regions)

end RegionList

end CangjieRuntime.Heap
