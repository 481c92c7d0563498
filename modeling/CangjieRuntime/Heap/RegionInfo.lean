/-
  The unit metadata table (`rt.heap.allocator/RegionInfo.cj`).

  The heap is an array of 4096-byte units; below its start, growing downwards, lies one 88-byte
  record a unit.  A region is a run of units: its head unit's record describes it, and the records
  of its other units point back to the head.  The embedding:

    * a record is read and written through its address, so the table is a map from addresses to
      records, and every piece of index arithmetic is the source's, on 64-bit words;
    * the records carry the fields these functions touch; the bit fields are the stored words, set
      by the source's mask arithmetic (`setAtomicValuePart2`);
    * the contents of the heap pages, which `ClearUnits` and `ReleaseUnits` overwrite, are not part
      of the table; what is left of those functions is their range check.
-/
import CangjieRuntime.Heap.CartesianTree

set_option linter.unusedVariables false

namespace CangjieRuntime.Heap

/-- `RegionInfo.UNIT_SIZE`. -/
abbrev UNIT_SIZE : Nat := 4096

/-- `sizeOf<UnitInfo>()`. -/
abbrev UNIT_INFO_SIZE : Nat := 88

/-- `UnitInfo.INVALID_IDX`. -/
abbrev INVALID_IDX : Nat := 0xffffffff

/-! ## Layout -/

/-- What `RegionInfo.Initialize` is told, with what the heap's owner guarantees about it: the
    table lies below the heap, the heap ends inside the address space, and every unit index is a
    valid 32-bit index. -/
structure HeapLayout where
  heapStartAddress : Nat
  totalUnitCount : Nat
  table_fits : totalUnitCount * UNIT_INFO_SIZE ≤ heapStartAddress
  heap_fits : heapStartAddress + totalUnitCount * UNIT_SIZE < 2 ^ 64
  idx_fits : totalUnitCount ≤ INVALID_IDX

/-- `UnitRole`; a value is stored in the low four bits of `unitRoleBitField`. -/
abbrev UnitRole := Nat
abbrev FREE_UNITS : UnitRole := 0
abbrev SMALL_SIZED_UNITS : UnitRole := 1
abbrev LARGE_SIZED_UNITS : UnitRole := 2
abbrev SUBORDINATE_UNIT : UnitRole := 3

/-- The fields of `UnitMetadata` that initialisation and lookup touch. -/
structure UnitMetadata where
  allocPtr : Nat
  regionEnd : Nat
  nextRegionIdx : Nat
  prevRegionIdx : Nat
  liveByteCount : Nat
  rawPointerObjectCount : Nat
  liveInfo : Nat
  unitRoleBitField : Nat
  regionStateBitField : Nat
  deriving DecidableEq, Repr

/-- The records by address. -/
abbrev UnitTable := Nat → UnitMetadata

namespace RegionInfo

/-! ## Bit fields -/

/-- `SetAtomicValuePart2`: replace `bitLen` bits at `pos` of a word of which `widthMask` exists. -/
def setAtomicValuePart2 (oldValue pos bitLen newValue widthMask : Nat) : Nat :=
  let bitMask := ((1 <<< bitLen) % 2 ^ 64 - 1) <<< pos % 2 ^ 64
  let unchangedBitMask := widthMask ^^^ bitMask
  let changedBits := newValue <<< pos % 2 ^ 64 &&& bitMask
  let unchangedBits := oldValue &&& unchangedBitMask
  changedBits ||| unchangedBits

/-- `BitFieldU8.SetAtomicValue`: `bitLen` bits from `pos` on, in a byte. -/
def setAtomicValueU8 (field pos bitLen newValue : Nat) : Nat :=
  setAtomicValuePart2 field pos bitLen newValue 0xff % 2 ^ 8

/-- `BitFieldU16.SetAtomicValue`: the same in 16 bits. -/
def setAtomicValueU16 (field pos bitLen newValue : Nat) : Nat :=
  setAtomicValuePart2 field pos bitLen newValue 0xffff % 2 ^ 16

abbrev BIT_LENGTH : Nat := 4
abbrev REGION_TYPE_FLAG : Nat := 0
abbrev TRACE_REGION_FLAG : Nat := BIT_LENGTH
abbrev MARKED_REGION_FLAG : Nat := 6
abbrev ENQUEUED_REGION_FLAG : Nat := 7
abbrev RESURRECTED_REGION_FLAG : Nat := 8
abbrev FREE_REGION : Nat := 0

/-- `SetUnitRole`: the low bits of the role field. -/
def setUnitRole (m : UnitMetadata) (role : UnitRole) : UnitMetadata :=
  { m with unitRoleBitField := setAtomicValueU8 m.unitRoleBitField 0 BIT_LENGTH role }

/-- `SetRegionType` and the region flag setters: `bitLen` bits at `pos` of the state field. -/
def setRegionState (m : UnitMetadata) (pos bitLen value : Nat) : UnitMetadata :=
  { m with regionStateBitField := setAtomicValueU16 m.regionStateBitField pos bitLen value }

/-- `SetRegionType`: the four bits of the type. -/
def setRegionType (m : UnitMetadata) (regionType : Nat) : UnitMetadata :=
  setRegionState m REGION_TYPE_FLAG BIT_LENGTH regionType

/-- `SetTraceRegionFlag`: one bit, as the setters below. -/
def setTraceRegionFlag (m : UnitMetadata) (flag : Nat) : UnitMetadata :=
  setRegionState m TRACE_REGION_FLAG 1 flag

/-- `SetMarkedRegionFlag`: the bit of the regions that are marked. -/
def setMarkedRegionFlag (m : UnitMetadata) (flag : Nat) : UnitMetadata :=
  setRegionState m MARKED_REGION_FLAG 1 flag

/-- `SetEnqueuedRegionFlag`: the bit of the regions that were put into a queue. -/
def setEnqueuedRegionFlag (m : UnitMetadata) (flag : Nat) : UnitMetadata :=
  setRegionState m ENQUEUED_REGION_FLAG 1 flag

/-- `SetResurrectedRegionFlag`: the bit of the regions with resurrected objects. -/
def setResurrectedRegionFlag (m : UnitMetadata) (flag : Nat) : UnitMetadata :=
  setRegionState m RESURRECTED_REGION_FLAG 1 flag

/-- The role a record holds: `fieldVal & 0x0f`, which is also `GetUnitRole`. -/
def unitRole (m : UnitMetadata) : UnitRole := m.unitRoleBitField &&& 0x0f

/-! ## Index arithmetic -/

variable (layout : HeapLayout)

/-- `UnitInfo.GetUnitIdxAt`: the unit that an address of the heap lies in; any other address
    aborts. -/
def getUnitIdxAt (allocAddr : Nat) : Except Fault Nat :=
  if layout.heapStartAddress ≤ allocAddr ∧
      allocAddr < Words.add 64 layout.heapStartAddress
        (Words.mul 64 layout.totalUnitCount UNIT_SIZE) then
    .ok (Words.sub 64 allocAddr layout.heapStartAddress / 4096)
  else .error .abort

/-- `UnitInfo.GetUnitInfo`: the address of a unit's record. -/
def getUnitInfo (idx : Nat) : Except Fault Nat :=
  if layout.totalUnitCount ≤ idx then .error .fatal
  else .ok (Words.sub 64 layout.heapStartAddress
    (Words.mul 64 (Words.add 64 idx 1) UNIT_INFO_SIZE))

/-- `UnitInfo.GetUnitInfoAt`: the record of that unit. -/
def getUnitInfoAt (allocAddr : Nat) : Except Fault Nat := do
  let idx ← getUnitIdxAt layout allocAddr
  getUnitInfo layout idx

/-- `RegionInfo.GetUnitAddress`: the first byte of a unit of the heap. -/
def getUnitAddress (idx : Nat) : Except Fault Nat :=
  if layout.totalUnitCount ≤ idx then .error .fatal
  else .ok (Words.add 64 layout.heapStartAddress (Words.mul 64 idx UNIT_SIZE))

/-- `UnitInfoArray[index]` of the array of `size` records that starts, downwards, at `unit`. -/
def unitInfoArrayGet (unit size index : Nat) : Except Fault Nat :=
  let unitArray := Words.sub 64 unit (Words.mul 64 (Words.sub 64 size 1) UNIT_INFO_SIZE)
  if size ≤ index then .error .fatal
  else .ok (Words.add 64 unitArray
    (Words.mul 64 (Words.sub 64 (Words.sub 64 size index) 1) UNIT_INFO_SIZE))

/-! ## The accessors of a region -/

/-- `GetRegionStart` of the region whose head record is at `region`. -/
def getRegionStart (region : Nat) : Except Fault Nat :=
  if layout.heapStartAddress ≤ region then .error .fatal
  else
    let idx := Words.sub 64 ((layout.heapStartAddress - region) / UNIT_INFO_SIZE) 1
    if layout.totalUnitCount ≤ idx then .error .fatal
    else .ok (Words.add 64 (Words.mul 64 idx UNIT_SIZE) layout.heapStartAddress)

/-- `GetRegionSize`: the bytes from the start to the end; an empty region is fatal. -/
def getRegionSize (table : UnitTable) (region : Nat) : Except Fault Nat := do
  let regionStart ← getRegionStart layout region
  let regionEnd := (table region).regionEnd
  if regionEnd ≤ regionStart then .error .fatal
  else .ok (Words.sub 64 regionEnd regionStart)

/-- `GetUnitCount`: the same in units. -/
def getUnitCount (table : UnitTable) (region : Nat) : Except Fault Nat := do
  let size ← getRegionSize layout table region
  .ok (size / UNIT_SIZE)

/-- `GetRegionInfoAt`: the head record of the region an address lies in. -/
def getRegionInfoAt (table : UnitTable) (allocAddr : Nat) : Except Fault Nat := do
  let unit ← getUnitInfoAt layout allocAddr
  if unitRole (table unit) = SUBORDINATE_UNIT then .ok (table unit).liveInfo else .ok unit

/-! ## Initialisation -/

/-- The record `InitRegionInfo` leaves behind. -/
def initMetadata (m : UnitMetadata) (allocPtr nUnit : Nat) (uClass : UnitRole) : UnitMetadata :=
  let m := { m with
    allocPtr := allocPtr
    regionEnd := Words.add 64 allocPtr (Words.mul 64 nUnit UNIT_SIZE)
    prevRegionIdx := INVALID_IDX
    nextRegionIdx := INVALID_IDX
    liveByteCount := 0
    liveInfo := 0 }
  let m := setUnitRole (setRegionType m FREE_REGION) uClass
  let m := setMarkedRegionFlag (setTraceRegionFlag m 0) 0
  let m := setResurrectedRegionFlag (setEnqueuedRegionFlag m 0) 0
  { m with rawPointerObjectCount := 0 }

/-- `InitRegionInfo` of the record at `region`. -/
def initRegionInfo (table : UnitTable) (region nUnit : Nat) (uClass : UnitRole) :
    Except Fault UnitTable := do
  let allocPtr ← getRegionStart layout region
  .ok (Function.update table region (initMetadata (table region) allocPtr nUnit uClass))

/-- `InitSubordinateUnit`: the role, and the way back to the owner. -/
def initSubordinateUnit (table : UnitTable) (unit owner : Nat) : UnitTable :=
  Function.update table unit
    { setUnitRole (table unit) SUBORDINATE_UNIT with liveInfo := owner }

/-- The loop of `InitRegion` over the `todo` units from index `i` on. -/
def initSubordinates (region nUnit : Nat) : Nat → Nat → UnitTable → Except Fault UnitTable
  | 0, _, table => .ok table
  | todo + 1, i, table => do
    let subordinate ← unitInfoArrayGet region nUnit i
    initSubordinates region nUnit todo (i + 1) (initSubordinateUnit table subordinate region)

/-- `InitRegion`: the table, and the region's address. -/
def initRegion (table : UnitTable) (unitIdx nUnit : Nat) (uclass : UnitRole) :
    Except Fault (UnitTable × Nat) := do
  let region ← getUnitInfo layout unitIdx
  let table ← initRegionInfo layout table region nUnit uclass
  let table ← initSubordinates region nUnit (nUnit - 1) 1 table
  .ok (table, region)

/-- `InitFreeRegion`: the record at the start of a free block. -/
def initFreeRegion (table : UnitTable) (unitIdx nUnit : Nat) : Except Fault UnitTable := do
  let region ← getUnitInfo layout unitIdx
  initRegionInfo layout table region nUnit FREE_UNITS

/-- `ClearUnits`: zeroes heap pages, after the check of its first unit. -/
def clearUnits (idx cnt : Nat) : Except Fault Unit := do
  let _ ← getUnitAddress layout idx
  .ok ()

/-- `ReleaseUnits`: hands heap pages back to the system, after the check of its first unit. -/
def releaseUnits (idx cnt : Nat) : Except Fault Unit := do
  let _ ← getUnitAddress layout idx
  .ok ()

/-- Make one recorded call. -/
def perform (table : UnitTable) : RegionCall → Except Fault UnitTable
  | .initFreeRegion idx num => initFreeRegion layout table idx num
  | .releaseUnits idx cnt => do
    let _ ← releaseUnits layout idx cnt
    .ok table

/-- Make the recorded calls in order. -/
def performAll : UnitTable → List RegionCall → Except Fault UnitTable
  | table, [] => .ok table
  | table, c :: cs => do
    let table ← perform layout table c
    performAll table cs

end RegionInfo

end CangjieRuntime.Heap
