/-
  The decoder of stack maps (`CJRT_StackMapDecode`).

  A stack map is a header, a prologue, and a layout of five tables: the rows, and the register,
  slot, line and derived tables that the rows point into with one-based indices.  The decoder emits
  an event for the header, for each register of the prologue, for each row, and for each root of a
  row.  The embedding is that of the slot decoder; in addition:

    * a function that stops its caller with a code is in `Except`, and the layout of a failed
      `parseLayout` is dropped, as by the only caller;
    * the pointers to the data and to the count are not null.
-/
import CangjieRuntime.Stackmap.StackMap

set_option linter.unusedVariables false

namespace CangjieRuntime.Stackmap

abbrev STACKMAP_EVENT_HEADER : Nat := 1
abbrev STACKMAP_EVENT_PROLOGUE : Nat := 2
abbrev STACKMAP_EVENT_ROW : Nat := 3
abbrev STACKMAP_EVENT_REG_ROOT : Nat := 4
abbrev STACKMAP_EVENT_SLOT_ROOT : Nat := 5
abbrev STACKMAP_EVENT_DERIVED_REG_ROOT : Nat := 6
abbrev STACKMAP_EVENT_STACK_REG_ROOT : Nat := 8
abbrev STACKMAP_EVENT_STACK_SLOT_ROOT : Nat := 9

abbrev X86_UNIVERSAL_REG_COUNT : Nat := 16
abbrev X86_RIP_GAP : Nat := 1

/-! ## Registers -/

/-- The target, with its registers. -/
structure Arch extends Env where
  x86_64 : Bool

/-- The number of a register as an event names it: on x86 the numbers behind the general registers
    leave a gap. -/
def Arch.registerNumber (arch : Arch) (bit : Nat) : Nat :=
  if arch.x86_64 then
    if bit < X86_UNIVERSAL_REG_COUNT then bit else Words.add 32 bit X86_RIP_GAP
  else bit

/-- The slots that hold a register: on x86 those behind the general registers fill two. -/
def Arch.registerSlotCount (arch : Arch) (bit : Nat) : Nat :=
  if arch.x86_64 then if bit < X86_UNIVERSAL_REG_COUNT then 1 else 2 else 1

/-- The registers that count as roots: on x86 the general ones, elsewhere all of them. -/
def Arch.isBaseRegister (arch : Arch) (bit : Nat) : Bool :=
  if arch.x86_64 then bit < X86_UNIVERSAL_REG_COUNT else true

/-! ## The layout -/

/-- The indices of a row into the other tables; 0 is none. -/
structure IndexSet where
  reg : Nat
  slot : Nat
  line : Nat
  derived : Nat
  stackReg : Nat
  stackSlot : Nat
  deriving DecidableEq, Repr

/-- Where the tables are, and how wide their rows and columns are. -/
structure Layout where
  stackMapData : Nat := 0
  stackMapRecords : Nat := 0
  stackMapRowBits : Nat := 0
  regIndexBits : Nat := 0
  slotIndexBits : Nat := 0
  lineIndexBits : Nat := 0
  derivedIndexBits : Nat := 0
  stackRegIndexBits : Nat := 0
  stackSlotIndexBits : Nat := 0
  regData : Nat := 0
  regRecords : Nat := 0
  regBits : Nat := 0
  slotData : Nat := 0
  slotRecords : Nat := 0
  slotBaseBits : Nat := 0
  slotBitmapBits : Nat := 0
  lineData : Nat := 0
  lineRecords : Nat := 0
  lineBits : Nat := 0
  derivedData : Nat := 0
  derivedRecords : Nat := 0
  deriving DecidableEq, Repr

/-- The fields that the slot rows take. -/
def Layout.slots (layout : Layout) : SlotLayout :=
  ⟨layout.slotData, layout.slotRecords, layout.slotBaseBits, layout.slotBitmapBits⟩

/-- A result that stops the caller if it has an error code. -/
def WordResult.check (r : WordResult) : Except Nat WordResult :=
  if r.code ≠ STACKMAP_OK then .error r.code else .ok r

/-- The end of a table, or an error if it is behind the end of the data. -/
def checkedEnd (start rows rowBits size : Nat) : WordResult :=
  if size > MAX_SIZE then ⟨STACKMAP_MALFORMED, 0, start⟩
  else
    let totalBits := Words.mul 64 size 8
    let span := Words.mul 64 rows rowBits
    if start > totalBits ∨ span > Words.sub 64 totalBits start then ⟨STACKMAP_TRUNCATED, 0, start⟩
    else ⟨STACKMAP_OK, 0, Words.add 64 start span⟩

section Data

variable (data : Nat → UInt8) (size : Nat)

/-- The head of the row table. -/
def parseRows (bitStart : Nat) (stackGrow : Bool) : Except Nat (Layout × Nat) := do
  let smRecords ← (readVarInt data size bitStart).check
  if smRecords.value = 0 then return ({}, smRecords.nextBit)
  else
    let regIndexBits ← (readVarInt data size smRecords.nextBit).check
    let slotIndexBits ← (readVarInt data size regIndexBits.nextBit).check
    let lineIndexBits ← (readVarInt data size slotIndexBits.nextBit).check
    let derivedIndexBits ← (readVarInt data size lineIndexBits.nextBit).check
    let (stackRegBits, stackSlotBits, cursor) ←
      (if stackGrow then do
        let stackReg ← (readVarInt data size derivedIndexBits.nextBit).check
        let stackSlot ← (readVarInt data size stackReg.nextBit).check
        return (stackReg.value, stackSlot.value, stackSlot.nextBit)
      else return (0, 0, derivedIndexBits.nextBit))
    let padding ← (readVarInt data size cursor).check
    if regIndexBits.value > 32 ∨ slotIndexBits.value > 32 ∨ lineIndexBits.value > 32 ∨
        derivedIndexBits.value > 32 ∨ stackRegBits > 32 ∨ stackSlotBits > 32 then
      .error STACKMAP_MALFORMED
    else
      let smRowBits64 := 32 + regIndexBits.value + slotIndexBits.value + lineIndexBits.value +
        derivedIndexBits.value + stackRegBits + stackSlotBits
      if smRowBits64 > 0xffffffff then .error STACKMAP_MALFORMED
      else
        let smData := Words.add 64 padding.nextBit padding.value
        if smData < padding.nextBit then .error STACKMAP_MALFORMED
        else
          let smEnd ← (checkedEnd smData smRecords.value smRowBits64 size).check
          return ({
            stackMapData := smData
            stackMapRecords := smRecords.value
            stackMapRowBits := smRowBits64
            regIndexBits := regIndexBits.value
            slotIndexBits := slotIndexBits.value
            lineIndexBits := lineIndexBits.value
            derivedIndexBits := derivedIndexBits.value
            stackRegIndexBits := stackRegBits
            stackSlotIndexBits := stackSlotBits }, smEnd.nextBit)

/-- The head of a table whose rows are one value of at most 32 bits: the register table and the line
    table.  The result is where its rows are, how many, their bits, and where they end. -/
def parseTable (cursor : Nat) : Except Nat (Nat × Nat × Nat × Nat) := do
  let records ← (readVarInt data size cursor).check
  let bits ← (readVarInt data size records.nextBit).check
  if bits.value > 32 then .error STACKMAP_MALFORMED
  else
    let tableEnd ← (checkedEnd bits.nextBit records.value bits.value size).check
    return (bits.nextBit, records.value, bits.value, tableEnd.nextBit)

/-- The head of the slot table, and where its rows end. -/
def parseSlots (cursor : Nat) : Except Nat (SlotLayout × Nat) := do
  let slotRecords ← (readVarInt data size cursor).check
  let slotBaseBits ← (readVarInt data size slotRecords.nextBit).check
  let slotBitmapBits ← (readVarInt data size slotBaseBits.nextBit).check
  if (slotBaseBits.value ≠ 8 ∧ slotBaseBits.value ≠ 16 ∧ slotBaseBits.value ≠ 32) ∨
      slotBitmapBits.value > 0x7fffffff then .error STACKMAP_MALFORMED
  else
    let slotRowBits64 := slotBaseBits.value + slotBitmapBits.value
    if slotRowBits64 > 0xffffffff then .error STACKMAP_MALFORMED
    else
      let slotEnd ←
        (checkedEnd slotBitmapBits.nextBit slotRecords.value slotRowBits64 size).check
      return (⟨slotBitmapBits.nextBit, slotRecords.value, slotBaseBits.value,
        slotBitmapBits.value⟩, slotEnd.nextBit)

/-- The head of the map, its tables one after the other, each with its widths and its count. -/
def parseLayout (bitStart : Nat) (stackGrow : Bool) : Except Nat Layout := do
  let (layout, cursor) ← parseRows data size bitStart stackGrow
  if layout.stackMapRecords = 0 then return layout
  else
    let (regData, regRecords, regBits, cursor) ← parseTable data size cursor
    let (slots, cursor) ← parseSlots data size cursor
    let (lineData, lineRecords, lineBits, cursor) ← parseTable data size cursor
    let derivedRecords ← (readVarInt data size cursor).check
    let derivedRowBits := layout.regIndexBits + layout.slotIndexBits
    if derivedRowBits > 0xffffffff then .error STACKMAP_MALFORMED
    else
      let derivedEnd ←
        (checkedEnd derivedRecords.nextBit derivedRecords.value derivedRowBits size).check
      return {
        layout with
        regData := regData
        regRecords := regRecords
        regBits := regBits
        slotData := slots.slotData
        slotRecords := slots.slotRecords
        slotBaseBits := slots.slotBaseBits
        slotBitmapBits := slots.slotBitmapBits
        lineData := lineData
        lineRecords := lineRecords
        lineBits := lineBits
        derivedData := derivedRecords.nextBit
        derivedRecords := derivedRecords.value }

/-! ## Rows -/

/-- The offset of the code and the indices of a row of the main table. -/
def readIndexSet (layout : Layout) (row : Nat) : Except Nat (Nat × IndexSet) := do
  let cursor := Words.add 64 layout.stackMapData (Words.mul 64 row layout.stackMapRowBits)
  let pc ← (readBits data size cursor 32).check
  let reg ← (readBits data size pc.nextBit layout.regIndexBits).check
  let slot ← (readBits data size reg.nextBit layout.slotIndexBits).check
  let line ← (readBits data size slot.nextBit layout.lineIndexBits).check
  let derived ← (readBits data size line.nextBit layout.derivedIndexBits).check
  let stackReg ← (readBits data size derived.nextBit layout.stackRegIndexBits).check
  let stackSlot ← (readBits data size stackReg.nextBit layout.stackSlotIndexBits).check
  return (pc.value,
    ⟨reg.value, slot.value, line.value, derived.value, stackReg.value, stackSlot.value⟩)

/-- The start of a row, whose number counts from 1. -/
def readTableRow (tableData recordCount rowBits oneBasedIndex : Nat) : WordResult :=
  if oneBasedIndex = 0 then ⟨STACKMAP_OK, 0, tableData⟩
  else if oneBasedIndex > recordCount then ⟨STACKMAP_MALFORMED, 0, tableData⟩
  else
    let bit := Words.add 64 tableData (Words.mul 64 (oneBasedIndex - 1) rowBits)
    readBits data size bit rowBits

/-! ## Roots -/

/-- The emission of an event, with the return if there is no room. -/
def emitOne (capacity : Nat) (s : Emitted) (event : StackMapEvent) : Except Stop Emitted :=
  let (emitted, events) := emitEvent s.events capacity s.eventIndex event
  if emitted.code ≠ STACKMAP_OK then .error (⟨emitted.code, emitted.nextEvent, s.roots⟩, events)
  else .ok ⟨events, emitted.nextEvent, s.roots⟩

/-- The event of a register root. -/
def Target.regEvent (target : Target) (reg subSlot : Nat) : StackMapEvent where
  kind := target.kind
  row := target.row
  value0 :=
    if target.kind = STACKMAP_EVENT_DERIVED_REG_ROOT then BitVec.ofNat 64 target.derivedBase
    else BitVec.ofNat 64 reg
  value1 :=
    if target.kind = STACKMAP_EVENT_DERIVED_REG_ROOT then
      BitVec.ofNat 64 (Words.add 32 (Words.mul 32 reg 2) subSlot)
    else BitVec.ofNat 64 subSlot

/-- The loop over the slots of a register; the first argument is `slots - subSlot`. -/
def emitSubSlots (target : Target) (reg : Nat) : Nat → Nat → Emitted → Except Stop Emitted
  | 0, subSlot, s => .ok s
  | remaining + 1, subSlot, s => do
    let s ← emitOne target.capacity s (target.regEvent reg subSlot)
    emitSubSlots target reg remaining (subSlot + 1) s

/-- The loop over the bits of a register row; the first argument is `layout.regBits - bit`. -/
def emitRegs (arch : Arch) (target : Target) : Nat → Nat → Nat → Emitted → Except Stop Emitted
  | 0, bitMap, bit, s => .ok s
  | remaining + 1, bitMap, bit, s =>
    if bitMap = 0 then .ok s
    else do
      let s ← if bitMap &&& 1 ≠ 0 then do
          let s ← emitSubSlots target (arch.registerNumber bit) (arch.registerSlotCount bit) 0 s
          if arch.isBaseRegister bit then .ok { s with roots := Words.add 64 s.roots 1 } else .ok s
        else .ok s
      emitRegs arch target remaining (bitMap >>> 1) (bit + 1) s

/-- The registers with roots of a row, an event for each part of a register. -/
def decodeRegRoots (arch : Arch) (target : Target) (layout : Layout) (regIndex : Nat)
    (events : Events) (eventStart : Nat) : RootResult × Events :=
  if regIndex = 0 then (⟨STACKMAP_OK, eventStart, 0⟩, events)
  else
    let bitsResult := readTableRow data size layout.regData layout.regRecords layout.regBits regIndex
    if bitsResult.code ≠ STACKMAP_OK then (⟨bitsResult.code, eventStart, 0⟩, events)
    else finish (emitRegs arch target layout.regBits bitsResult.value 0 ⟨events, eventStart, 0⟩)

/-- The return of a caller when a decoder of roots failed. -/
def call : RootResult × Events → Except Stop Emitted
  | (result, events) =>
    if result.code ≠ STACKMAP_OK then .error (result, events)
    else .ok ⟨events, result.nextEvent, result.baseRoots⟩

/-- A reading in a decoder, with the return if it fails. -/
def Emitted.read {α : Type} (s : Emitted) : Except Nat α → Except Stop α
  | .error code => s.stop code
  | .ok a => .ok a

variable (arch : Arch) (layout : Layout) (format pc capacity : Nat)

/-- The loop of `decodeDerived`; the first argument is `baseRoots - baseOrdinal`. -/
def derivedLoop (derivedIndex : Nat) : Nat → Nat → Emitted → Except Stop Emitted
  | 0, baseOrdinal, s => .ok s
  | remaining + 1, baseOrdinal, s => do
    let derivedRowBits := Words.add 32 layout.regIndexBits layout.slotIndexBits
    let cursor := Words.add 64 layout.derivedData
      (Words.mul 64 (Words.add 64 (derivedIndex - 1) baseOrdinal) derivedRowBits)
    let regIndex ← s.read (readBits data size cursor layout.regIndexBits).check
    let slotIndex ← s.read (readBits data size regIndex.nextBit layout.slotIndexBits).check
    let s ← call (decodeRegRoots data size arch
      ⟨STACKMAP_EVENT_DERIVED_REG_ROOT, pc, baseOrdinal, capacity⟩ layout regIndex.value s.events
      s.eventIndex)
    let s ← call (decodeSlotRoots arch.toEnv
      ⟨STACKMAP_EVENT_DERIVED_SLOT_ROOT, pc, baseOrdinal, capacity⟩ data size layout.slots
      slotIndex.value format s.events s.eventIndex)
    derivedLoop derivedIndex remaining (baseOrdinal + 1) s

/-- The derived pointers of a row: each base, and the registers derived from it. -/
def decodeDerived (derivedIndex baseRoots : Nat) (events : Events) (eventStart : Nat) :
    RootResult × Events :=
  if derivedIndex = 0 ∨ baseRoots = 0 then (⟨STACKMAP_OK, eventStart, 0⟩, events)
  else if derivedIndex > layout.derivedRecords ∨
      baseRoots > Words.add 32 (Words.sub 32 layout.derivedRecords derivedIndex) 1 then
    (⟨STACKMAP_MALFORMED, eventStart, 0⟩, events)
  else finish (derivedLoop data size arch layout format pc capacity derivedIndex baseRoots 0
    ⟨events, eventStart, 0⟩)

/-! ## The decoder -/

/-- The body of the loop over the rows, for a row that is not empty. -/
def decodeRow (indices : IndexSet) (s : Emitted) : Except Stop Emitted := do
  let lineNumber ←
    (if indices.line ≠ 0 then do
      let lineResult ← s.read (readTableRow data size layout.lineData layout.lineRecords
        layout.lineBits indices.line).check
      return lineResult.value
    else return 0)
  let s ← emitOne capacity s ⟨STACKMAP_EVENT_ROW, pc, BitVec.ofNat 64 pc, BitVec.ofNat 64 lineNumber⟩
  let regs ← call (decodeRegRoots data size arch ⟨STACKMAP_EVENT_REG_ROOT, pc, 0, capacity⟩ layout
    indices.reg s.events s.eventIndex)
  let slots ← call (decodeSlotRoots arch.toEnv ⟨STACKMAP_EVENT_SLOT_ROOT, pc, 0, capacity⟩ data size
    layout.slots indices.slot format regs.events regs.eventIndex)
  let derived ← call (decodeDerived data size arch layout format pc capacity indices.derived
    (Words.add 64 regs.roots slots.roots) slots.events slots.eventIndex)
  let stackRegs ← call (decodeRegRoots data size arch
    ⟨STACKMAP_EVENT_STACK_REG_ROOT, pc, 0, capacity⟩ layout indices.stackReg derived.events
    derived.eventIndex)
  call (decodeSlotRoots arch.toEnv ⟨STACKMAP_EVENT_STACK_SLOT_ROOT, pc, 0, capacity⟩ data size
    layout.slots indices.stackSlot format stackRegs.events stackRegs.eventIndex)

/-- The loop over the rows; the first argument is `layout.stackMapRecords - row`. -/
def decodeRows : Nat → Nat → Emitted → Except Stop Emitted
  | 0, row, s => .ok s
  | remaining + 1, row, s => do
    let (pc, indices) ← s.read (readIndexSet data size layout row)
    let s ←
      if indices.reg = 0 ∧ indices.slot = 0 ∧ indices.line = 0 ∧ indices.stackReg = 0 ∧
          indices.stackSlot = 0 then .ok s
      else decodeRow data size arch layout format pc capacity indices s
    decodeRows remaining (row + 1) s

/-- The loop over the prologue, which ends with the cursor. -/
def prologueLoop (prologueBits prologueReg prologueCursor : Nat) (s : Emitted) :
    Except Stop (Nat × Emitted) :=
  if h : prologueBits = 0 then .ok (prologueCursor, s)
  else
    if prologueBits &&& 1 ≠ 0 then do
      let offset ← s.read (readVarInt data size prologueCursor).check
      let s ← emitOne capacity s
        ⟨STACKMAP_EVENT_PROLOGUE, 0, BitVec.ofNat 64 prologueReg, BitVec.ofNat 64 offset.value⟩
      prologueLoop (prologueBits >>> 1) (prologueReg + 1) offset.nextBit s
    else prologueLoop (prologueBits >>> 1) (prologueReg + 1) prologueCursor s
termination_by prologueBits
decreasing_by all_goals (rw [Nat.shiftRight_eq_div_pow]; omega)

/-- The body of `CJRT_StackMapDecode`. -/
def decodeBody (stackGrow : Bool) (s : Emitted) : Except Stop Emitted := do
  let stackSize ← s.read (readVarInt data size 0).check
  let format ← s.read (readVarInt data size stackSize.nextBit).check
  let s ← emitOne capacity s
    ⟨STACKMAP_EVENT_HEADER, 0, BitVec.ofNat 64 stackSize.value, BitVec.ofNat 64 format.value⟩
  let prologueMap ← s.read (readVarInt data size format.nextBit).check
  let (prologueCursor, s) ←
    prologueLoop data size capacity prologueMap.value 0 prologueMap.nextBit s
  let layout ← s.read (parseLayout data size prologueCursor stackGrow)
  decodeRows data size arch layout format.value capacity layout.stackMapRecords 0 s

/-- What a run of the decoder leaves: its code, the count, and the events. -/
structure Decoded where
  code : Nat
  eventCount : Nat
  events : Events

/-- `CJRT_StackMapDecode`; an invalid argument leaves the count as it was. -/
def stackMapDecode (stackGrowFlag : Nat) (events : Events) (eventCount : Nat) : Decoded :=
  if stackGrowFlag ≠ 0 ∧ stackGrowFlag ≠ 1 then ⟨STACKMAP_INVALID_ARGUMENT, eventCount, events⟩
  else
    match decodeBody data size arch capacity (stackGrowFlag = 1) ⟨events, 0, 0⟩ with
    | .ok s => ⟨STACKMAP_OK, s.eventIndex, s.events⟩
    | .error (result, events) => ⟨result.code, result.nextEvent, events⟩

end Data

end CangjieRuntime.Stackmap
